import Mathlib.Logic.Relation
import Conform.Proofs.Scalar
import Conform.Proofs.Truth
import Conform.Proofs.Variants

namespace Conform

/-!
# Values that cannot be told apart

A schema looks up the keys that it declares, and nothing else.  What else a value holds, in which
order, and in objects of which classes, does not show in these look-ups.

* `Schema.Declares` — the keys of a schema;
* `Heap.Related` — values that agree in everything that a set of keys leads to;
* `Heap.Related.sequences`, `Heap.Related.mappings`, … — what a node sees of two related values;
* `Mapping.Edit`, `Heap.Edited` — changes of a value that no key of the set leads to;
* `Heap.Edited.related` — an edited value agrees with the old one.
-/

/-! ### Declared keys -/

namespace Schema

/-- The strings that a node looks up: the names of its fields, and its tag. -/
def lookups : Schema → List Label
  | .taggedUnion tag variants => tag :: (taggedUnion tag variants).fieldNames
  | node => node.fieldNames

/-- A string is the name of a field or a tag, anywhere in a schema. -/
def Declares (schema : Schema) (key : Text) : Prop :=
  ∃ node, schema.Contains node ∧ ∃ label ∈ node.lookups, label.content = key

variable {schema node : Schema}

theorem Declares.of_child {key : Text} (hc : node ∈ schema.children) (h : node.Declares key) :
    schema.Declares key := by
  obtain ⟨inner, hinner, hkey⟩ := h
  exact ⟨inner, .inside hc hinner, hkey⟩

/-- The strings that are looked up in the first `n` levels of nodes. -/
def lookupsTo : Nat → Schema → List Text
  | 0, _ => []
  | n + 1, schema => schema.lookups.map Label.content ++ schema.children.flatMap (lookupsTo n)

/-- In as many levels as there are, all keys of the schema are looked up. -/
theorem Declares.mem_lookupsTo {n : Nat} {key : Text} (h : schema.Declares key)
    (hn : schema.ruledTo n = true) : key ∈ schema.lookupsTo n := by
  induction n generalizing schema with
  | zero => cases hn
  | succ n ih =>
    obtain ⟨-, hchildren⟩ := ruledTo_succ_iff.mp hn
    obtain ⟨inner, hinner, hkey⟩ := h
    rw [lookupsTo, List.mem_append]
    cases hinner with
    | self => exact .inl (List.mem_map.mpr hkey)
    | inside hc hinner =>
      exact .inr (List.mem_flatMap.mpr ⟨_, hc, ih ⟨inner, hinner, hkey⟩ (hchildren _ hc)⟩)

end Schema

/-! ### Related values -/

/-- Two values agree in everything that a set of keys leads to: they are the same value, which is no
    container; they are lists or tuples of one length with related items; or they are mappings whose
    look-ups return, with related contents under every key of the set.  A key that is not there has
    the content `undefined`.  Classes, other keys and the order of keys do not matter. -/
inductive Heap.Related (keys : Text → Prop) (heap : Heap) : Value → Value → Prop where
  | same {v : Value} (hs : heap.sequence? v = none) (hm : heap.mapping? v = none) :
    Related keys heap v v
  | sequence {v w : Value} {items items' : List Value} (hv : heap.sequence? v = some items)
    (hw : heap.sequence? w = some items') (hlen : items.length = items'.length)
    (h : ∀ pair ∈ items.zip items', Related keys heap pair.1 pair.2) : Related keys heap v w
  | mapping {v w : Value} {m m' : Mapping} (hv : heap.mapping? v = some m)
    (hw : heap.mapping? w = some m') (hcalm : m.Calm) (hcalm' : m'.Calm)
    (h : ∀ key, keys key → Related keys heap (m.content key) (m'.content key)) :
    Related keys heap v w

namespace Heap

variable {heap : Heap} {v : Value}

/-- No object has the canonical form of a scalar. -/
theorem canonical?_ref_ne {heap' : Heap} {constant : Value} {canonical : Text}
    (hscalar : constant.isScalar = true) (hc : heap'.canonical? constant = some canonical)
    (a : Addr) : heap.canonical? (.ref a) ≠ some canonical := by
  rw [Ne, canonical?_eq_iff hscalar hc]
  intro hsame
  cases hsame with
  | text hv hw => cases hv
  | number hv hw => cases hv

namespace Related

variable {keys : Text → Prop} {w : Value} (h : heap.Related keys v w)
include h

/-- Related values are the same, or both are objects. -/
theorem eq_or_refs : w = v ∨ ∃ a b, v = .ref a ∧ w = .ref b := by
  cases h with
  | same hs hm => exact .inl rfl
  | sequence hv hw hlen h =>
    obtain ⟨a, rfl⟩ := exists_ref_of_sequence? hv
    obtain ⟨b, rfl⟩ := exists_ref_of_sequence? hw
    exact .inr ⟨a, b, rfl, rfl⟩
  | mapping hv hw hcalm hcalm' h =>
    obtain ⟨a, rfl⟩ := exists_ref_of_mapping? hv
    obtain ⟨b, rfl⟩ := exists_ref_of_mapping? hw
    exact .inr ⟨a, b, rfl, rfl⟩

/-- Both values are sequences with related items, or neither of them is a sequence. -/
theorem sequences :
    heap.sequence? v = none ∧ heap.sequence? w = none ∨
      ∃ items items', heap.sequence? v = some items ∧ heap.sequence? w = some items' ∧
        List.Forall₂ (heap.Related keys) items items' := by
  cases h with
  | same hs hm => exact .inl ⟨hs, hs⟩
  | sequence hv hw hlen h =>
    refine .inr ⟨_, _, hv, hw, List.forall₂_iff_zip.mpr ⟨hlen, fun {a b} hab => ?_⟩⟩
    exact h (a, b) hab
  | mapping hv hw hcalm hcalm' h =>
    exact .inl ⟨sequence?_of_mapping? hv, sequence?_of_mapping? hw⟩

/-- Both values are mappings whose look-ups return, with related contents, or neither of them is a
    mapping. -/
theorem mappings :
    heap.mapping? v = none ∧ heap.mapping? w = none ∨
      ∃ m m', heap.mapping? v = some m ∧ heap.mapping? w = some m' ∧ m.Calm ∧ m'.Calm ∧
        ∀ key, keys key → heap.Related keys (m.content key) (m'.content key) := by
  cases h with
  | same hs hm => exact .inl ⟨hm, hm⟩
  | sequence hv hw hlen h => exact .inl ⟨mapping?_of_sequence? hv, mapping?_of_sequence? hw⟩
  | mapping hv hw hcalm hcalm' h => exact .inr ⟨_, _, hv, hw, hcalm, hcalm', h⟩

/-- Objects are of no primitive kind. -/
theorem accepts_eq (kind : PrimitiveKind) : kind.accepts w = kind.accepts v := by
  rcases h.eq_or_refs with rfl | ⟨a, b, rfl, rfl⟩
  · rfl
  · cases kind <;> rfl

/-- Objects are no strings. -/
theorem label?_eq : w.label? = v.label? := by
  rcases h.eq_or_refs with rfl | ⟨a, b, rfl, rfl⟩
  · rfl
  · rfl

/-- Objects do not match a scalar. -/
theorem matches_eq {heap' : Heap} {constant : Value} {canonical : Text}
    (hscalar : constant.isScalar = true) (hc : heap'.canonical? constant = some canonical) :
    (heap.canonical? w == some canonical) = (heap.canonical? v == some canonical) := by
  rcases h.eq_or_refs with rfl | ⟨a, b, rfl, rfl⟩
  · rfl
  · rw [beq_eq_false_iff_ne.mpr (canonical?_ref_ne hscalar hc b),
      beq_eq_false_iff_ne.mpr (canonical?_ref_ne hscalar hc a)]

end Related

end Heap

/-! ### Edited values -/

/-- One change of the entries of a mapping that no key of a set leads to.  The guard may change with
    them: only mappings are compared whose look-ups return. -/
inductive Mapping.Edit (keys : Text → Prop) : Mapping → Mapping → Prop where
  | undeclared {front back : List (Value × Value)} {key v : Value} {guard guard' : Option Guard}
    (hkey : ∀ name, key.text? = some name → ¬ keys name) :
    Edit keys ⟨front ++ (key, v) :: back, guard⟩ ⟨front ++ back, guard'⟩
  | undefined {front back : List (Value × Value)} {key : Value} {guard guard' : Option Guard}
    (hkeys : DistinctKeys (front ++ (key, .undefined) :: back)) :
    Edit keys ⟨front ++ (key, .undefined) :: back, guard⟩ ⟨front ++ back, guard'⟩
  | reordered {entries entries' : List (Value × Value)} {guard guard' : Option Guard}
    (hperm : entries.Perm entries') (hkeys : DistinctKeys entries) :
    Edit keys ⟨entries, guard⟩ ⟨entries', guard'⟩

/-- A value is changed at any number of places, at any depth: the classes of sequences and of
    mappings are changed; values under keys of the set are edited in turn, and then the entries are
    edited in any number of ways that no key of the set leads to, forth or back. -/
inductive Heap.Edited (keys : Text → Prop) (heap : Heap) : Value → Value → Prop where
  | same {v : Value} (hs : heap.sequence? v = none) (hm : heap.mapping? v = none) :
    Edited keys heap v v
  | sequence {v w : Value} {items items' : List Value} (hv : heap.sequence? v = some items)
    (hw : heap.sequence? w = some items') (hlen : items.length = items'.length)
    (h : ∀ pair ∈ items.zip items', Edited keys heap pair.1 pair.2) : Edited keys heap v w
  | mapping {v w : Value} {m inner m' : Mapping} (hv : heap.mapping? v = some m)
    (hw : heap.mapping? w = some m') (hcalm : m.Calm) (hcalm' : m'.Calm)
    (hlen : m.entries.length = inner.entries.length)
    (hkeys : ∀ pair ∈ m.entries.zip inner.entries, pair.2.1 = pair.1.1)
    (h : ∀ pair ∈ m.entries.zip inner.entries, ∀ name, pair.1.1.text? = some name → keys name →
      Edited keys heap pair.1.2 pair.2.2)
    (hedits : Relation.EqvGen (Mapping.Edit keys) inner m') : Edited keys heap v w

section Edits

variable {keys : Text → Prop} {name : Text}

/-- In a mapping with distinct keys, every entry is found. -/
theorem Mapping.find?_eq_some_iff {m : Mapping} (h : DistinctKeys m.entries) {v : Value} :
    m.find? name = some v ↔ ∃ key, key.text? = some name ∧ (key, v) ∈ m.entries := by
  obtain ⟨entries, guard⟩ := m
  rw [find?]
  -- the first entry with the string as its key is the only one
  induction entries with
  | nil => simp
  | cons entry rest ih =>
    by_cases hentry : entry.1.text? = some name
    · rw [List.find?_cons_of_pos (by simpa using hentry), Option.map_some, Option.some.injEq]
      constructor
      · rintro rfl
        exact ⟨entry.1, hentry, List.mem_cons_self⟩
      · rintro ⟨key, hkey, hmem⟩
        rcases List.mem_cons.mp hmem with rfl | hmem
        · rfl
        · -- the string is the key of the first entry, and of no other
          have hfirst : name ∉ rest.filterMap fun entry => entry.1.text? := by
            simp only [DistinctKeys, List.filterMap_cons, hentry, List.nodup_cons] at h
            exact h.1
          exact absurd (List.mem_filterMap.mpr ⟨_, hmem, hkey⟩) hfirst
    · have hrest : DistinctKeys rest := by
        rw [DistinctKeys, List.filterMap_cons] at h
        split at h
        · exact h
        · exact h.of_cons
      rw [List.find?_cons_of_neg (by simpa using hentry), ih hrest]
      refine exists_congr fun key => and_congr_right fun hkey => ?_
      rw [List.mem_cons, or_iff_right]
      rintro rfl
      exact hentry hkey

/-- An entry of which a key knows nothing may be left out. -/
theorem Mapping.content_erase {front back : List (Value × Value)} {key v : Value}
    {guard guard' : Option Guard}
    (h : key.text? = some name → v = .undefined ∧ DistinctKeys (front ++ (key, v) :: back)) :
    (⟨front ++ (key, v) :: back, guard⟩ : Mapping).content name =
      (⟨front ++ back, guard'⟩ : Mapping).content name := by
  rw [content, content, find?, find?, List.find?_append, List.find?_append]
  cases hfront : front.find? fun entry => entry.1.text? == some name with
  | some entry => rfl
  | none =>
    by_cases hkey : key.text? = some name
    · obtain ⟨rfl, hdistinct⟩ := h hkey
      -- no other entry has the key
      have hback : (back.find? fun entry => entry.1.text? == some name) = none := by
        rw [List.find?_eq_none]
        intro entry hentry
        rw [DistinctKeys, List.filterMap_append, List.filterMap_cons, hkey] at hdistinct
        have hnot := (List.nodup_cons.mp hdistinct.of_append_right).1
        simp only [beq_iff_eq]
        exact fun hsame => hnot (List.mem_filterMap.mpr ⟨entry, hentry, hsame⟩)
      rw [List.find?_cons_of_pos (by simpa using hkey), hback]
      rfl
    · rw [List.find?_cons_of_neg (by simpa using hkey)]

/-- An edit changes no content under a key of the set. -/
theorem Mapping.Edit.content_eq {m m' : Mapping} (h : m.Edit keys m') (hname : keys name) :
    m.content name = m'.content name := by
  cases h with
  | undeclared hkey => exact content_erase fun htext => absurd hname (hkey name htext)
  | undefined hkeys => exact content_erase fun _ => ⟨rfl, hkeys⟩
  | @reordered entries entries' guard guard' hperm hkeys =>
    have hkeys' : DistinctKeys entries' := (hperm.filterMap _).nodup_iff.mp hkeys
    have hfind : (⟨entries, guard⟩ : Mapping).find? name =
        (⟨entries', guard'⟩ : Mapping).find? name := by
      apply Option.ext
      intro v
      rw [find?_eq_some_iff hkeys, find?_eq_some_iff hkeys']
      exact exists_congr fun key => and_congr_right fun _ => hperm.mem_iff
    rw [content, content, hfind]

theorem Mapping.content_eq_of_edits {m m' : Mapping} (h : Relation.EqvGen (Mapping.Edit keys) m m')
    (hname : keys name) : m.content name = m'.content name := by
  induction h with
  | rel m m' h => exact h.content_eq hname
  | refl m => rfl
  | symm m m' _ ih => exact ih.symm
  | trans m m' m'' _ _ ih ih' => exact ih.trans ih'

/-- Where the values of entries are changed, contents change in the same way. -/
theorem Mapping.content_related {related : Value → Value → Prop} {m m' : Mapping}
    (hundefined : related .undefined .undefined)
    (h : List.Forall₂ (fun a b => b.1 = a.1 ∧ (a.1.text? = some name → related a.2 b.2))
      m.entries m'.entries) : related (m.content name) (m'.content name) := by
  obtain ⟨entries, guard⟩ := m
  obtain ⟨entries', guard'⟩ := m'
  rw [content, content, find?, find?]
  dsimp only at h ⊢
  induction h with
  | nil => exact hundefined
  | @cons a b _ _ hab _ ih =>
    obtain ⟨hkey, hvalue⟩ := hab
    by_cases ha : a.1.text? = some name
    · rw [List.find?_cons_of_pos (by simpa using ha),
        List.find?_cons_of_pos (by simpa [hkey] using ha)]
      exact hvalue ha
    · rw [List.find?_cons_of_neg (by simpa using ha),
        List.find?_cons_of_neg (by simpa [hkey] using ha)]
      exact ih

/-- An edited value agrees with the old one in everything that the keys lead to. -/
theorem Heap.Edited.related {heap : Heap} {v w : Value} (h : heap.Edited keys v w) :
    heap.Related keys v w := by
  induction h with
  | same hs hm => exact .same hs hm
  | sequence hv hw hlen _ ih => exact .sequence hv hw hlen ih
  | @mapping v w m inner m' hv hw hcalm hcalm' hlen hkeys _ hedits ih =>
    refine .mapping hv hw hcalm hcalm' fun name hname => ?_
    rw [← Mapping.content_eq_of_edits hedits hname]
    refine Mapping.content_related (.same rfl rfl) (List.forall₂_iff_zip.mpr ⟨hlen, fun hab => ?_⟩)
    exact ⟨hkeys _ hab, fun htext => ih _ hab name htext hname⟩

end Edits

end Conform
