import Conform.Proofs.Construction

namespace Conform

/-!
# Tagged unions as they are built

What is known of a tagged union once it has been made: its variants are those of the mapping that it
was made from, in the same order; a variant that was a shape keeps its fields; every variant declares
the tag field, and a literal there is a literal of the key.

* `Build.Adds` — a construction that leaves the validators before it as they are;
* `Build.forEntries_spec` — a construction for each entry of a mapping;
* `Build.DeclaresTag`, `Build.variant_spec` — what is checked of a variant;
* `Build.taggedUnion_spec` — the variants of a tagged union;
* `DistinctKeys`, `DistinctNames` — a mapping holds a string once at most, as every mapping does to
  which entries are added one by one; so the labels that are read off its keys are distinct.
-/

variable {α β : Type}

namespace Build

variable {s t : Store}

/-! ### Constructions that only add -/

/-- Whenever a construction succeeds, it has only added to the store. -/
def Adds (x : Build α) : Prop := ∀ s a t, x s = .ok a t → s.Grows t

namespace Adds

theorem pure (a : α) : Adds (Pure.pure a : Build α) := by
  intro s b t h
  obtain ⟨-, rfl⟩ := EStateM.Result.ok.inj h
  exact .refl s

theorem bind {x : Build α} {f : α → Build β} (hx : Adds x) (hf : ∀ a, Adds (f a)) :
    Adds (x >>= f) := by
  intro s b t h
  obtain ⟨a, u, hxa, hfa⟩ := bind_eq_ok_iff.mp h
  exact (hx s a u hxa).trans (hf a u b t hfa)

theorem get_bind {f : Store → Build β} (hf : ∀ store, Adds (f store)) : Adds (get >>= f) :=
  fun s b t h => hf s s b t h

theorem throw (problem : Problem) : Adds (MonadExcept.throw problem : Build α) := nofun

theorem allocate (c : Cell) : Adds (allocate c) := by
  intro s v t h
  rw [allocate_eq] at h
  obtain ⟨-, rfl⟩ := EStateM.Result.ok.inj h
  exact grows_push s c

theorem addValidator (schema : Schema) (attributes : List (String × Attribute)) :
    Adds (addValidator schema attributes) :=
  fun _ _ _ h => (addValidator_spec h).1

/-- A misuse is the end, whatever has to be shown in it. -/
theorem refuse_display (v : Value) (misuse : Text → Misuse) :
    Adds (do refuse (misuse (← display v)) : Build α) := by
  intro s a t h
  obtain ⟨shown, u, -, hrefuse⟩ := bind_eq_ok_iff.mp h
  cases hrefuse

end Adds

theorem child_adds (place : Text) (v : Value) : Adds (child place v) := by
  refine .get_bind fun store => ?_
  split
  · exact .pure _
  · exact (Adds.addValidator _ _).bind fun made => .pure _
  · exact .refuse_display v (.child place)

/-! ### Entries -/

section Entries

variable {m : Mapping} {step : Value → Value → Build α}

/-- What every step that starts from a later store establishes for its entry, holds for all
    entries. -/
theorem forEntries_spec {s₀ : Store} {p : Value × Value → α → Prop}
    (hstep : ∀ entry s a t, s₀.Grows s → step entry.1 entry.2 s = .ok a t → s.Grows t ∧ p entry a)
    (hs : s₀.Grows s) {results : List α} (h : forEntries m step s = .ok results t) :
    s.Grows t ∧ List.Forall₂ p m.entries results := by
  rw [forEntries] at h
  generalize m.entries = entries at h
  induction entries generalizing s results with
  | nil =>
    obtain ⟨rfl, rfl⟩ := EStateM.Result.ok.inj h
    exact ⟨.refl s, .nil⟩
  | cons entry entries ih =>
    rw [List.mapM_cons] at h
    obtain ⟨first, others, u, rfl, hfirst, hothers⟩ := cons_eq_ok h
    obtain ⟨store, _, hget, hread⟩ := bind_eq_ok_iff.mp hfirst
    obtain ⟨rfl, rfl⟩ := EStateM.Result.ok.inj hget
    cases hfault : s.heap.readFault? m entry.1 with
    | some fault =>
      simp only [hfault] at hread
      cases hread
    | none =>
      simp only [hfault] at hread
      obtain ⟨hsu, hp⟩ := hstep entry s first u hs hread
      obtain ⟨hut, hps⟩ := ih (hs.trans hsu) hothers
      exact ⟨hsu.trans hut, .cons hp hps⟩

theorem forEntries_adds (h : ∀ key value, Adds (step key value)) : Adds (forEntries m step) :=
  fun s _ _ hresults =>
    (forEntries_spec (p := fun _ _ => True)
      (fun entry s a t _ ha => ⟨h entry.1 entry.2 s a t ha, trivial⟩) (.refl s) hresults).1

end Entries

/-! ### Shapes -/

theorem fieldRules_adds (owner : String) (fields : Value) : Adds (fieldRules owner fields) := by
  refine .get_bind fun store => ?_
  cases hm : store.heap.mapping? fields with
  | none =>
    simp only [hm]
    exact .throw _
  | some m =>
    simp only [hm]
    refine forEntries_adds fun key value => ?_
    cases hkey : key.label? with
    | none => exact .refuse_display key (.fieldName owner)
    | some name => exact (child_adds _ value).bind fun made => .pure _

theorem shapeWithFields_adds (fields : Value) : Adds (shapeWithFields fields) :=
  (fieldRules_adds "shape" fields).bind fun _ => (Adds.allocate _).bind fun _ =>
    (Adds.addValidator _ _).bind fun _ => .pure _

/-! ### Variants -/

/-- The fields of a variant declare the tag field, and a literal there is a literal of the key. -/
def DeclaresTag (tag key : Label) (fields : List (Label × Schema)) : Prop :=
  ∃ field, (fields.find? fun field => field.1.content == tag.content) = some field ∧
    ∀ constant canonical, field.2 = .literal constant canonical →
      ∃ heap : Heap, heap.canonical? key.toValue = some canonical

theorem checkTagField_spec {tag key : Label} {fields : List (Label × Schema)} {u : Unit}
    (h : checkTagField tag key fields s = .ok u t) : t = s ∧ DeclaresTag tag key fields := by
  rw [checkTagField] at h
  cases hfind : fields.find? fun field => field.1.content == tag.content with
  | none =>
    rw [hfind] at h
    cases h
  | some field =>
    obtain ⟨name, rule⟩ := field
    rw [hfind] at h
    cases rule with
    | literal constant canonical =>
      obtain ⟨store, _, hget, h⟩ := bind_eq_ok_iff.mp h
      obtain ⟨rfl, rfl⟩ := EStateM.Result.ok.inj hget
      -- what is compared are canonical forms, and the check goes through if they agree
      by_cases hkey : (s.heap.canonical? key.toValue != some canonical) = true
      · rw [if_pos hkey] at h
        obtain ⟨shown, v, -, hrefuse⟩ := bind_eq_ok_iff.mp h
        cases hrefuse
      · rw [if_neg hkey] at h
        obtain ⟨-, rfl⟩ := EStateM.Result.ok.inj h
        refine ⟨rfl, _, hfind, fun constant' canonical' hliteral => ⟨s.heap, ?_⟩⟩
        obtain ⟨-, rfl⟩ := Schema.literal.inj hliteral
        simpa using hkey
    | _ =>
      obtain ⟨-, rfl⟩ := EStateM.Result.ok.inj h
      exact ⟨rfl, _, hfind, nofun⟩

/-- A shape is taken as it is; anything else makes a new one. -/
theorem variantShape_spec {definition made : Value} {fields : List (Label × Schema)}
    (h : variantShape definition s = .ok (made, fields) t) :
    s.Grows t ∧
      ∀ declared, s.schemaOf? definition = some (.shape declared) → fields = declared := by
  obtain ⟨store, _, hget, h⟩ := bind_eq_ok_iff.mp h
  obtain ⟨rfl, rfl⟩ := EStateM.Result.ok.inj hget
  cases hschema : s.schemaOf? definition with
  | none =>
    simp only [hschema] at h
    exact ⟨shapeWithFields_adds definition s _ t h, nofun⟩
  | some schema =>
    simp only [hschema] at h
    cases schema with
    | shape declared =>
      cases h
      exact ⟨.refl s, fun declared' h => Schema.shape.inj (Option.some.inj h)⟩
    | _ => exact ⟨shapeWithFields_adds definition s _ t h, nofun⟩

/-- A variant that is made has been checked. -/
theorem variant_spec {tag key key' : Label} {definition made : Value}
    {fields : List (Label × Schema)}
    (h : variant tag key definition s = .ok (key', made, fields) t) :
    s.Grows t ∧ key' = key ∧ DeclaresTag tag key fields ∧
      ∀ declared, s.schemaOf? definition = some (.shape declared) → fields = declared := by
  obtain ⟨⟨made', fields'⟩, u, hshape, h⟩ := bind_eq_ok_iff.mp h
  obtain ⟨_, w, hcheck, h⟩ := bind_eq_ok_iff.mp h
  cases h
  obtain ⟨hgrows, hdeclared⟩ := variantShape_spec hshape
  obtain ⟨rfl, htag⟩ := checkTagField_spec hcheck
  exact ⟨hgrows, rfl, htag, hdeclared⟩

/-- An entry of a mapping of variants, and the variant that it makes in a tagged union. -/
structure IsVariantOf (s : Store) (tag : Label) (entry : Value × Value)
    (rule : Label × List (Label × Schema)) : Prop where
  key : entry.1.label? = some rule.1
  tagField : DeclaresTag tag rule.1 rule.2
  fields : ∀ declared, s.Names entry.2 (.shape declared) → rule.2 = declared

/-- The variants of a tagged union are those of the mapping that it is made from, in their order. -/
theorem taggedUnion_spec {tag variants v : Value} (h : taggedUnion tag variants s = .ok v t) :
    ∃ label m rules, tag.label? = some label ∧ s.heap.mapping? variants = some m ∧
      t.Names v (.taggedUnion label rules) ∧ List.Forall₂ (IsVariantOf s label) m.entries rules := by
  obtain ⟨store, _, hget, h⟩ := bind_eq_ok_iff.mp h
  obtain ⟨rfl, rfl⟩ := EStateM.Result.ok.inj hget
  cases htag : tag.label? with
  | none =>
    simp only [htag] at h
    obtain ⟨shown, u, -, hrefuse⟩ := bind_eq_ok_iff.mp h
    cases hrefuse
  | some label =>
    cases hm : s.heap.mapping? variants with
    | none =>
      simp only [htag, hm] at h
      cases h
    | some m =>
      simp only [htag, hm] at h
      obtain ⟨made, u, hmade, h⟩ := bind_eq_ok_iff.mp h
      obtain ⟨view, w, -, h⟩ := bind_eq_ok_iff.mp h
      obtain ⟨-, hnames⟩ := addValidator_spec h
      refine ⟨label, m, _, rfl, rfl, hnames, ?_⟩
      rw [List.forall₂_map_right_iff]
      refine (forEntries_spec (fun entry s' rule t' hs' hrule => ?_) (.refl s) hmade).2
      -- one entry, in the store that the entries before it have left
      cases hkey : entry.1.label? with
      | none =>
        simp only [hkey] at hrule
        obtain ⟨shown, x, -, hrefuse⟩ := bind_eq_ok_iff.mp hrule
        cases hrefuse
      | some key =>
        simp only [hkey] at hrule
        obtain ⟨key', made', fields⟩ := rule
        obtain ⟨hgrows, rfl, hdeclares, hfields⟩ := variant_spec hrule
        exact ⟨hgrows, hkey, hdeclares, fun declared hnames =>
          hfields declared (hnames.later hs').schemaOf?⟩

end Build

/-! ### Keys -/

/-- No two entries have the same string as their key. -/
def DistinctKeys (entries : List (Value × Value)) : Prop :=
  (entries.filterMap fun entry => entry.1.text?).Nodup

theorem distinctKeys_nil : DistinctKeys [] := List.nodup_nil

/-- Strings are the same key if their contents are. -/
theorem Heap.sameKey_of_text {heap : Heap} {v w : Value} {a b : Text} (hv : v.text? = some a)
    (hw : w.text? = some b) : heap.sameKey v w = (a == b) := by
  cases v with
  | str s | code c =>
    obtain rfl := Option.some.inj hv
    cases w with
    | str s | code c =>
      obtain rfl := Option.some.inj hw
      rfl
    | _ => cases hw
  | _ => cases hv

/-- A new entry has another key than those that are there, or takes the place of one of them. -/
theorem DistinctKeys.insertEntry {entries : List (Value × Value)} (h : DistinctKeys entries)
    (heap : Heap) (key value : Value) : DistinctKeys (heap.insertEntry entries key value) := by
  rw [DistinctKeys, Heap.insertEntry]
  by_cases hkey : (entries.any fun entry => heap.sameKey entry.1 key) = true
  · rw [if_pos hkey, List.filterMap_map]
    -- an entry whose value is replaced keeps its key
    have hsame : (fun entry : Value × Value => entry.1.text?) ∘
        (fun entry => if heap.sameKey entry.1 key then (entry.1, value) else entry) =
        fun entry => entry.1.text? := by
      funext entry
      by_cases hentry : heap.sameKey entry.1 key = true <;> simp [hentry]
    rwa [hsame]
  · rw [if_neg hkey, List.filterMap_append]
    cases htext : key.text? with
    | none => simpa [htext, DistinctKeys] using h
    | some text =>
      have hnew : text ∉ entries.filterMap fun entry => entry.1.text? := by
        intro hmem
        obtain ⟨entry, hentry, hequal⟩ := List.mem_filterMap.mp hmem
        apply hkey
        rw [List.any_eq_true]
        exact ⟨entry, hentry, by rw [Heap.sameKey_of_text hequal htext, beq_self_eq_true]⟩
      rw [List.nodup_append]
      refine ⟨h, by simp [htext], fun a ha b hb => ?_⟩
      obtain rfl : b = text := by simpa [htext] using hb
      exact fun hab => hnew (hab ▸ ha)

/-- Labels that are read off the keys of entries have their texts. -/
theorem texts_of_labels {entries : List (Value × Value)} {results : List (Label × α)}
    (h : List.Forall₂ (fun entry result => entry.1.label? = some result.1) entries results) :
    (entries.filterMap fun entry => entry.1.text?) = results.map fun result => result.1.content := by
  induction h with
  | nil => rfl
  | @cons entry result _ _ hentry _ ih =>
    have htext : entry.1.text? = some result.1.content := by
      rw [Value.text?, hentry, Option.map_some]
    simp only [List.filterMap_cons, htext, ih, List.map_cons]

/-- The variants of a tagged union have the keys of the mapping. -/
theorem Build.keys_of_variants {s : Store} {tag : Label} {entries : List (Value × Value)}
    {rules : List (Label × List (Label × Schema))}
    (h : List.Forall₂ (IsVariantOf s tag) entries rules) :
    (entries.filterMap fun entry => entry.1.text?) = rules.map fun rule => rule.1.content :=
  texts_of_labels (h.imp fun _ _ hrule => hrule.key)

/-- No two entries have the same label. -/
def DistinctNames (entries : List (Label × α)) : Prop :=
  (entries.map fun entry => entry.1.content).Nodup

/-- The labels that are read off the keys of entries are distinct if the keys are. -/
theorem distinctNames_of_keys {entries : List (Value × Value)} {results : List (Label × α)}
    (hkeys : DistinctKeys entries)
    (h : List.Forall₂ (fun entry result => entry.1.label? = some result.1) entries results) :
    DistinctNames results := by
  rw [DistinctNames, ← texts_of_labels h]
  exact hkeys

end Conform
