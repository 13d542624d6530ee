import Conform.Proofs.Construction

namespace Conform

/-!
# Portraits

A validator is an object that shows its attributes: the nodes that it was made from stand there, on
their own, or in a tuple or a read-only mapping that was made for them.  Objects are added to a store, or
changed in place if they are lists, dictionaries or streams.  So what a validator shows stays as it
was made, and every node that it shows was there before it.

* `Cell.Later`, `Store.Extends` — what may become of an object, and of a store;
* `Store.Portrays` — attributes show a schema, node by node;
* `Store.Sound` — every validator shows its schema;
* `Store.Evolves` — a change that keeps a store sound, in one of four ways.
-/

/-! ### Later objects -/

/-- An object may become another one of its kind, if it is one that is changed in place. -/
inductive Cell.Later : Cell → Cell → Prop where
  | same {c : Cell} : Later c c
  | list {items items' : List Value} : Later (.list items) (.list items')
  | dict {entries entries' : List (Value × Value)} : Later (.dict entries) (.dict entries')
  | orderedDict {entries entries' : List (Value × Value)} :
    Later (.orderedDict entries) (.orderedDict entries')
  | stream {items items' : List Value} : Later (.stream items) (.stream items')

theorem Cell.Later.trans {c d e : Cell} (h : c.Later d) (h' : d.Later e) : c.Later e := by
  cases h with
  | same => exact h'
  | list =>
    cases h' <;> constructor
  | dict =>
    cases h' <;> constructor
  | orderedDict =>
    cases h' <;> constructor
  | stream =>
    cases h' <;> constructor

/-- No object stands behind the last address. -/
theorem Heap.cell_of_le {h : Heap} {a : Addr} (ha : h.next ≤ a) :
    h.cell a = .foreign "object" (.ok "<object>") (.ok true) := by
  rw [cell, Array.getElem?_eq_none ha]
  rfl

/-- A later store has more objects and validators, and every object that was there before is still of
    its kind. -/
structure Store.Extends (s t : Store) : Prop extends s.Grows t where
  cells : ∀ a < s.heap.next, (s.heap.cell a).Later (t.heap.cell a)

namespace Store

variable {s t u : Store}

theorem Extends.refl (s : Store) : s.Extends s := ⟨.refl s, fun _ _ => .same⟩

theorem Extends.trans (h : s.Extends t) (h' : t.Extends u) : s.Extends u :=
  ⟨h.toGrows.trans h'.toGrows, fun a ha =>
    (h.cells a ha).trans (h'.cells a (Nat.lt_of_lt_of_le ha h.next))⟩

theorem extends_push (s : Store) (c : Cell) : s.Extends { s with heap := s.heap.push c } where
  toGrows := Build.grows_push s c
  cells a ha := by
    rw [s.heap.cell_push_of_lt c ha]
    exact .same

theorem extends_set {a : Addr} {c : Cell} (h : (s.heap.cell a).Later c) :
    s.Extends { s with heap := s.heap.set a c } where
  toGrows := Build.grows_set s a c
  cells b hb := by
    by_cases hab : a = b
    · subst hab
      rw [s.heap.cell_set_self c hb]
      exact h
    · rw [s.heap.cell_set_of_ne c hab]
      exact .same

/-! ### What validators show -/

variable {bound : Addr} {v : Value} {c : Cell} {schema : Schema}
  {attributes : List (String × Attribute)}

/-- A value stands for an object that was made before a time. -/
def Shows (s : Store) (bound : Addr) (v : Value) (c : Cell) : Prop :=
  ∃ a < bound, v = .ref a ∧ s.heap.cell a = c

/-- A value is the validator of a schema, and was made before a time. -/
def NamesBelow (s : Store) (bound : Addr) (v : Value) (schema : Schema) : Prop :=
  ∃ a < bound, v = .ref a ∧ s.schemas.lookup a = some schema

/-- Attributes show a schema: its nodes are validators that were made before, and those of them that stand
    in a container are all that is in it. -/
inductive Portrays (s : Store) (bound : Addr) : Schema → List (String × Attribute) → Prop where
  | primitive {kind : PrimitiveKind} {shown : Text} :
    Portrays s bound (.primitive kind) [("kind", .text shown)]
  | literal {constant : Value} {canonical : Text} :
    Portrays s bound (.literal constant canonical) [("constant", .value constant)]
  | shape {rules : List (Label × Value × Schema)} {view : Value}
    (hview : s.Shows bound view (.view (rules.map fun rule => (rule.1.toValue, rule.2.1))))
    (hrules : ∀ rule ∈ rules, s.NamesBelow bound rule.2.1 rule.2.2) :
    Portrays s bound (.shape (rules.map fun rule => (rule.1, rule.2.2))) [("fields", .value view)]
  | array {node : Value} {member : Schema} (hnode : s.NamesBelow bound node member) :
    Portrays s bound (.array member) [("member", .value node)]
  | tuple {members : List (Value × Schema)} {items : Value}
    (hitems : s.Shows bound items (.tuple (members.map Prod.fst)))
    (hmembers : ∀ member ∈ members, s.NamesBelow bound member.1 member.2) :
    Portrays s bound (.tuple (members.map Prod.snd)) [("members", .value items)]
  | union {members : List (Value × Schema)} {items : Value}
    (hitems : s.Shows bound items (.tuple (members.map Prod.fst)))
    (hmembers : ∀ member ∈ members, s.NamesBelow bound member.1 member.2) :
    Portrays s bound (.union (members.map Prod.snd)) [("members", .value items)]
  | intersection {members : List (Value × Schema)} {items : Value}
    (hitems : s.Shows bound items (.tuple (members.map Prod.fst)))
    (hmembers : ∀ member ∈ members, s.NamesBelow bound member.1 member.2) :
    Portrays s bound (.intersection (members.map Prod.snd)) [("members", .value items)]
  | taggedUnion {tag : Label} {variants : List (Label × Value × List (Label × Schema))}
    {view : Value}
    (hview : s.Shows bound view
      (.view (variants.map fun variant => (variant.1.toValue, variant.2.1))))
    (hvariants : ∀ variant ∈ variants, s.NamesBelow bound variant.2.1 (.shape variant.2.2)) :
    Portrays s bound (.taggedUnion tag (variants.map fun variant => (variant.1, variant.2.2)))
      [("tag", .value tag.toValue), ("variants", .value view)]
  | predicate {test : Test} {function name : Value} :
    Portrays s bound (.predicate test name) [("func", .value function), ("name", .value name)]
  | bare : Portrays s bound .bare []

section Later

variable (hst : s.Extends t) (hbound : bound ≤ s.heap.next)
include hst hbound

theorem NamesBelow.later (h : s.NamesBelow bound v schema) : t.NamesBelow bound v schema := by
  obtain ⟨a, ha, rfl, hlookup⟩ := h
  exact ⟨a, ha, rfl, (hst.schemas a (Nat.lt_of_lt_of_le ha hbound)).trans hlookup⟩

theorem Shows.later (h : s.Shows bound v c) (hfixed : ∀ d, c.Later d → d = c) :
    t.Shows bound v c := by
  obtain ⟨a, ha, rfl, rfl⟩ := h
  exact ⟨a, ha, rfl, hfixed _ (hst.cells a (Nat.lt_of_lt_of_le ha hbound))⟩

/-- A tuple stays as it is. -/
theorem Shows.later_tuple {items : List Value} (h : s.Shows bound v (.tuple items)) :
    t.Shows bound v (.tuple items) :=
  h.later hst hbound (by rintro _ ⟨⟩; rfl)

/-- So does a read-only mapping. -/
theorem Shows.later_view {entries : List (Value × Value)} (h : s.Shows bound v (.view entries)) :
    t.Shows bound v (.view entries) :=
  h.later hst hbound (by rintro _ ⟨⟩; rfl)

/-- What attributes show, they go on showing. -/
theorem Portrays.later (h : s.Portrays bound schema attributes) :
    t.Portrays bound schema attributes := by
  cases h with
  | primitive => exact .primitive
  | literal => exact .literal
  | shape hview hrules =>
    exact .shape (hview.later_view hst hbound) fun rule hr => (hrules rule hr).later hst hbound
  | array hnode => exact .array (hnode.later hst hbound)
  | tuple hitems hmembers =>
    exact .tuple (hitems.later_tuple hst hbound) fun m hm => (hmembers m hm).later hst hbound
  | union hitems hmembers =>
    exact .union (hitems.later_tuple hst hbound) fun m hm => (hmembers m hm).later hst hbound
  | intersection hitems hmembers =>
    exact .intersection (hitems.later_tuple hst hbound) fun m hm =>
      (hmembers m hm).later hst hbound
  | taggedUnion hview hvariants =>
    exact .taggedUnion (hview.later_view hst hbound) fun variant hv =>
      (hvariants variant hv).later hst hbound
  | predicate => exact .predicate
  | bare => exact .bare

end Later

/-! ### Sound stores -/

/-- Every validator shows its schema, by nodes that were made before it, and nothing else looks like a
    validator. -/
structure Sound (s : Store) : Prop where
  portrayed : ∀ a schema, s.schemas.lookup a = some schema →
    ∃ attributes, s.heap.cell a = .validator ⟨schema.className, attributes⟩ ∧
      s.Portrays a schema attributes
  known : ∀ a portrait, s.heap.cell a = .validator portrait →
    ∃ schema, s.schemas.lookup a = some schema

theorem sound_empty : Store.empty.Sound where
  portrayed _ _ h := nomatch h
  known a portrait h := by
    rw [Heap.cell_of_le (Nat.zero_le a)] at h
    cases h

theorem Sound.lt_next (h : s.Sound) {a : Addr} (ha : s.schemas.lookup a = some schema) :
    a < s.heap.next := by
  obtain ⟨attributes, hcell, -⟩ := h.portrayed a schema ha
  by_contra hle
  rw [Heap.cell_of_le (Nat.not_lt.mp hle)] at hcell
  cases hcell

/-- A validator is the validator of a schema below the next address. -/
theorem Sound.names (h : s.Sound) (hv : s.schemaOf? v = some schema) : s.Names v schema := by
  obtain ⟨a, ha, hlookup⟩ := Option.bind_eq_some_iff.mp hv
  cases v with
  | ref b =>
    obtain rfl := Option.some.inj ha
    exact ⟨b, h.lt_next hlookup, rfl, hlookup⟩
  | _ => cases ha

/-- A later store is sound if its new objects and validators are as they should be. -/
theorem Sound.later (h : s.Sound) (hst : s.Extends t)
    (hportrayed : ∀ a schema, s.heap.next ≤ a → t.schemas.lookup a = some schema →
      ∃ attributes, t.heap.cell a = .validator ⟨schema.className, attributes⟩ ∧
        t.Portrays a schema attributes)
    (hknown : ∀ a portrait, s.heap.next ≤ a → t.heap.cell a = .validator portrait →
      ∃ schema, t.schemas.lookup a = some schema) : t.Sound where
  portrayed a schema ha := by
    -- what was there before has at most become another version of itself
    rcases Nat.lt_or_ge a s.heap.next with hlt | hge
    · rw [hst.schemas a hlt] at ha
      obtain ⟨attributes, hcell, hportrays⟩ := h.portrayed a schema ha
      have hlater := hst.cells a hlt
      rw [hcell] at hlater
      refine ⟨attributes, ?_, hportrays.later hst (Nat.le_of_lt hlt)⟩
      generalize t.heap.cell a = c at hlater
      cases hlater
      rfl
    · exact hportrayed a schema hge ha
  known a portrait ha := by
    rcases Nat.lt_or_ge a s.heap.next with hlt | hge
    · rw [hst.schemas a hlt]
      have hlater := hst.cells a hlt
      rw [ha] at hlater
      generalize hcell : s.heap.cell a = c at hlater
      cases hlater
      exact h.known a portrait hcell
    · exact hknown a portrait hge ha

theorem Sound.lookup_of_le (h : s.Sound) {a : Addr} (ha : s.heap.next ≤ a) :
    s.schemas.lookup a = none := by
  cases hlookup : s.schemas.lookup a with
  | none => rfl
  | some schema => exact absurd (h.lt_next hlookup) (Nat.not_lt.mpr ha)

/-- Behind the objects that were there before, there is only the new one. -/
theorem eq_of_cell_push {heap : Heap} {a : Addr} (ha : heap.next ≤ a)
    (hc : (heap.push c).cell a ≠ .foreign "object" (.ok "<object>") (.ok true)) :
    a = heap.next := by
  by_contra hne
  refine hc (Heap.cell_of_le ?_)
  rw [Heap.next_push]
  exact Nat.lt_of_le_of_ne ha (Ne.symm hne)

/-- A change from which a sound store comes out sound and extended. -/
def Evolves (s t : Store) : Prop := s.Sound → t.Sound ∧ s.Extends t

theorem Evolves.refl (s : Store) : s.Evolves s := fun h => ⟨h, .refl s⟩

theorem Evolves.trans (h : s.Evolves t) (h' : t.Evolves u) : s.Evolves u := by
  intro hs
  obtain ⟨ht, hst⟩ := h hs
  obtain ⟨hu, htu⟩ := h' ht
  exact ⟨hu, hst.trans htu⟩

/-- An object is added that is no validator. -/
theorem evolves_push (s : Store) (hc : ∀ portrait, c ≠ .validator portrait) :
    s.Evolves { s with heap := s.heap.push c } := by
  intro hs
  refine ⟨hs.later (extends_push s c) (fun a schema ha hlookup => ?_) fun a portrait ha hcell => ?_,
    extends_push s c⟩
  · cases (hs.lookup_of_le ha).symm.trans hlookup
  · obtain rfl : a = s.heap.next := eq_of_cell_push ha (c := c) (by rw [hcell]; nofun)
    rw [Heap.cell_push_next] at hcell
    exact absurd hcell (hc portrait)

/-- An object is changed in place. -/
theorem evolves_set {a : Addr} (h : (s.heap.cell a).Later c) :
    s.Evolves { s with heap := s.heap.set a c } := by
  intro hs
  refine ⟨hs.later (extends_set h) (fun b schema hb hlookup => ?_) fun b portrait hb hcell => ?_,
    extends_set h⟩
  · cases (hs.lookup_of_le hb).symm.trans hlookup
  · rw [Heap.cell_of_le (by rw [Heap.next_set]; exact hb)] at hcell
    cases hcell

/-- The tests of functions make no difference. -/
theorem Evolves.withTests (h : s.Evolves t) (tests : List (Addr × Test)) :
    s.Evolves { t with tests := tests } := by
  intro hs
  obtain ⟨ht, hst⟩ := h hs
  have hsame : t.Extends { t with tests := tests } := ⟨⟨Nat.le_refl _, fun _ _ => rfl⟩, fun _ _ => .same⟩
  refine ⟨ht.later hsame (fun a schema ha hlookup => ?_) fun a portrait ha hcell => ?_,
    hst.trans hsame⟩
  · cases (ht.lookup_of_le ha).symm.trans hlookup
  · exact ht.known a portrait hcell

/-- A validator is added whose attributes show its schema. -/
theorem evolves_addValidator (h : s.Portrays s.heap.next schema attributes) :
    s.Evolves
      { s with
        heap := s.heap.push (.validator ⟨schema.className, attributes⟩)
        schemas := (s.heap.next, schema) :: s.schemas } := by
  intro hs
  have hst : s.Extends
      { s with
        heap := s.heap.push (.validator ⟨schema.className, attributes⟩)
        schemas := (s.heap.next, schema) :: s.schemas } := by
    refine ⟨⟨by simp, fun a ha => ?_⟩, (extends_push s _).cells⟩
    rw [List.lookup_cons, beq_false_of_ne (Nat.ne_of_lt ha)]
  refine ⟨hs.later hst (fun a schema' ha hlookup => ?_) fun a portrait ha hcell => ?_, hst⟩
  · rw [List.lookup_cons] at hlookup
    by_cases hnext : a = s.heap.next
    · subst hnext
      rw [beq_self_eq_true] at hlookup
      obtain rfl := Option.some.inj hlookup
      exact ⟨attributes, s.heap.cell_push_next _, h.later hst (Nat.le_refl _)⟩
    · rw [beq_false_of_ne hnext] at hlookup
      cases (hs.lookup_of_le ha).symm.trans hlookup
  · obtain rfl : a = s.heap.next :=
      eq_of_cell_push ha (c := .validator ⟨schema.className, attributes⟩) (by rw [hcell]; nofun)
    exact ⟨schema, List.lookup_cons_self⟩

end Store

end Conform
