import Mathlib.Data.List.Nodup
import Conform.Proofs.Positions

namespace Conform

/-!
# Traversal

The way of an evaluation through a schema and a value, from left to right, as a list of the
predicates that are met.  Only the meaning of the children is consulted on the way: a union goes on
until a member accepts, an intersection goes on to the end, every other node goes on until a child
rejects.

* `Branch`, `Schema.at?` — occurrences of nodes in a schema;
* `Pairing`, `Schema.pairings` — the children of a node beside the parts of a value that they are
  paired with;
* `upToFirst`, `Schema.StopsAt` — how many of them are visited;
* `Visit`, `Schema.visits` — the predicates that are met, with their occurrences and the positions
  of their arguments;
* `Schema.visit_spec`, `Schema.nodup_visits` — what a visit stands for, and that no occurrence is
  visited twice at one position.
-/

variable {α β : Type}

/-! ### Occurrences of nodes -/

/-- One step down in a schema: to a child, or to a field of a variant. -/
inductive Branch where
  | child (i : Nat)
  | variant (j i : Nat)
  deriving DecidableEq, Inhabited

namespace Schema

/-- The node one step down. -/
def child? : Schema → Branch → Option Schema
  | .shape fields, .child i => (fields[i]?).map Prod.snd
  | .array member, .child 0 => some member
  | .tuple members, .child i | .union members, .child i | .intersection members, .child i =>
    members[i]?
  | .taggedUnion _ variants, .variant j i => do
    let variant ← variants[j]?
    (variant.2[i]?).map Prod.snd
  | _, _ => none

/-- The node at the end of some steps down. -/
def at? : Schema → List Branch → Option Schema
  | schema, [] => some schema
  | schema, branch :: rest => do (← schema.child? branch).at? rest

end Schema

/-! ### Pairings -/

/-- A child of a node beside the part of a value that it is paired with, with the step down in the
    schema and the way into the value. -/
structure Pairing where
  branch : Branch
  way : List Segment
  rule : Schema
  part : Value

/-- Declared fields beside the contents of a mapping; a key that is not there has the content
    `undefined`. -/
def fieldPairings (branch : Nat → Branch) (m : Mapping) (fields : List (Label × Schema)) :
    List Pairing :=
  fields.zipIdx.map fun (field, i) =>
    ⟨branch i, [.field field.1], field.2, m.content field.1.content⟩

/-- The variant that a tag value selects, with its number. -/
def selected? (variants : List (Label × List (Label × Schema))) (tagValue : Value) :
    Option (List (Label × Schema) × Nat) :=
  tagValue.label?.bind fun key =>
    (variants.zipIdx.find? fun variant => variant.1.1.content = key.content).map fun variant =>
      (variant.1.2, variant.2)

/-- The children of a node beside the parts of a value, in the order of the declaration.  There are
    none where the value is of the wrong kind or has the wrong length, and none where the tag is not
    there or selects no variant. -/
def Schema.pairings (heap : Heap) (schema : Schema) (v : Value) : List Pairing :=
  match schema with
  | .shape fields =>
    match heap.mapping? v with
    | none => []
    | some m => fieldPairings .child m fields
  | .array member =>
    match heap.sequence? v with
    | none => []
    | some items => items.zipIdx.map fun (item, i) => ⟨.child 0, [.index i], member, item⟩
  | .tuple members =>
    match heap.sequence? v with
    | none => []
    | some items =>
      if items.length = members.length then
        (members.zip items).zipIdx.map fun ((member, item), i) =>
          ⟨.child i, [.index i], member, item⟩
      else []
  | .union members | .intersection members =>
    members.zipIdx.map fun (member, i) => ⟨.child i, [], member, v⟩
  | .taggedUnion tag variants =>
    match heap.mapping? v with
    | none => []
    | some m =>
      match (m.find? tag.content).bind (selected? variants) with
      | none => []
      | some (fields, j) => fieldPairings (.variant j) m fields
  | .primitive _ | .literal _ _ | .predicate _ _ | .bare => []

/-- Every item of a list is paired with the rule for members. -/
theorem Schema.pairings_array {heap : Heap} {v : Value} {items : List Value}
    (hs : heap.sequence? v = some items) (member : Schema) :
    (Schema.array member).pairings heap v =
      (items.map fun item => (member, item)).zipIdx.map fun item =>
        ⟨.child 0, [.index item.2], item.1.1, item.1.2⟩ := by
  simp only [pairings, hs]
  rw [List.zipIdx_map, List.map_map]
  rfl

/-! ### The traversal -/

/-- Everything up to and including the first with a property; everything, if none has it. -/
def upToFirst (p : α → Prop) [DecidablePred p] : List α → List α
  | [] => []
  | a :: rest => if p a then [a] else a :: upToFirst p rest

/-- The visit of a predicate: its occurrence in the schema, the way to its argument, its test, and
    the argument. -/
structure Visit where
  branches : List Branch
  trail : List Segment
  test : Test
  argument : Value

/-- A visit as it is seen from one node further up. -/
def Visit.below (p : Pairing) (x : Visit) : Visit :=
  { x with branches := p.branch :: x.branches, trail := p.way ++ x.trail }

/-- The occurrence of the predicate, and the position of its argument. -/
def Visit.place (x : Visit) : List Branch × List Segment := (x.branches, x.trail)

namespace Schema

/-- Whether a node goes no further after a child that accepts its part or does not. -/
def StopsAt (accepted : Prop) : Schema → Prop
  | .union _ => accepted
  | .intersection _ => False
  | _ => ¬ accepted

/-- A predicate is met where it stands. -/
def met : Schema → Value → List Visit
  | .predicate test _, v => [⟨[], [], test, v⟩]
  | _, _ => []

open Classical in
/-- The predicates that are met with a number of levels left, in order.  Without any level nothing
    is met, and a child without any level left does not accept. -/
noncomputable def visits (heap : Heap) (passes : Test → Value → Prop) :
    Nat → Schema → Value → List Visit
  | 0, _, _ => []
  | levels + 1, schema, v =>
    let visited := upToFirst
      (fun p => schema.StopsAt (Accepts heap passes (p.rule.cut levels) p.part))
      (schema.pairings heap v)
    schema.met v ++
      visited.flatMap fun p => (visits heap passes levels p.rule p.part).map (Visit.below p)

end Schema

/-! ### What a visit stands for -/

theorem isPrefix_upToFirst {p : α → Prop} {_ : DecidablePred p} (l : List α) :
    upToFirst p l <+: l := by
  induction l with
  | nil => exact List.prefix_rfl
  | cons a rest ih =>
    rw [upToFirst]
    split
    · exact List.prefix_iff_eq_append.mpr rfl
    · exact List.prefix_cons_inj a |>.mpr ih

section Selection

variable {variants : List (Label × List (Label × Schema))} {tagValue : Value}

/-- The variant that is selected, apart from its number. -/
theorem map_selected? :
    (selected? variants tagValue).map Prod.fst = variantOf? variants tagValue := by
  cases hkey : tagValue.label? with
  | none => simp [selected?, variantOf?, hkey]
  | some key =>
    have hfind : variants.find? (fun variant => variant.1.content = key.content) =
        (variants.zipIdx.find? fun variant => variant.1.1.content = key.content).map Prod.fst := by
      conv_lhs => rw [← List.zipIdx_map_fst 0 variants, List.find?_map]
      rfl
    simp only [selected?, variantOf?, hkey, Option.bind_some, hfind, Option.map_map]
    rfl

theorem getElem?_of_selected? {fields : List (Label × Schema)} {j : Nat}
    (h : selected? variants tagValue = some (fields, j)) :
    ∃ name, variants[j]? = some (name, fields) := by
  obtain ⟨key, -, h⟩ := Option.bind_eq_some_iff.mp h
  obtain ⟨⟨⟨name, fields'⟩, j'⟩, hfind, hsame⟩ := Option.map_eq_some_iff.mp h
  obtain ⟨rfl, rfl⟩ := Prod.mk.inj hsame
  exact ⟨name, List.mem_zipIdx_iff_getElem?.mp (List.mem_of_find?_eq_some hfind)⟩

end Selection

section Pairings

variable {heap : Heap} {schema : Schema} {v : Value} {p : Pairing}

theorem mem_fieldPairings {branch : Nat → Branch} {m : Mapping} {fields : List (Label × Schema)}
    (h : p ∈ fieldPairings branch m fields) :
    ∃ i field, fields[i]? = some field ∧
      p = ⟨branch i, [.field field.1], field.2, m.content field.1.content⟩ := by
  obtain ⟨⟨field, i⟩, hi, rfl⟩ := List.mem_map.mp h
  exact ⟨i, field, List.mem_zipIdx_iff_getElem?.mp hi, rfl⟩

/-- A pairing is one step down in the schema, and the step that an evaluation takes in the value. -/
theorem Schema.step_of_pairing (h : p ∈ schema.pairings heap v) :
    schema.child? p.branch = some p.rule ∧ Step heap schema v p.way p.rule p.part := by
  cases schema with
  | shape fields =>
    rw [pairings] at h
    cases hm : heap.mapping? v with
    | none => simp [hm] at h
    | some m =>
      simp only [hm] at h
      obtain ⟨i, field, hfield, rfl⟩ := mem_fieldPairings h
      exact ⟨by rw [child?, hfield]; rfl, .field hm (List.mem_of_getElem? hfield)⟩
  | array member =>
    rw [pairings] at h
    cases hs : heap.sequence? v with
    | none => simp [hs] at h
    | some items =>
      simp only [hs] at h
      obtain ⟨⟨item, i⟩, hi, rfl⟩ := List.mem_map.mp h
      exact ⟨rfl, .element hs (List.mem_zipIdx_iff_getElem?.mp hi)⟩
  | tuple members =>
    rw [pairings] at h
    cases hs : heap.sequence? v with
    | none => simp [hs] at h
    | some items =>
      by_cases hlen : items.length = members.length
      · simp only [hs, hlen, if_true] at h
        obtain ⟨⟨⟨member, item⟩, i⟩, hi, rfl⟩ := List.mem_map.mp h
        obtain ⟨hmember, hitem⟩ := List.getElem?_zip_eq_some.mp (List.mem_zipIdx_iff_getElem?.mp hi)
        exact ⟨hmember, .position hs hmember hitem⟩
      · simp [hs, hlen] at h
  | union members =>
    obtain ⟨⟨member, i⟩, hi, rfl⟩ := List.mem_map.mp h
    have hmember := List.mem_zipIdx_iff_getElem?.mp hi
    exact ⟨hmember, .alternative (List.mem_of_getElem? hmember)⟩
  | intersection members =>
    obtain ⟨⟨member, i⟩, hi, rfl⟩ := List.mem_map.mp h
    have hmember := List.mem_zipIdx_iff_getElem?.mp hi
    exact ⟨hmember, .conjunct (List.mem_of_getElem? hmember)⟩
  | taggedUnion tag variants =>
    rw [pairings] at h
    cases hm : heap.mapping? v with
    | none => simp [hm] at h
    | some m =>
      cases hselected : (m.find? tag.content).bind (selected? variants) with
      | none => simp [hm, hselected] at h
      | some variant =>
        simp only [hm, hselected] at h
        obtain ⟨i, field, hfield, rfl⟩ := mem_fieldPairings h
        obtain ⟨tagValue, htag, hvariant⟩ := Option.bind_eq_some_iff.mp hselected
        obtain ⟨name, hname⟩ := getElem?_of_selected? hvariant
        -- the position of the variant in the list names the branch, its key the step
        have hof : variantOf? variants tagValue = some variant.1 := by
          rw [← map_selected?, hvariant, Option.map_some]
        refine ⟨?_, .variant hm htag hof (List.mem_of_getElem? hfield)⟩
        simp only [child?, hname, Option.bind_eq_bind, Option.bind_some, hfield, Option.map_some]
  | primitive kind | literal constant canonical | predicate test name | bare => cases h

end Pairings

section Visits

variable {heap : Heap} {passes : Test → Value → Prop} {levels : Nat} {schema : Schema} {v : Value}
  {x : Visit}

namespace Schema

theorem mem_visits_succ (h : x ∈ schema.visits heap passes (levels + 1) v) :
    (∃ test name, schema = .predicate test name ∧ x = ⟨[], [], test, v⟩) ∨
      ∃ p ∈ schema.pairings heap v,
        ∃ y ∈ p.rule.visits heap passes levels p.part, x = y.below p := by
  rw [visits] at h
  rcases List.mem_append.mp h with h | h
  · cases schema with
    | predicate test name => exact .inl ⟨test, name, rfl, List.mem_singleton.mp h⟩
    | _ => cases h
  · obtain ⟨p, hp, hx⟩ := List.mem_flatMap.mp h
    obtain ⟨y, hy, rfl⟩ := List.mem_map.mp hx
    exact .inr ⟨p, (isPrefix_upToFirst _).subset hp, y, hy, rfl⟩

/-- A visit is of a predicate that occurs in the schema, with the part of the value at its position
    as the argument, and it lies within the levels that there are. -/
theorem visit_spec (h : x ∈ schema.visits heap passes levels v) :
    (∃ name, schema.at? x.branches = some (.predicate x.test name)) ∧
      heap.follow v x.trail = some x.argument ∧ x.branches.length < levels := by
  induction levels generalizing schema v x with
  | zero => cases h
  | succ levels ih =>
    obtain ⟨test, name, rfl, rfl⟩ | ⟨p, hp, y, hy, rfl⟩ := mem_visits_succ h
    · exact ⟨⟨name, rfl⟩, rfl, Nat.succ_pos levels⟩
    · obtain ⟨hchild, hstep⟩ := step_of_pairing hp
      obtain ⟨⟨name, hat⟩, hfollow, hlength⟩ := ih hy
      refine ⟨⟨name, ?_⟩, ?_, Nat.succ_lt_succ hlength⟩
      · simp only [Visit.below, at?, hchild, Option.bind_eq_bind, Option.bind_some, hat]
      · simp only [Visit.below, Heap.follow_append, hstep.follow_eq, Option.bind_some, hfollow]

end Schema

/-! ### No visit is made twice -/

/-- Entries have distinct numbers. -/
theorem pairwise_zipIdx (l : List α) : l.zipIdx.Pairwise fun a b => a.2 ≠ b.2 := by
  have hnodup : (l.zipIdx.map Prod.snd).Nodup := by
    rw [List.zipIdx_map_snd]
    exact List.nodup_range'
  exact List.pairwise_map.mp hnodup

/-- Two pairings that differ in the step down, or in ways of the same length. -/
def Pairing.Apart (p q : Pairing) : Prop :=
  p.branch ≠ q.branch ∨ p.way.length = q.way.length ∧ p.way ≠ q.way

/-- What is visited below pairings that are apart, has other occurrences or other positions. -/
theorem Pairing.Apart.place_below_ne {p q : Pairing} (h : p.Apart q) (x y : Visit) :
    (x.below p).place ≠ (y.below q).place := by
  intro heq
  obtain ⟨hbranches, htrail⟩ := Prod.mk.inj heq
  rcases h with hbranch | ⟨hlength, hway⟩
  · exact hbranch (List.cons.inj hbranches).1
  · exact hway (List.append_inj htrail hlength).1

/-- Below one pairing, visits are at different places if they were so before. -/
theorem Visit.place_of_place_below {p : Pairing} {x y : Visit}
    (h : (x.below p).place = (y.below p).place) : x.place = y.place := by
  obtain ⟨hbranches, htrail⟩ := Prod.mk.inj h
  exact Prod.ext (List.cons.inj hbranches).2 (List.append_cancel_left htrail)

theorem pairwise_fieldPairings {branch : Nat → Branch} (hbranch : Function.Injective branch)
    (m : Mapping) (fields : List (Label × Schema)) :
    (fieldPairings branch m fields).Pairwise Pairing.Apart :=
  List.pairwise_map.mpr ((pairwise_zipIdx fields).imp fun h => .inl fun heq => h (hbranch heq))

namespace Schema

/-- The children of a node differ in the step down; those of an array, which is one child beside
    every item, differ in the way. -/
theorem pairwise_pairings (heap : Heap) (schema : Schema) (v : Value) :
    (schema.pairings heap v).Pairwise Pairing.Apart := by
  have hchild : Function.Injective Branch.child := fun _ _ h => Branch.child.inj h
  -- items of an array differ by their index, everything else by the child
  cases schema with
  | shape fields =>
    rw [pairings]
    cases heap.mapping? v with
    | none => exact .nil
    | some m => exact pairwise_fieldPairings hchild m fields
  | array member =>
    rw [pairings]
    cases heap.sequence? v with
    | none => exact .nil
    | some items =>
      refine List.pairwise_map.mpr ((pairwise_zipIdx items).imp fun h => .inr ⟨rfl, fun heq => ?_⟩)
      exact h (Segment.index.inj (List.cons.inj heq).1)
  | tuple members =>
    rw [pairings]
    cases heap.sequence? v with
    | none => exact .nil
    | some items =>
      by_cases hlen : items.length = members.length
      · simp only [hlen, if_true]
        exact List.pairwise_map.mpr
          ((pairwise_zipIdx _).imp fun h => .inl fun heq => h (hchild heq))
      · simp only [hlen, if_false]
        exact .nil
  | union members | intersection members =>
    exact List.pairwise_map.mpr
      ((pairwise_zipIdx members).imp fun h => .inl fun heq => h (hchild heq))
  | taggedUnion tag variants =>
    rw [pairings]
    cases heap.mapping? v with
    | none => exact .nil
    | some m =>
      cases hselected : (m.find? tag.content).bind (selected? variants) with
      | none => simp only [hselected, List.Pairwise.nil]
      | some variant =>
        simp only [hselected]
        exact pairwise_fieldPairings (fun _ _ h => (Branch.variant.inj h).2) m variant.1
  | primitive kind | literal constant canonical | predicate test name | bare => exact .nil

/-- No occurrence of a predicate is visited twice at one position. -/
theorem nodup_visits (heap : Heap) (passes : Test → Value → Prop) (levels : Nat) (schema : Schema)
    (v : Value) : ((schema.visits heap passes levels v).map Visit.place).Nodup := by
  induction levels generalizing schema v with
  | zero => exact .nil
  | succ levels ih =>
    -- places stay apart below one child by the induction, and below two children by the first step
    have hbelow (p : Pairing) :
        (((p.rule.visits heap passes levels p.part).map (Visit.below p)).map Visit.place).Nodup := by
      rw [List.map_map, List.Nodup, List.pairwise_map]
      exact (List.pairwise_map.mp (ih p.rule p.part)).imp fun hne heq =>
        hne (Visit.place_of_place_below heq)
    have hchildren (l : List Pairing) (hl : l.Pairwise Pairing.Apart) :
        ((l.flatMap fun p => (p.rule.visits heap passes levels p.part).map (Visit.below p)).map
          Visit.place).Nodup := by
      rw [List.map_flatMap, List.nodup_flatMap]
      refine ⟨fun p _ => hbelow p, hl.imp fun {p q} hpq => ?_⟩
      intro place hp hq
      simp only [List.map_map, List.mem_map] at hp hq
      obtain ⟨x, -, rfl⟩ := hp
      obtain ⟨y, -, heq⟩ := hq
      exact hpq.place_below_ne x y heq.symm
    have hapart := pairwise_pairings heap schema v
    rw [visits]
    cases schema with
    | predicate test name => exact List.nodup_singleton _
    | _ => exact hchildren _ (hapart.sublist (isPrefix_upToFirst _).sublist)

end Schema

end Visits

end Conform
