import Conform.Proofs.Meaning

namespace Conform

/-!
# Positions

Where an evaluation gets to: the nodes of a schema beside the parts of a value that they are
evaluated on, with the way into the value and the nesting depth.

* `Heap.follow` — the part of a value at the end of a trail;
* `Schema.Step` — from a node and a value to a child and a part, one level deeper;
* `Schema.step_of_content`, `Schema.refusal_of_part` — what the parts of a plan are, and what they
  raise;
* `Schema.At` — the nodes and parts that are reached by steps.
-/

/-- The part of a value at the end of a trail: a field that is not there has the value
    `undefined`, and an index lies within the sequence. -/
def Heap.follow (heap : Heap) : Value → List Segment → Option Value
  | v, [] => some v
  | v, .field name :: rest => do
    let m ← heap.mapping? v
    heap.follow (m.content name.content) rest
  | v, .index i :: rest => do
    let items ← heap.sequence? v
    let w ← items[i]?
    heap.follow w rest

theorem Heap.follow_append (heap : Heap) (v : Value) (s t : List Segment) :
    heap.follow v (s ++ t) = (heap.follow v s).bind (heap.follow · t) := by
  induction s generalizing v with
  | nil => rfl
  | cons segment rest ih =>
    cases segment with
    | field name =>
      cases hm : heap.mapping? v with
      | none => simp [follow, hm]
      | some m => simp [follow, hm, ih]
    | index i =>
      cases hs : heap.sequence? v with
      | none => simp [follow, hs]
      | some items => cases hi : items[i]? <;> simp [follow, hs, hi, ih]

namespace Schema

/-! ### Steps -/

/-- One level deeper: a child of a node, with the part of the value that it is evaluated on, and
    the way to that part. -/
inductive Step (heap : Heap) : Schema → Value → List Segment → Schema → Value → Prop where
  | field {fields : List (Label × Schema)} {field : Label × Schema} {v : Value} {m : Mapping}
    (hm : heap.mapping? v = some m) (hf : field ∈ fields) :
    Step heap (.shape fields) v [.field field.1] field.2 (m.content field.1.content)
  | element {member : Schema} {v w : Value} {items : List Value} {i : Nat}
    (hs : heap.sequence? v = some items) (hi : items[i]? = some w) :
    Step heap (.array member) v [.index i] member w
  | position {members : List Schema} {member : Schema} {v w : Value} {items : List Value} {i : Nat}
    (hs : heap.sequence? v = some items) (hm : members[i]? = some member)
    (hi : items[i]? = some w) :
    Step heap (.tuple members) v [.index i] member w
  | alternative {members : List Schema} {member : Schema} {v : Value} (hm : member ∈ members) :
    Step heap (.union members) v [] member v
  | conjunct {members : List Schema} {member : Schema} {v : Value} (hm : member ∈ members) :
    Step heap (.intersection members) v [] member v
  | variant {tag : Label} {variants : List (Label × List (Label × Schema))} {v tagValue : Value}
    {m : Mapping} {fields : List (Label × Schema)} {field : Label × Schema}
    (hm : heap.mapping? v = some m) (htag : m.find? tag.content = some tagValue)
    (hvariant : variantOf? variants tagValue = some fields) (hf : field ∈ fields) :
    Step heap (.taggedUnion tag variants) v [.field field.1] field.2 (m.content field.1.content)

variable {heap : Heap} {schema child : Schema} {v w : Value} {trail : List Segment}

theorem Step.mem_children (h : Step heap schema v trail child w) : child ∈ schema.children := by
  cases h with
  | field hm hf => exact List.mem_map_of_mem hf
  | element hs hi => exact List.mem_cons_self
  | position hs hm hi => exact List.mem_of_getElem? hm
  | alternative hm => exact hm
  | conjunct hm => exact hm
  | variant hm htag hvariant hf =>
    obtain ⟨variant, hv, rfl⟩ := exists_of_variantOf? hvariant
    exact mem_children_taggedUnion hv hf

theorem Step.follow_eq (h : Step heap schema v trail child w) : heap.follow v trail = some w := by
  cases h with
  | field hm hf => simp [Heap.follow, hm]
  | element hs hi => simp [Heap.follow, hs, hi]
  | position hs hm hi => simp [Heap.follow, hs, hi]
  | alternative hm => rfl
  | conjunct hm => rfl
  | variant hm htag hvariant hf => simp [Heap.follow, hm]

theorem Step.throughout {q : Mapping → Prop} (h : Step heap schema v trail child w)
    (hv : heap.Throughout q v) : heap.Throughout q w := by
  cases h with
  | field hm hf => exact hv.content hm _
  | element hs hi => exact hv.item hs (List.mem_of_getElem? hi)
  | position hs hm hi => exact hv.item hs (List.mem_of_getElem? hi)
  | alternative hm => exact hv
  | conjunct hm => exact hv
  | variant hm htag hvariant hf => exact hv.content hm _

theorem Step.calm (h : Step heap schema v trail child w) (hcalm : heap.Calm v) : heap.Calm w :=
  h.throughout hcalm

/-! ### Plans and steps -/

theorem mem_itemParts {rule : SequenceRule} {items : List (Schema × Value)} {part : Part}
    (h : part ∈ itemParts rule 0 items) :
    ∃ i member w, items[i]? = some (member, w) ∧ part = ⟨.item rule i, member, .ok w⟩ := by
  obtain ⟨⟨⟨member, w⟩, i⟩, hi, rfl⟩ := List.mem_map.mp h
  exact ⟨i, member, w, List.mem_zipIdx_iff_getElem?.mp hi, rfl⟩

theorem exists_of_tagPlan_inTurn {tag : Label}
    {variants : List (Label × List (Label × Schema))} {m : Mapping} {parts : List Part}
    (h : tagPlan tag variants m = .inTurn parts) :
    ∃ tagValue fields, m.find? tag.content = some tagValue ∧
      variantOf? variants tagValue = some fields ∧ fieldParts m fields = parts := by
  rw [tagPlan] at h
  rcases hhas : m.has tag.content with fault | _ | _ <;> simp only [hhas] at h
  · cases h
  · cases h
  · cases hread : m.read tag.content with
    | error fault => simp [hread] at h
    | ok tagValue =>
      simp only [hread, variantPlan] at h
      cases hvariant : variantOf? variants tagValue with
      | none => simp [hvariant] at h
      | some fields =>
        simp only [hvariant, Plan.inTurn.injEq] at h
        exact ⟨tagValue, fields, Mapping.find?_of_read hread, hvariant, h⟩

/-- A part that a plan looks into is a field of a mapping, or an item with a content that is at
    hand; once it is read, it is one step away. -/
theorem step_or_field_of_part {parts : List Part} {part : Part}
    (hplan : schema.plan heap v = .inTurn parts) (hpart : part ∈ parts) :
    (∃ w, part.content = .ok w ∧ Step heap schema v [part.place.segment] part.rule w) ∨
      ∃ m key, heap.mapping? v = some m ∧ part.content = m.readOrUndefined key ∧
        Step heap schema v [part.place.segment] part.rule (m.content key) := by
  cases schema with
  | shape fields =>
    rw [plan] at hplan
    cases hm : heap.mapping? v with
    | none => simp [hm] at hplan
    | some m =>
      obtain rfl : fieldParts m fields = parts := by simpa [hm] using hplan
      obtain ⟨field, hf, rfl⟩ := List.mem_map.mp hpart
      exact .inr ⟨m, _, rfl, rfl, .field hm hf⟩
  | array member =>
    rw [plan] at hplan
    cases hs : heap.sequence? v with
    | none => simp [hs] at hplan
    | some items =>
      obtain rfl : itemParts _ _ _ = parts := by simpa [hs] using hplan
      obtain ⟨i, rule, w, hi, rfl⟩ := mem_itemParts hpart
      -- every item is paired with the one member
      rw [List.getElem?_map, Option.map_eq_some_iff] at hi
      obtain ⟨item, hi, hpair⟩ := hi
      cases hpair
      exact .inl ⟨w, rfl, .element hs hi⟩
  | tuple members =>
    rw [plan] at hplan
    cases hs : heap.sequence? v with
    | none => simp [hs] at hplan
    | some items =>
      by_cases hlen : items.length = members.length
      · obtain rfl : itemParts _ _ _ = parts := by simpa [hs, hlen] using hplan
        obtain ⟨i, rule, w, hi, rfl⟩ := mem_itemParts hpart
        obtain ⟨hm, hi⟩ := List.getElem?_zip_eq_some.mp hi
        exact .inl ⟨w, rfl, .position hs hm hi⟩
      · simp [hs, hlen] at hplan
  | taggedUnion tag variants =>
    rw [plan] at hplan
    cases hm : heap.mapping? v with
    | none => simp [hm] at hplan
    | some m =>
      simp only [hm] at hplan
      obtain ⟨tagValue, fields, htag, hvariant, rfl⟩ := exists_of_tagPlan_inTurn hplan
      obtain ⟨field, hf, rfl⟩ := List.mem_map.mp hpart
      exact .inr ⟨m, _, rfl, rfl, .variant hm htag hvariant hf⟩
  | union members | intersection members | predicate test name | primitive kind | bare
  | literal constant canonical =>
    cases hplan

/-- A part that is read is one step away. -/
theorem step_of_content {parts : List Part} {part : Part}
    (hplan : schema.plan heap v = .inTurn parts) (hpart : part ∈ parts)
    (hw : part.content = .ok w) : Step heap schema v [part.place.segment] part.rule w := by
  rcases step_or_field_of_part hplan hpart with ⟨x, hx, hstep⟩ | ⟨m, key, -, hread, hstep⟩
  · obtain rfl : w = x := by simpa [hw] using hx
    exact hstep
  · obtain rfl : w = m.content key := Mapping.eq_content_of_readOrUndefined (hread.symm.trans hw)
    exact hstep

/-- A part that a plan looks into refuses to be read only for the faults of its mapping. -/
theorem refusal_of_part {p : Fault → Prop} {parts : List Part} {part : Part} {fault : Fault}
    (hv : heap.RefusesOnly p v) (hplan : schema.plan heap v = .inTurn parts) (hpart : part ∈ parts)
    (hfault : part.content = .error fault) : p fault := by
  rcases step_or_field_of_part hplan hpart with ⟨x, hx, -⟩ | ⟨m, key, hm, hread, -⟩
  · rw [hx] at hfault
    cases hfault
  · exact (hv.mapping hm).of_readOrUndefined (hread.symm.trans hfault)

/-- A node without a rule raises a fault of its own; all other faults are those of look-ups. -/
theorem eq_bare_or_refusal_of_plan_raise {p : Fault → Prop} {fault : Fault}
    (hv : ∀ m, heap.mapping? v = some m → m.RefusesOnly p)
    (hplan : schema.plan heap v = .raise fault) :
    (schema = .bare ∧ fault = .typeMismatch "Unknown validator node: Validator") ∨ p fault := by
  cases schema with
  | bare =>
    rw [plan] at hplan
    injection hplan with h
    exact .inl ⟨rfl, h.symm⟩
  | taggedUnion tag variants =>
    rw [plan] at hplan
    cases hm : heap.mapping? v with
    | none => simp [hm] at hplan
    | some m =>
      -- the two look-ups of the tag
      simp only [hm, tagPlan] at hplan
      rcases hhas : m.has tag.content with raised | _ | _ <;> simp only [hhas] at hplan
      · cases hplan
        exact .inr ((hv m hm).of_has hhas)
      · cases hplan
      · cases hread : m.read tag.content with
        | error raised =>
          simp only [hread] at hplan
          cases hplan
          exact .inr ((hv m hm).of_read hhas hread)
        | ok tagValue =>
          simp only [hread, variantPlan] at hplan
          split at hplan <;> cases hplan
  | _ =>
    simp only [plan] at hplan
    repeat' split at hplan
    all_goals cases hplan

/-! ### Positions -/

/-- The nodes and the parts that are reached by steps, with the way into the value and the
    nesting depth.  The root has depth 0. -/
inductive At (heap : Heap) : Schema → Value → List Segment → Nat → Schema → Value → Prop where
  | root {schema : Schema} {v : Value} : At heap schema v [] 0 schema v
  | step {schema child node : Schema} {v w x : Value} {s t : List Segment} {d : Nat}
    (hs : Step heap schema v s child w) (hat : At heap child w t d node x) :
    At heap schema v (s ++ t) (d + 1) node x

theorem At.follow_eq {node : Schema} {x : Value} {d : Nat}
    (h : At heap schema v trail d node x) : heap.follow v trail = some x := by
  induction h with
  | root => rfl
  | step hs _ ih => rw [Heap.follow_append, hs.follow_eq, Option.bind_some, ih]

end Schema

end Conform
