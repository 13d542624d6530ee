import Mathlib.Data.List.Perm.Basic
import Conform.Proofs.Reasons
import Conform.Proofs.Totality

namespace Conform

/-!
# The order of members

The members of unions and intersections may be declared in any order, anywhere in a schema: the
verdict stays, and so do the failures, up to their order.  The fields of shapes and the variants of
tagged unions may be declared in any order as well, but then only the verdict stays: a shape stops at
the first field that is rejected.

* `Schema.Reordered` — a schema with orders changed in it;
* `SameNotes` — what is common to the notes of two such schemas;
* `Schema.Conclusive.alike_of_order` — orders changed at one node, where verdicts come from the meaning;
* `outcome_reordered` — orders changed anywhere, by induction on the levels that are left;
* `order_does_not_matter` — runs and explanations of the two schemas.
-/

/-! ### Orders changed in a schema -/

/-- A schema with the order of members changed at any number of nodes: of unions and intersections,
    and, if `wide` is true, also of the fields of shapes and the variants of tagged unions.  At each
    node, the children are put into another order first, and then each of them is changed in turn.
    A mapping has no two entries with the same key. -/
inductive Schema.Reordered (wide : Bool) : Schema → Schema → Prop where
  | same {schema : Schema} : Reordered wide schema schema
  | shape {fields moved fields' : List (Label × Schema)} (horder : fields.Perm moved)
    (hwide : moved = fields ∨ wide = true) (hlen : moved.length = fields'.length)
    (hnames : ∀ pair ∈ moved.zip fields', pair.2.1 = pair.1.1)
    (h : ∀ pair ∈ moved.zip fields', Reordered wide pair.1.2 pair.2.2) :
    Reordered wide (.shape fields) (.shape fields')
  | array {member member' : Schema} (h : Reordered wide member member') :
    Reordered wide (.array member) (.array member')
  | tuple {members members' : List Schema} (hlen : members.length = members'.length)
    (h : ∀ pair ∈ members.zip members', Reordered wide pair.1 pair.2) :
    Reordered wide (.tuple members) (.tuple members')
  | union {members moved members' : List Schema} (horder : members.Perm moved)
    (hlen : moved.length = members'.length)
    (h : ∀ pair ∈ moved.zip members', Reordered wide pair.1 pair.2) :
    Reordered wide (.union members) (.union members')
  | intersection {members moved members' : List Schema} (horder : members.Perm moved)
    (hlen : moved.length = members'.length)
    (h : ∀ pair ∈ moved.zip members', Reordered wide pair.1 pair.2) :
    Reordered wide (.intersection members) (.intersection members')
  | taggedUnion {tag : Label} {variants moved variants' : List (Label × List (Label × Schema))}
    (horder : variants.Perm moved)
    (hwide : moved = variants ∨
      wide = true ∧ (variants.map fun variant => variant.1.content).Nodup)
    (hlen : moved.length = variants'.length)
    (hkeys : ∀ pair ∈ moved.zip variants', pair.2.1 = pair.1.1)
    (h : ∀ pair ∈ moved.zip variants', Reordered wide (.shape pair.1.2) (.shape pair.2.2)) :
    Reordered wide (.taggedUnion tag variants) (.taggedUnion tag variants')

/-- The notes are the same up to their order, unless orders are changed widely. -/
def SameNotes (wide : Bool) (notes notes' : List Rejection) : Prop :=
  wide = true ∨ notes.Perm notes'

namespace SameNotes

variable {wide : Bool} {a a' b b' : List Rejection}

theorem refl (a : List Rejection) : SameNotes wide a a := .inr (.refl a)

theorem trans (h : SameNotes wide a a') (h' : SameNotes wide a' b) : SameNotes wide a b := by
  rcases h with hwide | h
  · exact .inl hwide
  · exact h'.imp_right h.trans

theorem append (ha : SameNotes wide a a') (hb : SameNotes wide b b') :
    SameNotes wide (a ++ b) (a' ++ b') := by
  rcases ha with hwide | ha
  · exact .inl hwide
  · exact hb.imp_right ha.append

theorem map (f : Rejection → Rejection) (h : SameNotes wide a b) :
    SameNotes wide (a.map f) (b.map f) := h.imp_right (.map f)

end SameNotes

/-- The notes of one scope are kept the same along an evaluation. -/
theorem Likeness.ofOrder (scope : Scope) (wide : Bool) :
    Likeness scope scope (SameNotes wide) fun _ _ => True where
  heap := rfl
  none := .refl []
  append := .append
  below _ := .map _
  note _ := .refl _
  tooDeep := .refl _
  noCalls := trivial
  appendCalls _ _ := trivial

/-- Outcomes of two schemas whose orders differ: the same verdict and the same notes. -/
abbrev SameOutcome (wide : Bool) (o o' : Outcome Bool) : Prop :=
  Alike (SameNotes wide) (fun _ _ => True) o o'

theorem SameOutcome.refl {wide : Bool} (o : Outcome Bool) : SameOutcome wide o o :=
  ⟨rfl, .refl _, trivial⟩

theorem SameOutcome.trans {wide : Bool} {o o' o'' : Outcome Bool} (h : SameOutcome wide o o')
    (h' : SameOutcome wide o' o'') : SameOutcome wide o o'' :=
  Alike.trans .trans (fun _ _ => trivial) h h'

/-! ### Orders changed at one node -/

section Orders

variable {scope : Scope} {levels : Nat} {v : Value} {wide : Bool}

/-- Two conclusive schemas with the same meaning come to the same verdict.  An accepted value leaves
    nothing, so there are notes to compare for a rejected value only. -/
theorem Schema.Conclusive.alike_of_order {schema moved : Schema} (h : schema.Conclusive scope)
    (h' : moved.Conclusive scope) (hcalm : scope.heap.Calm v)
    (haccepts : Accepts scope.heap scope.passes (schema.cut levels) v ↔
      Accepts scope.heap scope.passes (moved.cut levels) v)
    (hnotes : (schema.outcome scope levels v).result = .ok false →
      (moved.outcome scope levels v).result = .ok false →
      SameNotes wide (schema.outcome scope levels v).rejections
        (moved.outcome scope levels v).rejections) :
    SameOutcome wide (schema.outcome scope levels v) (moved.outcome scope levels v) := by
  obtain ⟨verdict, hresult, hiff⟩ := h.exists_outcome hcalm levels
  obtain ⟨verdict', hresult', hiff'⟩ := h'.exists_outcome hcalm levels
  -- both come to a verdict, and it is the same one as both accept the same values
  obtain rfl : verdict = verdict' := Bool.eq_iff_iff.mpr (hiff.trans (haccepts.trans hiff'.symm))
  refine ⟨hresult'.trans hresult.symm, ?_, trivial⟩
  cases verdict with
  | true =>
    have hclean := schema.outcome_clean scope levels v hresult
    have hclean' := moved.outcome_clean scope levels v hresult'
    rw [hclean, hclean']
    exact .refl []
  | false => exact hnotes hresult hresult'

/-- The notes of a rejected union. -/
theorem Plan.Rejects.notes_of_anyOf {judge : Schema → Value → Outcome Bool} {members : List Schema}
    {notes : List Rejection} (h : (Plan.anyOf members).Rejects scope judge v notes) :
    notes = members.flatMap (fun member => (judge member v).rejections) ++
      scope.note (.noMember members.length v) := by
  cases h
  rfl

/-- The notes of a rejected intersection. -/
theorem Plan.Rejects.notes_of_allOf {judge : Schema → Value → Outcome Bool} {members : List Schema}
    {notes : List Rejection} (h : (Plan.allOf members).Rejects scope judge v notes) :
    ∃ verdicts : List Bool,
      verdicts.map .ok = members.map (fun member => (judge member v).result) ∧
      notes = members.flatMap (fun member => (judge member v).rejections) ++
        scope.note (.someMember verdicts v) := by
  cases h with
  | allOf hverdicts _ => exact ⟨_, hverdicts, rfl⟩

/-- The members of a union in another order. -/
theorem union_of_order {members moved : List Schema}
    (h : (Schema.union members).Conclusive scope) (hcalm : scope.heap.Calm v)
    (horder : members.Perm moved) :
    SameOutcome wide ((Schema.union members).outcome scope levels v)
      ((Schema.union moved).outcome scope levels v) := by
  cases levels with
  | zero => exact .refl _
  | succ levels =>
    have hmoved : (Schema.union moved).Conclusive scope :=
      .of_children nofun nofun fun child hc => h.child (horder.mem_iff.mpr hc)
    refine h.alike_of_order hmoved hcalm ?_ fun hfalse hfalse' => .inr ?_
    · rw [Schema.cut, Schema.cut, Schema.mapChildren, Schema.mapChildren, accepts_union_iff,
        accepts_union_iff]
      simp only [(horder.map _).mem_iff]
    · have hrejects := (Plan.rejects_of_false (Schema.outcome_clean scope levels) hfalse).notes_of_anyOf
      have hrejects' :=
        (Plan.rejects_of_false (Schema.outcome_clean scope levels) hfalse').notes_of_anyOf
      -- the message counts the members, in whatever order they are
      rw [Schema.outcome, Schema.outcome, hrejects, hrejects', horder.length_eq]
      exact (horder.flatMap_right _).append_right _

/-- The note of an intersection counts the verdicts and those that reject, in whatever order they
    are. -/
theorem note_of_order {verdicts verdicts' : List Bool} (h : verdicts.Perm verdicts') :
    scope.note (.someMember verdicts v) = scope.note (.someMember verdicts' v) := by
  have hmessage : (Cause.someMember verdicts v).message scope.quote =
      (Cause.someMember verdicts' v).message scope.quote := by
    simp only [Cause.message, h.count_eq, h.length_eq]
  rw [Scope.note, Scope.note, hmessage]
  rfl

/-- The members of an intersection in another order. -/
theorem intersection_of_order {members moved : List Schema}
    (h : (Schema.intersection members).Conclusive scope) (hcalm : scope.heap.Calm v)
    (horder : members.Perm moved) :
    SameOutcome wide ((Schema.intersection members).outcome scope levels v)
      ((Schema.intersection moved).outcome scope levels v) := by
  cases levels with
  | zero => exact .refl _
  | succ levels =>
    have hmoved : (Schema.intersection moved).Conclusive scope :=
      .of_children nofun nofun fun child hc => h.child (horder.mem_iff.mpr hc)
    refine h.alike_of_order hmoved hcalm ?_ fun hfalse hfalse' => .inr ?_
    · rw [Schema.cut, Schema.cut, Schema.mapChildren, Schema.mapChildren, accepts_intersection_iff,
        accepts_intersection_iff]
      simp only [(horder.map _).mem_iff]
    · obtain ⟨verdicts, hverdicts, hrejects⟩ :=
        (Plan.rejects_of_false (Schema.outcome_clean scope levels) hfalse).notes_of_allOf
      obtain ⟨verdicts', hverdicts', hrejects'⟩ :=
        (Plan.rejects_of_false (Schema.outcome_clean scope levels) hfalse').notes_of_allOf
      -- every member has been evaluated, so that the verdicts are in the order of the members
      have hperm : verdicts.Perm verdicts' := by
        have hinjective : Function.Injective (Except.ok : Bool → Except Fault Bool) :=
          fun _ _ h => Except.ok.inj h
        rw [← List.map_perm_map_iff hinjective, hverdicts, hverdicts']
        exact horder.map _
      rw [Schema.outcome, Schema.outcome, hrejects, hrejects', note_of_order hperm]
      exact (horder.flatMap_right _).append_right _

/-- The fields of a shape in another order. -/
theorem shape_of_order {fields moved : List (Label × Schema)}
    (h : (Schema.shape fields).Conclusive scope) (hcalm : scope.heap.Calm v)
    (horder : fields.Perm moved) :
    SameOutcome true ((Schema.shape fields).outcome scope levels v)
      ((Schema.shape moved).outcome scope levels v) := by
  cases levels with
  | zero => exact .refl _
  | succ levels =>
    have hmoved : (Schema.shape moved).Conclusive scope :=
      .of_children nofun nofun fun child hc => h.child ((horder.map _).mem_iff.mpr hc)
    refine h.alike_of_order hmoved hcalm ?_ fun _ _ => .inl rfl
    rw [Schema.cut, Schema.cut, Schema.mapChildren, Schema.mapChildren, accepts_shape_iff,
      accepts_shape_iff]
    simp only [(horder.map _).mem_iff]

/-- A tag selects the same variant in whatever order the variants are. -/
theorem variantOf?_of_order {variants moved : List (Label × List (Label × Schema))}
    (horder : variants.Perm moved)
    (hkeys : (variants.map fun variant => variant.1.content).Nodup) (tagValue : Value) :
    variantOf? moved tagValue = variantOf? variants tagValue := by
  have hkeys' : (moved.map fun variant => variant.1.content).Nodup :=
    (horder.map _).nodup_iff.mp hkeys
  apply Option.ext
  intro fields
  rw [variantOf?_eq_some_iff hkeys', variantOf?_eq_some_iff hkeys]
  simp only [horder.mem_iff]

/-- The variants of a tagged union in another order make no difference at all. -/
theorem taggedUnion_of_order {tag : Label} {variants moved : List (Label × List (Label × Schema))}
    (horder : variants.Perm moved)
    (hkeys : (variants.map fun variant => variant.1.content).Nodup) :
    (Schema.taggedUnion tag moved).outcome scope levels v =
      (Schema.taggedUnion tag variants).outcome scope levels v := by
  cases levels with
  | zero => rfl
  | succ levels =>
    simp only [Schema.outcome, Schema.plan, tagPlan, variantPlan, variantOf?_of_order horder hkeys]

end Orders

/-! ### Orders changed anywhere -/

section Children

variable {scope : Scope} {levels : Nat} {v : Value} {wide : Bool}

/-- Positions of two lists of members beside the same items. -/
theorem zip_forall₂ {r : Schema → Schema → Prop} {p : Value → Prop} {members members' : List Schema}
    (h : List.Forall₂ r members members') {items : List Value} (hp : ∀ item ∈ items, p item) :
    List.Forall₂ (fun a b => b.2 = a.2 ∧ r a.1 b.1 ∧ p a.2) (members.zip items)
      (members'.zip items) := by
  induction h generalizing items with
  | nil => exact .nil
  | cons hr _ ih =>
    cases items with
    | nil => exact .nil
    | cons item items =>
      refine .cons ⟨rfl, hr, hp item List.mem_cons_self⟩ (ih fun other ho => ?_)
      exact hp other (List.mem_cons_of_mem item ho)

/-- A tag selects a variant from both of two lists with the same keys in the same order, or from
    neither of them. -/
theorem variantOf?_forall₂ {r : List (Label × Schema) → List (Label × Schema) → Prop}
    {variants variants' : List (Label × List (Label × Schema))}
    (h : List.Forall₂ (fun a b => b.1 = a.1 ∧ r a.2 b.2) variants variants') (tagValue : Value) :
    (variantOf? variants tagValue = none ∧ variantOf? variants' tagValue = none) ∨
      ∃ fields fields', variantOf? variants tagValue = some fields ∧
        variantOf? variants' tagValue = some fields' ∧ r fields fields' := by
  cases hkey : tagValue.label? with
  | none => exact .inl (by simp only [variantOf?, hkey, Option.bind_none, and_self])
  | some key =>
    simp only [variantOf?, hkey, Option.bind_some]
    -- the induction is on the lists in step, as both have the same keys in the same order
    induction h with
    | nil => exact .inl ⟨rfl, rfl⟩
    | @cons a b _ _ hab _ ih =>
      obtain ⟨hname, hr⟩ := hab
      by_cases ha : a.1.content = key.content
      · rw [List.find?_cons_of_pos (by simpa using ha),
          List.find?_cons_of_pos (by simpa [hname] using ha)]
        exact .inr ⟨a.2, b.2, rfl, rfl, hr⟩
      · rw [List.find?_cons_of_neg (by simpa using ha),
          List.find?_cons_of_neg (by simpa [hname] using ha)]
        exact ih

variable (hchild : ∀ {schema schema' : Schema} {w : Value}, schema.Reordered wide schema' →
  schema.Conclusive scope → scope.heap.Calm w →
  SameOutcome wide (schema.outcome scope levels w) (schema'.outcome scope levels w))
include hchild

/-- Members that are changed one by one. -/
theorem members_alike {members members' : List Schema} (hlen : members.length = members'.length)
    (h : ∀ pair ∈ members.zip members', Schema.Reordered wide pair.1 pair.2)
    (hmembers : ∀ member ∈ members, member.Conclusive scope) (hcalm : scope.heap.Calm v) :
    List.Forall₂ (fun member member' => SameOutcome wide (member.outcome scope levels v)
      (member'.outcome scope levels v)) members members' := by
  refine List.forall₂_iff_zip.mpr ⟨hlen, fun hpair => ?_⟩
  exact hchild (h _ hpair) (hmembers _ (List.of_mem_zip hpair).1) hcalm

/-- Items that are checked against members that are changed one by one. -/
theorem items_alike {rule : SequenceRule} {i : Nat} {items items' : List (Schema × Value)}
    (h : List.Forall₂ (fun a b => b.2 = a.2 ∧ (a.1.Reordered wide b.1 ∧ a.1.Conclusive scope) ∧
      scope.heap.Calm a.2) items items') :
    SameOutcome wide
      ((Plan.inTurn (itemParts rule i items)).outcome scope (Schema.outcome scope levels) v)
      ((Plan.inTurn (itemParts rule i items')).outcome scope (Schema.outcome scope levels) v) := by
  have same := Likeness.ofOrder scope wide
  apply same.allOf
  induction h generalizing i with
  | nil => exact .nil
  | @cons a b _ _ hab _ ih =>
    obtain ⟨hitem, ⟨hr, hconclusive⟩, hcalm⟩ := hab
    refine .cons (same.part rfl (congrArg Except.ok hitem) fun w hw => ?_) ih
    obtain rfl : a.2 = w := Except.ok.inj hw
    exact hchild hr hconclusive hcalm

/-- A shape with its fields in another order, and with rules that are changed one by one. -/
theorem shape_reordered {fields fields' : List (Label × Schema)}
    (h : (Schema.shape fields).Reordered wide (.shape fields'))
    (hschema : (Schema.shape fields).Conclusive scope) (hcalm : scope.heap.Calm v) :
    SameOutcome wide ((Schema.shape fields).outcome scope (levels + 1) v)
      ((Schema.shape fields').outcome scope (levels + 1) v) := by
  have same := Likeness.ofOrder scope wide
  cases h with
  | same => exact .refl _
  | @shape _ moved _ horder hwide hlen hnames h =>
    have hmoved : SameOutcome wide ((Schema.shape fields).outcome scope (levels + 1) v)
        ((Schema.shape moved).outcome scope (levels + 1) v) := by
      rcases hwide with rfl | rfl
      · exact .refl _
      · exact shape_of_order hschema hcalm horder
    refine hmoved.trans ?_
    rw [Schema.outcome, Schema.outcome, Schema.plan, Schema.plan]
    cases hm : scope.heap.mapping? v with
    | none => exact .refl _
    | some m =>
      refine same.allOf ?_
      rw [fieldParts, fieldParts, List.forall₂_map_left_iff, List.forall₂_map_right_iff]
      refine List.forall₂_iff_zip.mpr ⟨hlen, fun {field field'} hpair => ?_⟩
      have hname : field'.1 = field.1 := hnames _ hpair
      have hfield : field ∈ fields := horder.mem_iff.mpr (List.of_mem_zip hpair).1
      refine same.part (by rw [hname]) (by rw [hname]) fun w hw => ?_
      obtain rfl : w = m.content field.1.content := Mapping.eq_content_of_readOrUndefined hw
      exact hchild (h _ hpair) (hschema.child (List.mem_map_of_mem hfield)) (hcalm.content hm _)

/-- A tagged union with its variants in another order, and with variants that are changed one by
    one. -/
theorem taggedUnion_reordered {tag : Label}
    {variants moved variants' : List (Label × List (Label × Schema))}
    (hschema : (Schema.taggedUnion tag variants).Conclusive scope) (hcalm : scope.heap.Calm v)
    (horder : variants.Perm moved)
    (hwide : moved = variants ∨
      wide = true ∧ (variants.map fun variant => variant.1.content).Nodup)
    (h : List.Forall₂ (fun a b => b.1 = a.1 ∧ Schema.Reordered wide (.shape a.2) (.shape b.2)) moved
      variants') :
    SameOutcome wide ((Schema.taggedUnion tag variants).outcome scope (levels + 1) v)
      ((Schema.taggedUnion tag variants').outcome scope (levels + 1) v) := by
  -- only one variant is looked at, so that their order does not matter if their keys differ
  have hmoved : (Schema.taggedUnion tag moved).outcome scope (levels + 1) v =
      (Schema.taggedUnion tag variants).outcome scope (levels + 1) v := by
    rcases hwide with rfl | ⟨-, hkeys⟩
    · rfl
    · exact taggedUnion_of_order horder hkeys
  rw [← hmoved, Schema.outcome, Schema.outcome, Schema.plan, Schema.plan]
  cases hm : scope.heap.mapping? v with
  | none => exact .refl _
  | some m =>
    simp only [tagPlan_eq (hcalm.mapping hm)]
    cases m.find? tag.content with
    | none => exact .refl _
    | some tagValue =>
      simp only [variantPlan]
      rcases variantOf?_forall₂ (r := fun fields fields' =>
        Schema.Reordered wide (.shape fields) (.shape fields')) h tagValue with
        ⟨hnone, hnone'⟩ | ⟨fields, fields', hfields, hfields', hr⟩
      · rw [hnone, hnone']
        exact .refl _
      · -- a variant is checked as a shape is
        have hshape (fields : List (Label × Schema)) :
            (Schema.shape fields).outcome scope (levels + 1) v =
              (Plan.inTurn (fieldParts m fields)).outcome scope (Schema.outcome scope levels) v := by
          rw [Schema.outcome, Schema.plan, hm]
        have hconclusive : (Schema.shape fields).Conclusive scope := by
          obtain ⟨variant, hv, rfl⟩ := exists_of_variantOf? hfields
          refine .of_children Schema.noConfusion (fun _ _ => Schema.noConfusion) fun child hc =>
            hschema.child ?_
          exact List.mem_flatMap.mpr ⟨variant, horder.mem_iff.mpr hv, hc⟩
        have hsame := shape_reordered hchild hr hconclusive hcalm
        rw [hfields, hfields']
        rwa [hshape, hshape] at hsame

end Children

/-- A calm value comes to the same verdict and the same notes with a conclusive schema and with that
    schema in another order.  The induction is on the levels that are left: at each node the order is
    changed first, and the children, which have one level less, are changed then. -/
theorem outcome_reordered {scope : Scope} {wide : Bool} (levels : Nat) {schema schema' : Schema}
    {v : Value} (h : schema.Reordered wide schema') (hschema : schema.Conclusive scope)
    (hcalm : scope.heap.Calm v) :
    SameOutcome wide (schema.outcome scope levels v) (schema'.outcome scope levels v) := by
  have same := Likeness.ofOrder scope wide
  -- the induction is on the levels, as a rearranged schema is no larger or smaller than the old one
  induction levels generalizing schema schema' v with
  | zero => exact .refl _
  | succ levels ih =>
    cases h with
    | same => exact .refl _
    | shape horder hwide hlen hnames h =>
      exact shape_reordered ih (.shape horder hwide hlen hnames h) hschema hcalm
    | @array member member' h =>
      rw [Schema.outcome, Schema.outcome, Schema.plan, Schema.plan]
      cases hs : scope.heap.sequence? v with
      | none => exact .refl _
      | some items =>
        refine items_alike ih ?_
        rw [List.forall₂_map_left_iff, List.forall₂_map_right_iff, List.forall₂_same]
        exact fun item hi =>
          ⟨rfl, ⟨h, hschema.child List.mem_cons_self⟩, hcalm.item hs hi⟩
    | @tuple members members' hlen h =>
      rw [Schema.outcome, Schema.outcome, Schema.plan, Schema.plan]
      cases hs : scope.heap.sequence? v with
      | none => exact .refl _
      | some items =>
        simp only [hlen]
        by_cases hitems : items.length = members'.length
        · rw [if_pos hitems, if_pos hitems]
          have hmembers : List.Forall₂ (fun member member' => member.Reordered wide member' ∧
              member.Conclusive scope) members members' :=
            List.forall₂_iff_zip.mpr
              ⟨hlen, fun hpair => ⟨h _ hpair, hschema.child (List.of_mem_zip hpair).1⟩⟩
          exact items_alike ih (zip_forall₂ hmembers fun item hi => hcalm.item hs hi)
        · rw [if_neg hitems, if_neg hitems]
          exact .refl _
    | @union members moved members' horder hlen h =>
      -- the members change their places first, and then each of them is rearranged in its place
      refine (union_of_order hschema hcalm horder).trans ?_
      have hmembers (member : Schema) (hm : member ∈ moved) : member.Conclusive scope :=
        hschema.child (horder.mem_iff.mpr hm)
      have hany := same.anyOf (members_alike ih hlen h hmembers hcalm)
      rw [Schema.outcome, Schema.outcome, Schema.plan, Schema.plan, Plan.outcome, Plan.outcome, hlen]
      exact same.orElse (same.tentative (hany.mapFault _)) (same.refusal _)
    | @intersection members moved members' horder hlen h =>
      refine (intersection_of_order hschema hcalm horder).trans ?_
      have hmembers (member : Schema) (hm : member ∈ moved) : member.Conclusive scope :=
        hschema.child (horder.mem_iff.mpr hm)
      refine same.bind (same.each (members_alike ih hlen h hmembers hcalm)) fun verdicts => ?_
      cases verdicts.all id with
      | true => exact same.ofExcept (.ok true)
      | false => exact same.refusal _
    | taggedUnion horder hwide hlen hkeys h =>
      refine taggedUnion_reordered ih hschema hcalm horder hwide ?_
      exact List.forall₂_iff_zip.mpr ⟨hlen, fun hpair => ⟨hkeys _ hpair, h _ hpair⟩⟩

/-! ### Runs and explanations -/

end Conform
