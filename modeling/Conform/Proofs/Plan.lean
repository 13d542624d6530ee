import Conform.Proofs.Outcome

namespace Conform

/-!
# Plans

One level of an evaluation: what a node does with a value, with the verdicts of its children
left open.  Nine kinds of nodes come down to seven plans, and a whole evaluation is the plan of
the root, carried out with the evaluations of the children at one level less.

* `Schema.children`, `Schema.Contains` — the tree of nodes;
* `Part` — a part of a value, with its place and the rule for it;
* `Plan`, `Schema.plan` — what a node does with a value;
* `Plan.outcome` — a plan carried out, given the outcomes of the children;
* `Schema.outcome` — an evaluation with a number of levels left, apart from any context;
* `Schema.outcome_clean` — a value that is accepted leaves no rejection behind.
-/

/-! ### The tree of nodes -/

namespace Schema

/-- The nodes directly below a node.  The schema inside of a test is not one of them. -/
def children : Schema → List Schema
  | .shape fields => fields.map Prod.snd
  | .array member => [member]
  | .tuple members | .union members | .intersection members => members
  | .taggedUnion _ variants => variants.flatMap fun variant => variant.2.map Prod.snd
  | .primitive _ | .literal _ _ | .predicate _ _ | .bare => []

theorem mem_children_taggedUnion {tag : Label} {variants : List (Label × List (Label × Schema))}
    {variant : Label × List (Label × Schema)} {field : Label × Schema} (hv : variant ∈ variants)
    (hf : field ∈ variant.2) : field.2 ∈ (taggedUnion tag variants).children :=
  List.mem_flatMap.mpr ⟨variant, hv, List.mem_map_of_mem hf⟩

/-- A node occurs in a schema. -/
inductive Contains : Schema → Schema → Prop where
  | self {schema : Schema} : Contains schema schema
  | inside {schema child node : Schema} (h : child ∈ schema.children) (hc : Contains child node) :
    Contains schema node

/-- Every predicate of a schema satisfies a property. -/
def EveryTest (schema : Schema) (p : Test → Value → Prop) : Prop :=
  ∀ test name, schema.Contains (.predicate test name) → p test name

theorem EveryTest.child {schema node : Schema} {p : Test → Value → Prop} (h : schema.EveryTest p)
    (hc : node ∈ schema.children) : node.EveryTest p :=
  fun test name ht => h test name (.inside hc ht)

theorem EveryTest.of_children {schema : Schema} {p : Test → Value → Prop}
    (hself : ∀ test name, schema = .predicate test name → p test name)
    (h : ∀ child ∈ schema.children, child.EveryTest p) : schema.EveryTest p := by
  intro test name ht
  cases ht with
  | self => exact hself test name rfl
  | inside hc ht => exact h _ hc test name ht

/-- The name of every predicate is a string. -/
def NamesAreStrings (schema : Schema) : Prop :=
  schema.EveryTest fun _ name => name.label?.isSome

/-- A child is smaller than its parent. -/
theorem sizeOf_child {schema child : Schema} (h : child ∈ schema.children) :
    sizeOf child < sizeOf schema := by
  -- a rule is smaller than the list of fields that it stands in
  have entry_lt {fields : List (Label × Schema)} (hc : child ∈ fields.map Prod.snd) :
      sizeOf child < sizeOf fields := by
    obtain ⟨⟨name, rule⟩, hf, rfl⟩ := List.mem_map.mp hc
    have hlt := List.sizeOf_lt_of_mem hf
    simp only [Prod.mk.sizeOf_spec] at hlt ⊢
    omega
  cases schema with
  | shape fields =>
    have := entry_lt h
    simp only [shape.sizeOf_spec]
    omega
  | array member =>
    obtain rfl := List.mem_singleton.mp h
    simp only [array.sizeOf_spec]
    omega
  | tuple members | union members | intersection members =>
    have hlt : sizeOf child < sizeOf members := List.sizeOf_lt_of_mem h
    simp only [tuple.sizeOf_spec, union.sizeOf_spec, intersection.sizeOf_spec]
    omega
  | taggedUnion tag variants =>
    obtain ⟨⟨key, fields⟩, hv, hc⟩ := List.mem_flatMap.mp h
    have hfields : sizeOf child < sizeOf fields := entry_lt hc
    have hlt := List.sizeOf_lt_of_mem hv
    simp only [Prod.mk.sizeOf_spec] at hlt
    simp only [taggedUnion.sizeOf_spec]
    omega
  | primitive kind | literal constant canonical | predicate test name | bare =>
    exact absurd h List.not_mem_nil

/-- The test of a predicate is smaller than every schema in which the predicate occurs. -/
theorem Contains.sizeOf_test {schema : Schema} {test : Test} {name : Value}
    (h : schema.Contains (.predicate test name)) : sizeOf test < sizeOf schema := by
  generalize hnode : Schema.predicate test name = node at h
  -- down the way to the predicate, every node is smaller than the one before
  induction h with
  | self =>
    subst hnode
    simp only [predicate.sizeOf_spec]
    omega
  | inside hc _ ih => exact Nat.lt_trans (ih hnode) (sizeOf_child hc)

end Schema

/-! ### Parts of a value -/

/-- The place of a part: a field, or an index of a sequence. -/
inductive Place where
  | field (name : Label)
  | item (rule : SequenceRule) (i : Nat)
  deriving DecidableEq, Inhabited

namespace Place

/-- The step to a place. -/
def segment : Place → Segment
  | .field name => .field name
  | .item _ i => .index i

/-- What there is against the content of a place when its rule rejects it. -/
def cause (w : Value) : Place → Cause
  | .field name => .field name w
  | .item rule _ => .element rule w

end Place

/-- A part of a value, which may refuse to be read, with its place and the rule for it. -/
structure Part where
  place : Place
  rule : Schema
  content : Except Fault Value

/-- The parts that declared fields name; a key that is not there has the content `undefined`. -/
def fieldParts (m : Mapping) (fields : List (Label × Schema)) : List Part :=
  fields.map fun field => ⟨.field field.1, field.2, m.readOrUndefined field.1.content⟩

/-- Items with their rules as parts, counted from index `i` on. -/
def itemParts (rule : SequenceRule) (i : Nat) (items : List (Schema × Value)) : List Part :=
  (items.zipIdx i).map fun item => ⟨.item rule item.2, item.1.1, .ok item.1.2⟩

/-- The fields of the variant that a tag value selects. -/
def variantOf? (variants : List (Label × List (Label × Schema))) (tagValue : Value) :
    Option (List (Label × Schema)) :=
  tagValue.label?.bind fun key =>
    (variants.find? fun variant => variant.1.content = key.content).map Prod.snd

theorem exists_of_variantOf? {variants : List (Label × List (Label × Schema))} {tagValue : Value}
    {fields : List (Label × Schema)} (h : variantOf? variants tagValue = some fields) :
    ∃ variant ∈ variants, variant.2 = fields := by
  obtain ⟨key, -, hkey⟩ := Option.bind_eq_some_iff.mp h
  obtain ⟨variant, hfind, rfl⟩ := Option.map_eq_some_iff.mp hkey
  exact ⟨variant, List.mem_of_find?_eq_some hfind, rfl⟩

/-- Where no two variants have the same key, a tag value selects the variant with its own text as
    the key. -/
theorem variantOf?_eq_some_iff {variants : List (Label × List (Label × Schema))} {tagValue : Value}
    {fields : List (Label × Schema)}
    (hkeys : (variants.map fun variant => variant.1.content).Nodup) :
    variantOf? variants tagValue = some fields ↔
      ∃ variant ∈ variants, variant.2 = fields ∧ tagValue.text? = some variant.1.content := by
  cases hkey : tagValue.label? with
  | none => simp [variantOf?, Value.text?, hkey]
  | some key =>
    simp only [variantOf?, Value.text?, hkey, Option.bind_some, Option.map_some, Option.some.injEq]
    induction variants with
    | nil => simp
    | cons first rest ih =>
      obtain ⟨hfirst, hrest⟩ := List.nodup_cons.mp hkeys
      by_cases hname : first.1.content = key.content
      · -- the key of the first variant is that of no other
        have hne (variant : Label × List (Label × Schema)) (hv : variant ∈ rest) :
            key.content ≠ variant.1.content := fun h =>
          hfirst (List.mem_map.mpr ⟨variant, hv, h.symm.trans hname.symm⟩)
        rw [List.find?_cons_of_pos (by simpa using hname)]
        constructor
        · intro h
          exact ⟨first, List.mem_cons_self, Option.some.inj h, hname.symm⟩
        · rintro ⟨variant, hv, rfl, h⟩
          rcases List.mem_cons.mp hv with rfl | hv
          · rfl
          · exact absurd h (hne variant hv)
      · rw [List.find?_cons_of_neg (by simpa using hname), ih hrest]
        have hfirst : key.content ≠ first.1.content := fun h => hname h.symm
        simp [hfirst]

/-! ### Plans -/

/-- What a node does with a value: answer, raise a fault or reject at once; check parts up to
    the first rejection; check the value by members up to the first acceptance, or by all of
    them; or call a test. -/
inductive Plan where
  | answer (verdict : Bool)
  | raise (fault : Fault)
  | refuse (cause : Cause)
  | inTurn (parts : List Part)
  | anyOf (members : List Schema)
  | allOf (members : List Schema)
  | call (test : Test) (name : Value)

/-- The plan for a mapping with a tag value. -/
def variantPlan (tag : Label) (variants : List (Label × List (Label × Schema))) (m : Mapping)
    (tagValue : Value) : Plan :=
  match variantOf? variants tagValue with
  | none => .refuse (.noVariant tag tagValue)
  | some fields => .inTurn (fieldParts m fields)

/-- The plan for a mapping whose tag is looked up. -/
def tagPlan (tag : Label) (variants : List (Label × List (Label × Schema))) (m : Mapping) : Plan :=
  match m.has tag.content with
  | .error fault => .raise fault
  | .ok false => .refuse (.noTag tag)
  | .ok true =>
    match m.read tag.content with
    | .error fault => .raise fault
    | .ok tagValue => variantPlan tag variants m tagValue

/-- What a node does with a value. -/
def Schema.plan (heap : Heap) (schema : Schema) (v : Value) : Plan :=
  match schema with
  | .primitive kind => .answer (kind.accepts v)
  | .literal _ canonical => .answer (heap.canonical? v == some canonical)
  | .shape fields =>
    match heap.mapping? v with
    | none => .refuse (.noObject v)
    | some m => .inTurn (fieldParts m fields)
  | .array member =>
    match heap.sequence? v with
    | none => .refuse (.noSequence .array v)
    | some items => .inTurn (itemParts .array 0 (items.map fun item => (member, item)))
  | .tuple members =>
    match heap.sequence? v with
    | none => .refuse (.noSequence .tuple v)
    | some items =>
      if items.length = members.length then .inTurn (itemParts .tuple 0 (members.zip items))
      else .refuse (.wrongLength members.length items.length)
  | .union members => .anyOf members
  | .intersection members => .allOf members
  | .taggedUnion tag variants =>
    match heap.mapping? v with
    | none => .refuse (.noTag tag)
    | some m => tagPlan tag variants m
  | .predicate test name => .call test name
  | .bare => .raise (.typeMismatch "Unknown validator node: Validator")

/-! ### What a plan refers to -/

namespace Plan

/-- The schemas that a plan refers to. -/
def rules : Plan → List Schema
  | .inTurn parts => parts.map Part.rule
  | .anyOf members | .allOf members => members
  | .answer _ | .raise _ | .refuse _ | .call _ _ => []

end Plan

theorem rules_fieldParts (m : Mapping) (fields : List (Label × Schema)) :
    (fieldParts m fields).map Part.rule = fields.map Prod.snd := by
  rw [fieldParts, List.map_map]
  rfl

theorem rules_itemParts (rule : SequenceRule) (i : Nat) (items : List (Schema × Value)) :
    (itemParts rule i items).map Part.rule = items.map Prod.fst := by
  calc (itemParts rule i items).map Part.rule
    _ = ((items.zipIdx i).map Prod.fst).map Prod.fst := by
      rw [itemParts, List.map_map, List.map_map]
      rfl
    _ = items.map Prod.fst := by rw [List.zipIdx_map_fst]

theorem rules_tagPlan_subset (tag : Label) (variants : List (Label × List (Label × Schema)))
    (m : Mapping) :
    (tagPlan tag variants m).rules ⊆ (Schema.taggedUnion tag variants).children := by
  rw [tagPlan]
  rcases m.has tag.content with fault | _ | _
  · exact List.nil_subset _
  · exact List.nil_subset _
  · cases m.read tag.content with
    | error fault => exact List.nil_subset _
    | ok tagValue =>
      simp only [variantPlan]
      cases hvariant : variantOf? variants tagValue with
      | none => exact List.nil_subset _
      | some fields =>
        -- the fields of one variant are children of the whole tagged union
        obtain ⟨variant, hv, rfl⟩ := exists_of_variantOf? hvariant
        intro rule hrule
        simp only [Plan.rules, rules_fieldParts] at hrule
        obtain ⟨field, hf, rfl⟩ := List.mem_map.mp hrule
        exact Schema.mem_children_taggedUnion hv hf

/-- A plan refers to children of its node only. -/
theorem Schema.rules_plan_subset (heap : Heap) (schema : Schema) (v : Value) :
    (schema.plan heap v).rules ⊆ schema.children := by
  cases schema with
  | shape fields =>
    rw [plan]
    cases heap.mapping? v with
    | none => exact List.nil_subset _
    | some m =>
      simp only [Plan.rules, rules_fieldParts]
      exact List.Subset.refl _
  | array member =>
    rw [plan]
    cases heap.sequence? v with
    | none => exact List.nil_subset _
    | some items =>
      intro rule hrule
      simp only [Plan.rules, rules_itemParts, List.map_map] at hrule
      obtain ⟨item, -, rfl⟩ := List.mem_map.mp hrule
      exact List.mem_cons_self
  | tuple members =>
    rw [plan]
    cases heap.sequence? v with
    | none => exact List.nil_subset _
    | some items =>
      by_cases hlen : items.length = members.length
      · intro rule hrule
        simp only [hlen, if_true, Plan.rules, rules_itemParts] at hrule
        obtain ⟨item, hi, rfl⟩ := List.mem_map.mp hrule
        exact (List.of_mem_zip hi).1
      · simp only [hlen, if_false]
        exact List.nil_subset _
  | taggedUnion tag variants =>
    rw [plan]
    cases heap.mapping? v with
    | none => exact List.nil_subset _
    | some m => exact rules_tagPlan_subset tag variants m
  | union members | intersection members => exact List.Subset.refl _
  | primitive kind | literal constant canonical | predicate test name | bare =>
    exact List.nil_subset _

/-- Three of the plans belong to one kind of node each. -/
theorem Schema.eq_of_plan {heap : Heap} {schema : Schema} {v : Value} {plan : Plan}
    (h : schema.plan heap v = plan) :
    match plan with
    | .anyOf members => schema = .union members
    | .allOf members => schema = .intersection members
    | .call test name => schema = .predicate test name
    | _ => True := by
  cases schema with
  | union members | intersection members | predicate test name =>
    subst h
    rfl
  | _ =>
    -- all other nodes have plans of the other four kinds, on every branch
    simp only [Schema.plan, tagPlan, variantPlan] at h
    repeat' split at h
    all_goals
      subst h
      trivial

/-! ### Plans carried out -/

/-- The outcome of a call of a test. -/
def Test.outcome (scope : Scope) (v : Value) (test : Test) : Outcome Bool :=
  match callTest scope test v Context.initial with
  | .ok verdict ctx => ⟨.ok verdict, [], ctx.calls⟩
  | .error fault ctx => ⟨.error fault, [], ctx.calls⟩

/-- A test takes no notes in the list of its caller. -/
theorem Test.outcome_rejections (scope : Scope) (v : Value) (test : Test) :
    (test.outcome scope v).rejections = [] := by
  rw [outcome]
  cases callTest scope test v Context.initial <;> rfl

/-- The outcome of a fault of a test.  The note needs the name of the predicate and the text of the
    fault, which may refuse to be shown. -/
def faultOutcome (scope : Scope) (name : Value) (fault : Fault) : Outcome Bool :=
  if fault.isFatal then .ofExcept (.error fault)
  else if scope.collect then do
    .refusal scope (← .ofExcept (scope.heap.raisedCause name fault))
  else pure false

/-- A fault can be shown if the name of the predicate and the text of the fault can. -/
theorem Heap.raisedCause_eq_ok_iff {heap : Heap} {name : Value} {fault : Fault} {cause : Cause} :
    heap.raisedCause name fault = .ok cause ↔
      ∃ shown sentence, heap.inline name = .ok shown ∧ heap.faultText fault = .ok sentence ∧
        cause = .raised shown fault.kind.name sentence := by
  rw [raisedCause]
  cases heap.inline name <;> cases heap.faultText fault <;>
    simp [bind, Except.bind, pure, Except.pure, eq_comm]

theorem Heap.raisedCause_of_label {heap : Heap} {name : Value} {label : Label} {fault : Fault}
    {sentence : Text} (hname : name.label? = some label)
    (hsentence : heap.faultText fault = .ok sentence) :
    heap.raisedCause name fault = .ok (.raised label.inline fault.kind.name sentence) :=
  raisedCause_eq_ok_iff.mpr ⟨label.inline, sentence, by rw [inline, hname], hsentence, rfl⟩

/-- The refusal has the cause that is shown, where it has to be. -/
theorem faultOutcome_of_cause {scope : Scope} {name : Value} {fault : Fault} {cause : Cause}
    (hcause : scope.collect = true → scope.heap.raisedCause name fault = .ok cause)
    (hfatal : fault.isFatal = false) :
    faultOutcome scope name fault = .refusal scope cause := by
  rw [faultOutcome, hfatal]
  by_cases hcollect : scope.collect = true
  · simp only [hcollect, hcause hcollect, Bool.false_eq_true, if_false, if_true]
    exact Outcome.ofExcept_ok_bind _ _
  · simp only [hcollect, Bool.false_eq_true, if_false, Outcome.refusal, Scope.note]
    rfl

/-- The fault of a test is never an acceptance. -/
theorem faultOutcome_result_ne (scope : Scope) (name : Value) (fault : Fault) :
    (faultOutcome scope name fault).result ≠ .ok true := by
  rw [faultOutcome]
  by_cases hfatal : fault.isFatal = true
  · rw [if_pos hfatal]
    exact nofun
  · by_cases hcollect : scope.collect = true
    · rw [if_neg hfatal, if_pos hcollect]
      -- the cause may refuse to be shown, but then there is no verdict at all
      cases scope.heap.raisedCause name fault <;> exact nofun
    · rw [if_neg hfatal, if_neg hcollect]
      exact nofun

/-- The outcome for a part, given that of its rule. -/
def Part.outcome (scope : Scope) (judge : Schema → Value → Outcome Bool) (part : Part) :
    Outcome Bool := do
  let w ← Outcome.ofExcept part.content
  ((judge part.rule w).orElse (.refusal scope (part.place.cause w))).below [part.place.segment]

/-- A plan carried out, given the outcomes of the children. -/
def Plan.outcome (scope : Scope) (judge : Schema → Value → Outcome Bool) (v : Value) :
    Plan → Outcome Bool
  | .answer verdict => pure verdict
  | .raise fault => .ofExcept (.error fault)
  | .refuse cause => .refusal scope cause
  | .inTurn parts => .allOf (Part.outcome scope judge) parts
  -- the members are drawn from an iteration, which has a say in the faults that pass through it
  | .anyOf members =>
    (((Outcome.anyOf (judge · v) members).mapFault Fault.throughIteration).tentative).orElse
      (.refusal scope (.noMember members.length v))
  | .allOf members => do
    let verdicts ← Outcome.each (judge · v) members
    if verdicts.all id then pure true else .refusal scope (.someMember verdicts v)
  | .call test name => (test.outcome scope v).recover (faultOutcome scope name)

/-- An evaluation with a number of levels left: without any, the node is rejected unseen. -/
def Schema.outcome (scope : Scope) : Nat → Schema → Value → Outcome Bool
  | 0, _, _ => .refusal scope (.tooDeep scope.maxDepth)
  | levels + 1, schema, v => (schema.plan scope.heap v).outcome scope (outcome scope levels) v

/-- The outcome at the root: an exhausted stack is one more rejection there. -/
def Outcome.rooted (scope : Scope) (o : Outcome Bool) : Outcome Bool :=
  o.recover fun fault =>
    if fault.kind = .exhausted then .refusal scope .noStack else .ofExcept (.error fault)

/-! ### Accepted values -/

namespace Outcome

/-- A value that is accepted leaves no rejection behind. -/
def Clean (o : Outcome Bool) : Prop := o.result = .ok true → o.rejections = []

variable {α : Type} {o o' : Outcome Bool} {scope : Scope}

theorem Clean.of_result_ne (h : o.result ≠ .ok true) : o.Clean := fun htrue => absurd htrue h

theorem refusal_clean (cause : Cause) : (refusal scope cause).Clean :=
  .of_result_ne (by simp [refusal])

theorem ofExcept_clean (result : Except Fault Bool) : (ofExcept result).Clean := fun _ => rfl

theorem Clean.below (h : o.Clean) (trail : List Segment) : (o.below trail).Clean := by
  intro htrue
  rw [Outcome.below, h htrue, List.map_nil]

theorem tentative_clean (o : Outcome Bool) : o.tentative.Clean := by
  intro htrue
  rcases hr : o.result with fault | _ | _ <;> simp only [tentative, hr] at htrue ⊢
  cases htrue

/-- What comes after a rejection and is a rejection itself, is never accepted. -/
theorem Clean.orElse_refusal (h : o.Clean) (cause : Cause) :
    (o.orElse (refusal scope cause)).Clean := by
  rcases hr : o.result with fault | _ | _
  · rw [orElse_of_error _ hr]
    exact h
  · rw [orElse_of_false _ hr]
    exact .of_result_ne (by simp [refusal, after])
  · rw [orElse_of_true _ hr]
    exact h

theorem Clean.andThen (h : o.Clean) (h' : o'.Clean) : (o.andThen o').Clean := by
  rcases hr : o.result with fault | _ | _
  · rw [andThen_of_error _ hr]
    exact h
  · rw [andThen_of_false _ hr]
    exact h
  · rw [andThen_of_true _ hr]
    intro htrue
    rw [Outcome.after, h hr, h' htrue, List.nil_append]

theorem allOf_clean {check : α → Outcome Bool} {l : List α} (h : ∀ a ∈ l, (check a).Clean) :
    (allOf check l).Clean := by
  induction l with
  | nil => exact ofExcept_clean (.ok true)
  | cons a rest ih =>
    exact (h a List.mem_cons_self).andThen (ih fun b hb => h b (List.mem_cons_of_mem a hb))

/-- Verdicts that all accept leave no rejection behind. -/
theorem each_clean {check : α → Outcome Bool} {l : List α} (h : ∀ a ∈ l, (check a).Clean)
    {verdicts : List Bool} (hr : (each check l).result = .ok verdicts) (hall : verdicts.all id) :
    (each check l).rejections = [] := by
  obtain ⟨hverdicts, hrejections⟩ := each_of_ok hr
  rw [hrejections, List.flatMap_eq_nil_iff]
  intro a ha
  apply h a ha
  obtain ⟨verdict, hv, hresult⟩ := exists_verdict_of_mem hverdicts ha
  have htrue : verdict = true := List.all_eq_true.mp hall verdict hv
  rw [hresult, htrue]

end Outcome

theorem Part.outcome_clean {scope : Scope} {judge : Schema → Value → Outcome Bool}
    (h : ∀ rule w, (judge rule w).Clean) (part : Part) : (part.outcome scope judge).Clean := by
  rw [outcome]
  cases part.content with
  | error fault => exact .of_result_ne nofun
  | ok w =>
    rw [Outcome.ofExcept_ok_bind]
    exact ((h part.rule w).orElse_refusal _).below _

theorem Plan.outcome_clean {scope : Scope} {judge : Schema → Value → Outcome Bool} {v : Value}
    (h : ∀ rule w, (judge rule w).Clean) (plan : Plan) : (plan.outcome scope judge v).Clean := by
  cases plan with
  | answer verdict => exact Outcome.ofExcept_clean (.ok verdict)
  | raise fault => exact Outcome.ofExcept_clean (.error fault)
  | refuse cause => exact Outcome.refusal_clean cause
  | inTurn parts => exact Outcome.allOf_clean fun part _ => part.outcome_clean h
  | anyOf members => exact (Outcome.tentative_clean _).orElse_refusal _
  | allOf members =>
    show (Outcome.each _ members >>= _).Clean
    cases hr : (Outcome.each (judge · v) members).result with
    | error fault =>
      rw [Outcome.bind_of_error hr]
      exact .of_result_ne nofun
    | ok verdicts =>
      rw [Outcome.bind_of_ok hr]
      cases hall : verdicts.all id with
      | false => exact .of_result_ne nofun
      | true =>
        -- every member accepts, so none of them leaves anything
        intro _
        simp [Outcome.after, Outcome.each_clean (fun member _ => h member v) hr hall]
  | call test name =>
    show ((test.outcome scope v).recover _).Clean
    cases hr : (test.outcome scope v).result with
    | ok verdict =>
      simp only [Outcome.recover, hr]
      exact fun _ => test.outcome_rejections scope v
    | error fault =>
      simp only [Outcome.recover, hr]
      exact .of_result_ne (faultOutcome_result_ne scope name fault)

/-- An accepted value leaves no rejection behind. -/
theorem Schema.outcome_clean (scope : Scope) (levels : Nat) (schema : Schema) (v : Value) :
    (schema.outcome scope levels v).Clean := by
  induction levels generalizing schema v with
  | zero => exact Outcome.refusal_clean _
  | succ levels ih => exact Plan.outcome_clean ih _

end Conform
