import Conform.Proofs.TopLevel
import Conform.Proofs.Traversal

namespace Conform

/-!
# The order of calls

The tests that an evaluation calls are those of the traversal, in its order.  One rule for every
way through a list of checks says how far it goes; from these, one level follows by the kind of
node, and all levels by induction.

* `Test.innerCalls`, `Visit.calls` — the calls that one visit makes;
* `Outcome.Logs` — an outcome is a verdict about a statement, with some calls on the way to it;
* `Outcome.calls_allOf`, `Outcome.calls_anyOf`, `Outcome.calls_each` — how far checks go;
* `Schema.plan_calls` — the calls of one level;
* `Schema.outcome_calls` — the calls of an evaluation are those of the traversal;
* `run_calls_along_traversal` — and so are those of a run.
-/

variable {α β : Type}

/-! ### The calls of a visit -/

/-- What is called inside of a test: nothing that is seen of a function of the caller; for a
    validator, the calls of one more top-level call, which collects nothing. -/
def Test.innerCalls (scope : Scope) (w : Value) : Test → List Call
  | .plain _ _ => []
  | .validating _ schema =>
    match evaluateRoot { scope with collect := false } schema w with
    | .ok _ ctx | .error _ ctx => ctx.calls

/-- The call of the test, and what is called inside of it. -/
def Visit.calls (scope : Scope) (x : Visit) : List Call :=
  ⟨x.test, x.argument⟩ :: x.test.innerCalls scope x.argument

@[simp] theorem Visit.calls_below (scope : Scope) (p : Pairing) (x : Visit) :
    (x.below p).calls scope = x.calls scope := rfl

theorem Test.outcome_calls (scope : Scope) (test : Test) (v : Value) :
    (test.outcome scope v).calls = ⟨test, v⟩ :: test.innerCalls scope v := by
  cases test with
  | plain origin answer => rw [outcome_plain, innerCalls]
  | validating name schema =>
    rw [outcome_validating, innerCalls, evaluateRoot_eq]
    cases hr : (schema.rootOutcome { scope with collect := false } v).result with
    | ok verdict => rw [Outcome.onto_of_ok hr, Outcome.settle_initial]
    | error fault => rw [Outcome.onto_of_error hr, Outcome.settle_initial]

/-! ### How far checks go -/

/-- An outcome is a verdict about a statement, with some calls on the way to it. -/
structure Outcome.Logs (o : Outcome Bool) (p : Prop) (calls : List Call) : Prop where
  verdict : ∃ verdict, o.result = .ok verdict ∧ (verdict = true ↔ p)
  calls_eq : o.calls = calls

theorem upToFirst_never (l : List α) {p : α → Prop} {_ : DecidablePred p} (h : ∀ a, ¬ p a) :
    upToFirst p l = l := by
  induction l with
  | nil => rfl
  | cons a rest ih => rw [upToFirst, if_neg (h a), ih]

namespace Outcome

section Checks

variable {check : α → Outcome Bool} {l : List α} {l' : List β} {holds : β → Prop}
  {calls : β → List Call}
  (h : List.Forall₂ (fun a b => (check a).Logs (holds b) (calls b)) l l')
include h

/-- Checks up to the first rejection. -/
theorem calls_allOf {_ : DecidablePred fun b => ¬ holds b} :
    (allOf check l).calls = (upToFirst (fun b => ¬ holds b) l').flatMap calls := by
  induction h with
  | nil => rfl
  | @cons a b rest rest' hab _ ih =>
    obtain ⟨⟨verdict, hr, hiff⟩, hcalls⟩ := hab
    rw [allOf, upToFirst]
    cases verdict with
    | true =>
      have hholds : ¬ ¬ holds b := not_not.mpr (hiff.mp rfl)
      rw [andThen_of_true _ hr, if_neg hholds, List.flatMap_cons, ← hcalls, ← ih]
      rfl
    | false =>
      have hnot : ¬ holds b := fun hb => Bool.noConfusion (hiff.mpr hb)
      rw [andThen_of_false _ hr, if_pos hnot, List.flatMap_singleton, hcalls]

/-- Checks up to the first acceptance. -/
theorem calls_anyOf {_ : DecidablePred holds} :
    (anyOf check l).calls = (upToFirst holds l').flatMap calls := by
  induction h with
  | nil => rfl
  | @cons a b rest rest' hab _ ih =>
    obtain ⟨⟨verdict, hr, hiff⟩, hcalls⟩ := hab
    rw [anyOf, upToFirst]
    cases verdict with
    | true => rw [orElse_of_true _ hr, if_pos (hiff.mp rfl), List.flatMap_singleton, hcalls]
    | false =>
      have hnot : ¬ holds b := fun hb => Bool.noConfusion (hiff.mpr hb)
      rw [orElse_of_false _ hr, if_neg hnot, List.flatMap_cons, ← hcalls, ← ih]
      rfl

/-- Checks to the end. -/
theorem calls_each : (each check l).calls = l'.flatMap calls := by
  induction h with
  | nil => rfl
  | @cons a b rest rest' hab _ ih =>
    obtain ⟨⟨verdict, hr, -⟩, hcalls⟩ := hab
    rw [each, bind_of_ok hr, List.flatMap_cons, ← hcalls, ← ih]
    cases hrest : (each check rest).result with
    | ok verdicts =>
      rw [bind_of_ok hrest]
      simp [after]
    | error fault =>
      rw [bind_of_error hrest]
      rfl

end Checks

/-! ### What adds no calls -/

variable {o : Outcome Bool} {scope : Scope}

theorem calls_tentative : o.tentative.calls = o.calls := by
  rcases hr : o.result with fault | _ | _ <;> simp only [tentative, hr]

theorem calls_recover {handle : Fault → Outcome Bool} (h : ∀ fault, (handle fault).calls = []) :
    (o.recover handle).calls = o.calls := by
  rw [recover]
  cases o.result with
  | ok verdict => rfl
  | error fault => simp only [after, h, List.append_nil]

theorem calls_bind_of_silent {x : Outcome α} {next : α → Outcome Bool}
    (h : ∀ a, (next a).calls = []) : (x >>= next).calls = x.calls := by
  cases hx : x.result with
  | ok a => rw [bind_of_ok hx, after, h, List.append_nil]
  | error fault => rw [bind_of_error hx]

theorem calls_orElse_refusal (cause : Cause) : (o.orElse (refusal scope cause)).calls = o.calls :=
  calls_bind_of_silent fun verdict => by cases verdict <;> rfl

/-- A rejection of the part that is noted as well. -/
theorem Logs.orElse_refusal {p : Prop} {calls : List Call} (h : o.Logs p calls) (cause : Cause) :
    (o.orElse (refusal scope cause)).Logs p calls := by
  obtain ⟨⟨verdict, hr, hiff⟩, hcalls⟩ := h
  refine ⟨⟨verdict, ?_, hiff⟩, (calls_orElse_refusal cause).trans hcalls⟩
  cases verdict with
  | true => rw [orElse_of_true _ hr, hr]
  | false =>
    rw [orElse_of_false _ hr]
    rfl

end Outcome

/-- To note the fault of a test is to call nothing. -/
theorem calls_faultOutcome (scope : Scope) (name : Value) (fault : Fault) :
    (faultOutcome scope name fault).calls = [] := by
  rw [faultOutcome]
  by_cases hfatal : fault.isFatal = true
  · rw [if_pos hfatal]
    rfl
  · by_cases hcollect : scope.collect = true
    · rw [if_neg hfatal, if_pos hcollect, Outcome.calls_bind_of_silent fun _ => rfl]
      rfl
    · rw [if_neg hfatal, if_neg hcollect]
      rfl

/-! ### One level -/

section Levels

variable {scope : Scope} {judge : Schema → Value → Outcome Bool} {holds : Pairing → Prop}
  {calls : Pairing → List Call}

theorem Part.outcome_logs {part : Part} {w : Value} {p : Prop} {calls : List Call}
    (hw : part.content = .ok w) (h : (judge part.rule w).Logs p calls) :
    (part.outcome scope judge).Logs p calls := by
  rw [outcome, hw, Outcome.ofExcept_ok_bind]
  exact ⟨(h.orElse_refusal _).verdict, (h.orElse_refusal _).calls_eq⟩

/-- Fields are visited as they are paired. -/
theorem fieldParts_log {branch : Nat → Branch} {m : Mapping} {fields : List (Label × Schema)}
    (hm : m.Calm)
    (h : ∀ p ∈ fieldPairings branch m fields, (judge p.rule p.part).Logs (holds p) (calls p)) :
    List.Forall₂ (fun part p => (part.outcome scope judge).Logs (holds p) (calls p))
      (fieldParts m fields) (fieldPairings branch m fields) := by
  have hparts : fieldParts m fields = fields.zipIdx.map fun field =>
      ⟨.field field.1.1, field.1.2, m.readOrUndefined field.1.1.content⟩ := by
    conv_lhs => rw [fieldParts, ← List.zipIdx_map_fst 0 fields, List.map_map]
    rfl
  rw [hparts, fieldPairings, List.forall₂_map_left_iff, List.forall₂_map_right_iff,
    List.forall₂_same]
  intro field hfield
  exact Part.outcome_logs (hm.readOrUndefined_eq _) (h _ (List.mem_map_of_mem hfield))

/-- Items are visited as they are paired. -/
theorem itemParts_log {rule : SequenceRule} {items : List (Schema × Value)}
    {pairing : (Schema × Value) × Nat → Pairing}
    (hpairing : ∀ item, (pairing item).rule = item.1.1 ∧ (pairing item).part = item.1.2)
    (h : ∀ p ∈ items.zipIdx.map pairing, (judge p.rule p.part).Logs (holds p) (calls p)) :
    List.Forall₂ (fun part p => (part.outcome scope judge).Logs (holds p) (calls p))
      (itemParts rule 0 items) (items.zipIdx.map pairing) := by
  rw [itemParts, List.forall₂_map_left_iff, List.forall₂_map_right_iff, List.forall₂_same]
  intro item hitem
  obtain ⟨hrule, hpart⟩ := hpairing item
  have hlogs := h _ (List.mem_map_of_mem hitem)
  rw [hrule, hpart] at hlogs
  exact Part.outcome_logs rfl hlogs

/-- Members are visited as they are paired. -/
theorem members_log {members : List Schema} {v : Value}
    (h : ∀ p ∈ members.zipIdx.map fun (member, i) => (⟨.child i, [], member, v⟩ : Pairing),
      (judge p.rule p.part).Logs (holds p) (calls p)) :
    List.Forall₂ (fun member p => (judge member v).Logs (holds p) (calls p)) members
      (members.zipIdx.map fun (member, i) => ⟨.child i, [], member, v⟩) := by
  conv_lhs => rw [← List.zipIdx_map_fst 0 members]
  rw [List.forall₂_map_left_iff, List.forall₂_map_right_iff, List.forall₂_same]
  exact fun member hmember => h _ (List.mem_map_of_mem hmember)

end Levels

/-! ### All levels -/

section Evaluations

variable {scope : Scope}

/-- The plan for a tag in a calm mapping, in terms of the variant that is selected. -/
theorem tagPlan_cases (tag : Label) (variants : List (Label × List (Label × Schema))) {m : Mapping}
    (hm : m.Calm) :
    match (m.find? tag.content).bind (selected? variants) with
    | none => ∃ cause, tagPlan tag variants m = .refuse cause
    | some (fields, _) => tagPlan tag variants m = .inTurn (fieldParts m fields) := by
  rw [tagPlan_eq hm]
  cases htag : m.find? tag.content with
  | none => exact ⟨_, rfl⟩
  | some tagValue =>
    rw [Option.bind_some]
    -- a position is found if and only if a variant is
    cases hselected : selected? variants tagValue with
    | none =>
      have hnone : variantOf? variants tagValue = none := by
        rw [← map_selected?, hselected, Option.map_none]
      exact ⟨.noVariant tag tagValue, by simp only [variantPlan, hnone]⟩
    | some variant =>
      have hsome : variantOf? variants tagValue = some variant.1 := by
        rw [← map_selected?, hselected, Option.map_some]
      simp only [variantPlan, hsome]

/-- One level: a predicate is called, and the children make their calls up to the one at which the
    node stops. -/
theorem Schema.plan_calls {judge : Schema → Value → Outcome Bool} {holds : Pairing → Prop}
    {calls : Pairing → List Call} {schema : Schema} {v : Value}
    {_ : DecidablePred fun p => schema.StopsAt (holds p)} (h : schema.Conclusive scope)
    (hcalm : scope.heap.Calm v)
    (hchild : ∀ p ∈ schema.pairings scope.heap v, (judge p.rule p.part).Logs (holds p) (calls p)) :
    ((schema.plan scope.heap v).outcome scope judge v).calls =
      (schema.met v).flatMap (Visit.calls scope) ++
        (upToFirst (fun p => schema.StopsAt (holds p)) (schema.pairings scope.heap v)).flatMap
          calls := by
  cases schema with
  | primitive kind | literal constant canonical => rfl
  | bare => exact (h.ruled .self).elim
  -- a predicate has no parts: its own call is all there is, whatever becomes of the fault
  | predicate test name =>
    show ((test.outcome scope v).recover (faultOutcome scope name)).calls = _
    rw [Outcome.calls_recover (calls_faultOutcome scope name), test.outcome_calls]
    simp [met, pairings, upToFirst, Visit.calls]
  | shape fields =>
    rw [plan]
    rw [pairings] at hchild ⊢
    cases hm : scope.heap.mapping? v with
    | none => rfl
    | some m =>
      simp only [hm] at hchild ⊢
      exact Outcome.calls_allOf (fieldParts_log (hcalm.mapping hm) hchild)
  | array member =>
    rw [plan]
    cases hs : scope.heap.sequence? v with
    | none =>
      rw [pairings, hs]
      rfl
    | some items =>
      rw [pairings_array hs] at hchild ⊢
      exact Outcome.calls_allOf (itemParts_log (fun _ => ⟨rfl, rfl⟩) hchild)
  | tuple members =>
    rw [plan]
    rw [pairings] at hchild ⊢
    cases hs : scope.heap.sequence? v with
    | none => rfl
    | some items =>
      by_cases hlen : items.length = members.length
      · simp only [hs, hlen, if_true] at hchild ⊢
        exact Outcome.calls_allOf (itemParts_log (fun _ => ⟨rfl, rfl⟩) hchild)
      · simp only [hlen, if_false]
        rfl
  | union members =>
    show ((((Outcome.anyOf (judge · v) members).mapFault _).tentative).orElse
      _).calls = _
    -- what the members note is dropped, and what they call is kept
    rw [Outcome.calls_orElse_refusal, Outcome.calls_tentative]
    exact Outcome.calls_anyOf (members_log hchild)
  | intersection members =>
    show (Outcome.each (judge · v) members >>= _).calls = _
    -- every member is evaluated, so that no pairing is the last one
    rw [Outcome.calls_bind_of_silent, Outcome.calls_each (members_log hchild), upToFirst_never]
    · rfl
    · exact fun p hp => hp
    · intro verdicts
      cases verdicts.all id <;> rfl
  | taggedUnion tag variants =>
    rw [plan]
    rw [pairings] at hchild ⊢
    cases hm : scope.heap.mapping? v with
    | none => rfl
    | some m =>
      simp only [hm] at hchild ⊢
      -- the look-ups of the tag call nothing; behind them, the variant is a shape
      have hplan := tagPlan_cases tag variants (hcalm.mapping hm)
      cases hselected : (m.find? tag.content).bind (selected? variants) with
      | none =>
        rw [hselected] at hplan
        obtain ⟨cause, hcause⟩ := hplan
        rw [hcause]
        rfl
      | some variant =>
        rw [hselected] at hplan
        have hturn : tagPlan tag variants m = .inTurn (fieldParts m variant.1) := hplan
        simp only [hselected] at hchild ⊢
        rw [hturn]
        exact Outcome.calls_allOf (fieldParts_log (hcalm.mapping hm) hchild)

/-- The calls of an evaluation with some levels left are those of the traversal. -/
theorem Schema.outcome_calls (levels : Nat) {schema : Schema} {v : Value}
    (h : schema.Conclusive scope) (hcalm : scope.heap.Calm v) :
    (schema.outcome scope levels v).calls =
      (schema.visits scope.heap scope.passes levels v).flatMap (Visit.calls scope) := by
  induction levels generalizing schema v with
  | zero => rfl
  | succ levels ih =>
    rw [outcome, visits, List.flatMap_append, List.flatMap_assoc]
    refine plan_calls h hcalm fun p hp => ?_
    -- every child that is paired with a part comes to a verdict there, and makes the calls of its
    -- own traversal
    have hstep := (step_of_pairing hp).2
    have hrule := h.child hstep.mem_children
    refine ⟨hrule.exists_outcome (hstep.calm hcalm) levels, ?_⟩
    rw [ih hrule (hstep.calm hcalm), List.flatMap_map]
    rfl

/-- The calls of a top-level call are those of the traversal from the root. -/
theorem Schema.rootOutcome_calls {schema : Schema} {v : Value} (h : schema.Conclusive scope)
    (hcalm : scope.heap.Calm v) :
    (∃ verdict, (schema.rootOutcome scope v).result = .ok verdict) ∧
      (schema.rootOutcome scope v).calls =
        (schema.visits scope.heap scope.passes scope.maxDepth v).flatMap (Visit.calls scope) := by
  obtain ⟨verdict, hresult, -⟩ := h.exists_outcome hcalm scope.maxDepth
  rw [rootOutcome, Outcome.rooted_of_ok hresult]
  exact ⟨⟨verdict, hresult⟩, outcome_calls scope.maxDepth h hcalm⟩

end Evaluations

/-! ### Runs -/

/-- A run of a conclusive schema on a calm value calls the tests of the traversal, in its order, and
    no others; so they are entered in the journal, before any trace lines are written.  Every visit
    is of a predicate that occurs in the schema, at less than the bound on the depth, with the part
    of the value at its position as the argument, and no occurrence is visited twice at one
    position. -/
theorem run_calls_along_traversal {s : Session} {settings : Settings} {schema : Schema}
    {v opts : Value} {options : Options} (hsettings : s.Settled settings)
    (hopts : Options.coerce s.store.heap opts = .ok options)
    (hschema : schema.Conclusive (s.scope settings options.logFailures))
    (hcalm : s.store.heap.Calm v) :
    let scope := s.scope settings options.logFailures
    let visits := schema.visits scope.heap scope.passes settings.maxDepth v
    let calls := visits.flatMap (Visit.calls scope)
    (∃ verdict,
      (∃ ctx, evaluateRoot scope schema v = .ok verdict ctx ∧ ctx.calls = calls) ∧
        (options.logFailures = false →
          run schema v opts s = .ok verdict (s.evaluated settings calls)) ∧
        (options.logFailures = true →
          (∀ sink, options.sink = some sink → s.Harmless sink) →
          ∃ failures t, emit failures options.sink (s.evaluated settings calls) = .ok () t ∧
            run schema v opts s = .ok verdict t)) ∧
      (visits.map Visit.place).Nodup ∧
      ∀ x ∈ visits, (∃ name, schema.at? x.branches = some (.predicate x.test name)) ∧
        s.store.heap.follow v x.trail = some x.argument ∧ x.branches.length < settings.maxDepth := by
  intro scope visits calls
  obtain ⟨⟨verdict, hresult⟩, hcalls⟩ := Schema.rootOutcome_calls hschema hcalm
  -- the calls are those of the evaluation, on whichever way the verdict leaves
  have hroot : evaluateRoot scope schema v =
      .ok verdict ⟨0, [], (schema.rootOutcome scope v).rejections, calls⟩ := by
    rw [evaluateRoot_eq, Outcome.onto_of_ok hresult, Outcome.settle_initial, hcalls]
    rfl
  have hscope {collect : Bool} (hcollect : options.logFailures = collect) :
      schema.rootOutcome (s.scope settings collect) v = schema.rootOutcome scope v := by
    rw [← hcollect]
  refine ⟨⟨verdict, ⟨_, hroot, rfl⟩, fun hquiet => ?_, fun hlog hsink => ?_⟩,
    Schema.nodup_visits _ _ _ _ _, fun x hx => Schema.visit_spec hx⟩
  · rw [run_of_quiet schema v hsettings hopts hquiet (hscope hquiet), hresult, hcalls]
    rfl
  · obtain ⟨failures, t, hemit, -, hrun⟩ :=
      run_of_harmless schema v hsettings hopts hlog hsink (hscope hlog)
    rw [hcalls] at hemit
    rw [hresult] at hrun
    exact ⟨failures, t, hemit, hrun⟩

/-- An array of unions over an intersection: the first member of the intersection rejects every
    item, the second one is called nevertheless; the last member of the union rejects the second
    item, so that the third one is not visited. -/
theorem run_calls_along_traversal_of_array :
    let spy (name : String) (accepts : Value → Bool) : Schema :=
      .predicate (.plain (.caller (some name)) fun _ w => .ok (.bool (accepts w))) (.str name)
    let schema := Schema.array (.union [
      .intersection [spy "never" fun _ => false, spy "always" fun _ => true],
      spy "is a" (· == .str "a")])
    let s := Session.holding [.list [.str "a", .str "b", .str "a"]] ⟨4, 16⟩
    let scope := s.scope ⟨4, 16⟩ false
    let calls := (schema.visits s.store.heap scope.passes 4 (.ref 0)).flatMap (Visit.calls scope)
    run schema (.ref 0) .null s = .ok false (s.evaluated ⟨4, 16⟩ calls) ∧
      calls.map (fun call => (call.test.origin, call.argument)) = [
        (.caller "never", .str "a"), (.caller "always", .str "a"), (.caller "is a", .str "a"),
        (.caller "never", .str "b"), (.caller "always", .str "b"), (.caller "is a", .str "b")] := by
  intro spy schema s scope calls
  have hopts : Options.coerce s.store.heap .null = .ok .usual := rfl
  have hheap : ∀ cell ∈ s.store.heap.cells.toList, cell.isGuarded = false := by decide
  have hspy (name : String) (accepts : Value → Bool) :
      scope.NeverFatal (.plain (.caller (some name)) fun _ w => .ok (.bool (accepts w))) :=
    Scope.neverFatal_of_returns (Test.not_raises_of_bool fun _ => accepts)
  have hshown (name : String) (accepts : Value → Bool) :
      scope.Shows (.plain (.caller (some name)) fun _ w => .ok (.bool (accepts w))) (.str name) :=
    Scope.shows_of_returns (Test.not_raises_of_bool fun _ => accepts)
  have hschema : schema.Conclusive scope := by
    refine .of_testsTo (n := 4) rfl fun entry hentry => ?_
    obtain rfl | rfl | rfl : entry = (_, _) ∨ entry = (_, _) ∨ entry = (_, _) := by
      simpa only [schema, spy, Schema.testsTo, Schema.children, List.flatMap_cons, List.flatMap_nil,
        List.append_nil, List.cons_append, List.nil_append, List.mem_cons, List.not_mem_nil,
        or_false] using hentry
    all_goals exact ⟨hspy _ _, hshown _ _⟩
  obtain ⟨⟨verdict, ⟨ctx, hroot, hcalls⟩, hquiet, -⟩, -, -⟩ :=
    run_calls_along_traversal (.inl rfl) hopts hschema (Heap.calm_of_unguarded hheap (.ref 0))
  have heval : (match evaluateRoot scope schema (.ref 0) with
      | .ok verdict ctx =>
        some (verdict, ctx.calls.map fun call => (call.test.origin, call.argument))
      | .error _ _ => none) = some (false, [
        (.caller "never", .str "a"), (.caller "always", .str "a"), (.caller "is a", .str "a"),
        (.caller "never", .str "b"), (.caller "always", .str "b"),
        (.caller "is a", .str "b")]) := by
    decide +kernel
  have hroot' : evaluateRoot scope schema (.ref 0) = .ok verdict ctx := hroot
  rw [hroot'] at heval
  obtain ⟨rfl, hmap⟩ := Prod.mk.inj (Option.some.inj heval)
  rw [hcalls] at hmap
  exact ⟨hquiet rfl, hmap⟩

end Conform
