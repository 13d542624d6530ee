import Conform.Proofs.Faults
import Conform.Proofs.Positions

namespace Conform

/-!
# What escapes from an evaluation

The faults that leave an evaluation: those of look-ups, that of a node without a rule, fatal
faults of tests, and, where rejections are collected, faults of a name, or of the text of a fault, that
refuses to be shown.

* `Outcome.RaisesOnly` — every fault of an outcome satisfies a property;
* `Schema.Escapes` — every fault that may leave an evaluation of a schema satisfies a property;
* `Schema.Raises.of_escapes`, `outcome_raisesOnly` — and so does every fault that does;
* `Schema.ruledTo`, `Schema.testsTo` — what there is to check of a schema that is written out;
* `Schema.Conclusive` — a schema that lets no fault escape;
* `Schema.Conclusive.exists_root_verdict` — with such a schema a top-level call has a verdict, even
  if look-ups exhaust the stack.
-/

/-! ### Faults of evaluations -/

/-- Every fault of an outcome satisfies a property. -/
def Outcome.RaisesOnly {α : Type} (o : Outcome α) (p : Fault → Prop) : Prop :=
  ∀ fault, o.result = .error fault → p fault

/-- Every fault that a schema itself may let escape satisfies a property: the fault of a node
    without a rule, fatal faults of tests, and what comes up where another fault of a test is to be shown,
    if rejections are collected. -/
structure Schema.Escapes (scope : Scope) (p : Fault → Prop) (schema : Schema) : Prop where
  bare : schema.Contains .bare → p (.typeMismatch "Unknown validator node: Validator")
  tests : schema.EveryTest fun test _ =>
    ∀ w fault, scope.raises test w fault → fault.isFatal = true → p fault
  notes : scope.collect = true → schema.EveryTest fun test name =>
    ∀ w raised fault, scope.raises test w raised → raised.isFatal = false →
      scope.heap.raisedCause name raised = .error fault → p fault

theorem Schema.Escapes.child {scope : Scope} {p : Fault → Prop} {schema node : Schema}
    (h : schema.Escapes scope p) (hc : node ∈ schema.children) : node.Escapes scope p :=
  ⟨fun hb => h.bare (.inside hc hb), h.tests.child hc, fun hcollect => (h.notes hcollect).child hc⟩

section Evaluations

variable {scope : Scope} {p : Fault → Prop} (hp : ∀ fault, p fault → p fault.throughIteration)
include hp

/-- What ends an evaluation is what the schema lets escape, or what look-ups raise. -/
theorem Schema.Raises.of_escapes {levels : Nat} {schema : Schema} {v : Value} {fault : Fault}
    (hraises : schema.Raises scope levels v fault) (h : schema.Escapes scope p)
    (hv : scope.heap.RefusesOnly p v) : p fault := by
  induction levels generalizing schema v fault with
  | zero => exact hraises.elim
  | succ levels ih =>
    rw [Schema.Raises] at hraises
    cases hplan : schema.plan scope.heap v with
    | answer verdict | refuse cause =>
      rw [hplan] at hraises
      exact hraises.elim
    | raise raised =>
      rw [hplan] at hraises
      obtain rfl : raised = fault := hraises
      have hmapping (m : Mapping) (hm : scope.heap.mapping? v = some m) := hv.mapping hm
      rcases Schema.eq_bare_or_refusal_of_plan_raise hmapping hplan with ⟨rfl, rfl⟩ | hfault
      · exact h.bare .self
      · exact hfault
    | inTurn parts =>
      rw [hplan] at hraises
      obtain ⟨part, hpart, hfault | ⟨w, hw, hrule⟩⟩ := hraises.exists_mem
      · exact Schema.refusal_of_part hv hplan hpart hfault
      · have hstep := Schema.step_of_content hplan hpart hw
        exact ih hrule (h.child hstep.mem_children) (hstep.throughout hv)
    | anyOf members =>
      obtain rfl : schema = .union members := Schema.eq_of_plan hplan
      obtain ⟨raised, hfirst, rfl⟩ := hraises
      obtain ⟨member, hm, hraised⟩ := hfirst.exists_mem
      -- what passes through the iteration over the members still satisfies the property
      exact hp raised (ih hraised (h.child hm) hv)
    | allOf members =>
      obtain rfl : schema = .intersection members := Schema.eq_of_plan hplan
      obtain ⟨member, hm, hraised⟩ := hraises.exists_mem
      exact ih hraised (h.child hm) hv
    | call test name =>
      obtain rfl : schema = .predicate test name := Schema.eq_of_plan hplan
      obtain ⟨raised, hraised, hfault⟩ := hraises
      by_cases hfatal : raised.isFatal = true
      · obtain rfl : raised = fault := by simpa [hfatal] using hfault
        exact h.tests test name .self v raised hraised hfatal
      · obtain ⟨hcollect, hcause⟩ :
            scope.collect = true ∧ scope.heap.raisedCause name raised = .error fault := by
          simpa [hfatal] using hfault
        exact h.notes hcollect test name .self v raised fault hraised (by simpa using hfatal) hcause

theorem outcome_raisesOnly (levels : Nat) {schema : Schema} {v : Value}
    (h : schema.Escapes scope p) (hv : scope.heap.RefusesOnly p v) :
    (schema.outcome scope levels v).RaisesOnly p := fun fault hfault =>
  ((outcome_raises_iff levels schema v fault).mp hfault).of_escapes hp h hv

end Evaluations

/-! ### No exhausted stack -/

/-- Where no stack is exhausted, there is nothing to recover from at the root. -/
theorem Outcome.rooted_eq {scope : Scope} {o : Outcome Bool}
    (h : o.RaisesOnly fun fault => fault.kind ≠ .exhausted) : o.rooted scope = o := by
  rw [rooted, recover]
  cases hr : o.result with
  | ok verdict => rfl
  | error fault =>
    simp only [h fault hr, if_false, after, ofExcept, List.append_nil]
    rw [← hr]

/-- On a calm value, a top-level call comes to what the evaluation comes to, if to show the faults of
    tests spares the stack where rejections are collected. -/
theorem rootOutcome_eq_outcome {scope : Scope} {schema : Schema} {v : Value}
    (hspares : scope.collect = true → schema.SparesStack scope) (hcalm : scope.heap.Calm v) :
    schema.rootOutcome scope v = schema.outcome scope scope.maxDepth v := by
  apply Outcome.rooted_eq
  refine outcome_raisesOnly ?_ _ ⟨?_, ?_, hspares⟩ (hcalm.refusesOnly _)
  · -- the iteration over the members of a union turns no fault into an exhausted stack
    intro fault hfault
    rw [Fault.throughIteration]
    split
    · exact nofun
    · exact hfault
  · exact fun _ => nofun
  · -- an exhausted stack inside of a test is not fatal: it is a rejection already there
    intro test name _ w fault _ hfatal hkind
    rw [Fault.isFatal, hkind] at hfatal
    cases hfatal

/-! ### Schemas that are written out -/

namespace Schema

/-- Only one kind of nodes has no rule. -/
def hasRule : Schema → Bool
  | .bare => false
  | _ => true

/-- A schema has at most `n` levels of nodes, and all of them have a rule. -/
def ruledTo : Nat → Schema → Bool
  | 0, _ => false
  | n + 1, schema => schema.hasRule && schema.children.all (ruledTo n)

/-- The predicates in the first `n` levels of nodes. -/
def testsTo : Nat → Schema → List (Test × Value)
  | 0, _ => []
  | n + 1, schema =>
    match schema with
    | .predicate test name => [(test, name)]
    | _ => schema.children.flatMap (testsTo n)

variable {n : Nat} {schema : Schema}

theorem ruledTo_succ_iff :
    schema.ruledTo (n + 1) = true ↔
      schema.hasRule = true ∧ ∀ child ∈ schema.children, child.ruledTo n = true :=
  Bool.and_eq_true_iff.trans (and_congr_right fun _ => List.all_eq_true)

theorem not_contains_bare (h : schema.ruledTo n = true) : ¬ schema.Contains .bare := by
  intro hb
  induction n generalizing schema with
  | zero => cases h
  | succ n ih =>
    obtain ⟨hself, hchildren⟩ := ruledTo_succ_iff.mp h
    cases hb with
    | self => cases hself
    | inside hc hb => exact ih (hchildren _ hc) hb

/-- The predicates in as many levels as there are, are all the predicates. -/
theorem EveryTest.of_testsTo {p : Test → Value → Prop} (h : schema.ruledTo n = true)
    (htests : ∀ entry ∈ schema.testsTo n, p entry.1 entry.2) : schema.EveryTest p := by
  induction n generalizing schema with
  | zero => cases h
  | succ n ih =>
    obtain ⟨-, hchildren⟩ := ruledTo_succ_iff.mp h
    refine .of_children ?_ fun child hc => ih (hchildren child hc) fun entry he => htests entry ?_
    · rintro test name rfl
      exact htests (test, name) List.mem_cons_self
    · cases schema with
      | predicate test name => cases hc
      | _ => exact List.mem_flatMap.mpr ⟨child, hc, he⟩

end Schema

/-! ### Conclusive schemas -/

theorem Outcome.exists_verdict {o : Outcome Bool} {p : Prop} (hraises : o.RaisesOnly fun _ => False)
    (hdecides : o.Decides p) : ∃ verdict, o.result = .ok verdict ∧ (verdict = true ↔ p) := by
  cases hr : o.result with
  | ok verdict => exact ⟨verdict, rfl, hdecides verdict hr⟩
  | error fault => exact (hraises fault hr).elim

theorem Schema.rootOutcome_of_verdict {scope : Scope} {schema : Schema} {v : Value} {verdict : Bool}
    (h : (schema.outcome scope scope.maxDepth v).result = .ok verdict) :
    (schema.rootOutcome scope v).result = .ok verdict := by
  rw [rootOutcome, Outcome.rooted_of_ok h]
  exact h

/-- A test raises no fatal fault, whatever its argument is. -/
def Scope.NeverFatal (scope : Scope) (test : Test) : Prop :=
  ∀ w fault, scope.raises test w fault → fault.isFatal = false

theorem Scope.neverFatal_of_returns {scope : Scope} {test : Test}
    (h : ∀ w fault, ¬ scope.raises test w fault) : scope.NeverFatal test :=
  fun w fault hraises => absurd hraises (h w fault)

theorem Scope.neverFatal_plain {scope : Scope} {origin : Origin}
    {answer : Heap → Value → Except Fault Value}
    (h : ∀ w fault, answer scope.heap w >>= scope.heap.truth = .error fault →
      fault.isFatal = false) :
    scope.NeverFatal (.plain origin answer) := fun w fault hraises =>
  h w fault (Test.raises_plain_iff.mp hraises)

namespace Schema

/-- A schema that always comes to a verdict in a scope: every node has a rule, no test raises a
    fatal fault, and where rejections are collected, the other faults of tests can be shown. -/
structure Conclusive (scope : Scope) (schema : Schema) : Prop where
  ruled : ¬ schema.Contains .bare
  tests : schema.EveryTest fun test _ => scope.NeverFatal test
  shown : scope.collect = true → schema.FaultsShown scope

variable {scope : Scope} {schema : Schema}

/-- A node is conclusive if it is itself and its children are. -/
theorem Conclusive.of_children (hruled : schema ≠ .bare)
    (htest : ∀ test name, schema = .predicate test name →
      scope.NeverFatal test ∧ (scope.collect = true → scope.Shows test name))
    (h : ∀ child ∈ schema.children, child.Conclusive scope) : schema.Conclusive scope where
  ruled hb := by
    cases hb with
    | self => exact hruled rfl
    | inside hc hb => exact (h _ hc).ruled hb
  tests :=
    .of_children (fun test name hs => (htest test name hs).1) fun child hc => (h child hc).tests
  shown hcollect :=
    .of_children (fun test name hs => (htest test name hs).2 hcollect) fun child hc =>
      (h child hc).shown hcollect

/-- A conclusive schema lets nothing escape. -/
theorem Conclusive.escapes (h : schema.Conclusive scope) (p : Fault → Prop) :
    schema.Escapes scope p where
  bare hb := (h.ruled hb).elim
  tests test name ht w fault hraises hfatal := by
    rw [h.tests test name ht w fault hraises] at hfatal
    cases hfatal
  notes hcollect test name ht w raised fault hraises hfatal hnote := by
    obtain ⟨cause, hcause⟩ := h.shown hcollect test name ht w raised hraises hfatal
    rw [hcause] at hnote
    cases hnote

theorem Conclusive.child (h : schema.Conclusive scope) {node : Schema}
    (hc : node ∈ schema.children) : node.Conclusive scope :=
  ⟨fun hb => h.ruled (.inside hc hb), h.tests.child hc, fun hcollect => (h.shown hcollect).child hc⟩

/-- A schema that is written out is conclusive if all its predicates have tests that raise nothing
    fatal, and only faults that can be shown. -/
theorem Conclusive.of_testsTo {n : Nat} (h : schema.ruledTo n = true)
    (htests : ∀ entry ∈ schema.testsTo n,
      scope.NeverFatal entry.1 ∧ scope.Shows entry.1 entry.2) : schema.Conclusive scope where
  ruled := not_contains_bare h
  tests := .of_testsTo h fun entry he => (htests entry he).1
  shown _ := .of_testsTo h fun entry he => (htests entry he).2

/-- On a calm value, an evaluation of a conclusive schema has a verdict, whatever number of levels is
    left. -/
theorem Conclusive.exists_outcome (h : schema.Conclusive scope) {v : Value}
    (hcalm : scope.heap.Calm v) (levels : Nat) :
    ∃ verdict, (schema.outcome scope levels v).result = .ok verdict ∧
      (verdict = true ↔ Accepts scope.heap scope.passes (schema.cut levels) v) := by
  refine Outcome.exists_verdict ?_ (outcome_decides scope levels schema hcalm)
  exact outcome_raisesOnly (fun _ => id) levels (h.escapes _) (hcalm.refusesOnly _)

/-- So has a top-level call. -/
theorem Conclusive.exists_verdict (h : schema.Conclusive scope) {v : Value}
    (hcalm : scope.heap.Calm v) :
    ∃ verdict, (schema.rootOutcome scope v).result = .ok verdict ∧
      (schema.outcome scope scope.maxDepth v).result = .ok verdict := by
  obtain ⟨verdict, hresult, -⟩ := h.exists_outcome hcalm scope.maxDepth
  exact ⟨verdict, rootOutcome_of_verdict hresult, hresult⟩

end Schema

/-! ### Exhausted stacks -/

/-- The iteration over the members of a union does not change an exhausted stack. -/
theorem Fault.throughIteration_of_exhausted {fault : Fault} (h : fault.kind = .exhausted) :
    fault.throughIteration = fault := by
  rw [throughIteration, if_neg (by rw [h]; exact nofun)]

/-- If nothing but an exhausted stack leaves an evaluation, the root has a verdict. -/
theorem Outcome.rooted_result_of_exhausted {scope : Scope} {o : Outcome Bool}
    (h : o.RaisesOnly fun fault => fault.kind = .exhausted) :
    ∃ verdict, (o.rooted scope).result = .ok verdict := by
  rw [rooted, recover]
  cases hr : o.result with
  | ok verdict => exact ⟨verdict, hr⟩
  | error fault =>
    simp only [h fault hr, if_true]
    exact ⟨false, rfl⟩

/-- If look-ups raise nothing but an exhausted stack, a top-level call with a conclusive schema has
    a verdict. -/
theorem Schema.Conclusive.exists_root_verdict {scope : Scope} {schema : Schema}
    (h : schema.Conclusive scope) {v : Value}
    (hv : scope.heap.RefusesOnly (fun fault => fault.kind = .exhausted) v) :
    ∃ verdict, (schema.rootOutcome scope v).result = .ok verdict := by
  apply Outcome.rooted_result_of_exhausted
  refine outcome_raisesOnly (fun fault hfault => ?_) _ (h.escapes _) hv
  rw [Fault.throughIteration_of_exhausted hfault]
  exact hfault

end Conform
