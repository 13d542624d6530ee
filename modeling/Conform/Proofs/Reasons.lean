import Conform.Proofs.Plan

namespace Conform

/-!
# Reasons of a rejection

What a rejected value leaves behind, one case for every way in which a plan can reject.  All
that was accepted on the way left nothing, so every note comes from what is rejected itself.

* `Plan.Rejects` — the ways to reject, with the notes that each of them leaves;
* `Plan.rejects_of_false` — a plan that rejects does so in one of these ways.
-/

/-- The ways in which a plan rejects a value, with the notes that are left: on its own account;
    for the first part whose rule rejects it; because all members reject; because some do; or
    because the test answers no or raises a fault. -/
inductive Plan.Rejects (scope : Scope) (judge : Schema → Value → Outcome Bool) (v : Value) :
    Plan → List Rejection → Prop where
  | answer : Rejects scope judge v (.answer false) []
  | refuse (cause : Cause) : Rejects scope judge v (.refuse cause) (scope.note cause)
  | inTurn {front back : List Part} {part : Part} {w : Value}
    (hfront : ∀ earlier ∈ front, ∃ x, earlier.content = .ok x ∧
      (judge earlier.rule x).result = .ok true)
    (hw : part.content = .ok w) (hpart : (judge part.rule w).result = .ok false) :
    Rejects scope judge v (.inTurn (front ++ part :: back))
      (((judge part.rule w).rejections ++ scope.note (part.place.cause w)).map
        (Rejection.below [part.place.segment]))
  | anyOf {members : List Schema} (h : ∀ member ∈ members, (judge member v).result = .ok false) :
    Rejects scope judge v (.anyOf members)
      (members.flatMap (fun member => (judge member v).rejections) ++
        scope.note (.noMember members.length v))
  | allOf {members : List Schema} {verdicts : List Bool}
    (h : verdicts.map .ok = members.map fun member => (judge member v).result)
    (hfalse : false ∈ verdicts) :
    Rejects scope judge v (.allOf members)
      (members.flatMap (fun member => (judge member v).rejections) ++
        scope.note (.someMember verdicts v))
  | fails {test : Test} {name : Value} (h : (test.outcome scope v).result = .ok false) :
    Rejects scope judge v (.call test name) []
  | raises {test : Test} {name : Value} {fault : Fault}
    (h : (test.outcome scope v).result = .error fault) (hfatal : fault.isFatal = false)
    {shown sentence : Text} (hcause : scope.collect = true →
      scope.heap.raisedCause name fault = .ok (.raised shown fault.kind.name sentence)) :
    Rejects scope judge v (.call test name)
      (scope.note (.raised shown fault.kind.name sentence))

section Inversion

variable {scope : Scope} {judge : Schema → Value → Outcome Bool} {v : Value}

/-- The outcome of a part that can be read. -/
theorem Part.outcome_of_ok {part : Part} {w : Value} (hw : part.content = .ok w) :
    part.outcome scope judge =
      ((judge part.rule w).orElse (.refusal scope (part.place.cause w))).below
        [part.place.segment] := by
  rw [outcome, hw, Outcome.ofExcept_ok_bind]

theorem Part.result_of_true {part : Part} (h : (part.outcome scope judge).result = .ok true) :
    ∃ w, part.content = .ok w ∧ (judge part.rule w).result = .ok true := by
  cases hw : part.content with
  | error fault =>
    rw [outcome, hw, Outcome.bind_of_error rfl] at h
    cases h
  | ok w =>
    rw [outcome_of_ok hw] at h
    rcases hr : (judge part.rule w).result with fault | _ | _
    · rw [Outcome.orElse_of_error _ hr, Outcome.below, hr] at h
      cases h
    · rw [Outcome.orElse_of_false _ hr] at h
      cases h
    · exact ⟨w, rfl, hr⟩

theorem Part.rejections_of_false {part : Part}
    (h : (part.outcome scope judge).result = .ok false) :
    ∃ w, part.content = .ok w ∧ (judge part.rule w).result = .ok false ∧
      (part.outcome scope judge).rejections =
        ((judge part.rule w).rejections ++ scope.note (part.place.cause w)).map
          (Rejection.below [part.place.segment]) := by
  cases hw : part.content with
  | error fault =>
    rw [outcome, hw, Outcome.bind_of_error rfl] at h
    cases h
  | ok w =>
    rw [outcome_of_ok hw] at h
    -- only a rejection of the rule can make the part reject
    rcases hr : (judge part.rule w).result with fault | _ | _
    · rw [Outcome.orElse_of_error _ hr, Outcome.below, hr] at h
      cases h
    · refine ⟨w, rfl, hr, ?_⟩
      rw [outcome_of_ok hw, Outcome.orElse_of_false _ hr]
      rfl
    · rw [Outcome.orElse_of_true _ hr, Outcome.below, hr] at h
      cases h

/-- A trial with a rejection behind it rejects if what is tried does, and then keeps all its
    notes. -/
theorem Outcome.trial_of_false {o : Outcome Bool} {change : Fault → Fault} {cause : Cause}
    (h : ((o.mapFault change).tentative.orElse (.refusal scope cause)).result = .ok false) :
    o.result = .ok false ∧
      ((o.mapFault change).tentative.orElse (.refusal scope cause)).rejections =
        o.rejections ++ scope.note cause := by
  have hmap : (o.mapFault change).result = o.result.mapError change := rfl
  rcases hr : o.result with fault | _ | _ <;> rw [hr] at hmap
  · have htentative : (o.mapFault change).tentative.result = .error (change fault) := by
      simp only [tentative, hmap, mapError_error]
    rw [orElse_of_error _ htentative, htentative] at h
    cases h
  · have htentative : (o.mapFault change).tentative = o.mapFault change := by
      simp only [tentative, hmap, mapError_ok]
    rw [htentative, orElse_of_false _ hmap]
    exact ⟨rfl, rfl⟩
  · have htentative : (o.mapFault change).tentative.result = .ok true := by
      simp only [tentative, hmap, mapError_ok]
    rw [orElse_of_true _ htentative, htentative] at h
    cases h

theorem Plan.rejects_of_call {test : Test} {name : Value}
    (h : ((Plan.call test name).outcome scope judge v).result = .ok false) :
    (Plan.call test name).Rejects scope judge v
      ((Plan.call test name).outcome scope judge v).rejections := by
  have hnone := test.outcome_rejections scope v
  rw [Plan.outcome] at h ⊢
  cases hr : (test.outcome scope v).result with
  | ok verdict =>
    simp only [Outcome.recover, hr] at h ⊢
    rw [hnone]
    cases h
    exact .fails hr
  | error fault =>
    simp only [Outcome.recover, hr] at h ⊢
    rw [Outcome.after, hnone, List.nil_append]
    replace h : (faultOutcome scope name fault).result = .ok false := h
    rw [faultOutcome] at h ⊢
    cases hfatal : fault.isFatal with
    | true => simp [hfatal, Outcome.ofExcept] at h
    | false =>
      -- where nothing is collected, the cause is never put into words
      by_cases hcollect : scope.collect = true
      · simp only [hfatal, hcollect, Bool.false_eq_true, if_false, if_true] at h ⊢
        cases hcause : scope.heap.raisedCause name fault with
        | error raised =>
          rw [hcause, Outcome.bind_of_error rfl] at h
          cases h
        | ok cause =>
          rw [Outcome.ofExcept_ok_bind]
          obtain ⟨shown, sentence, -, -, rfl⟩ := Heap.raisedCause_eq_ok_iff.mp hcause
          exact .raises hr hfatal fun _ => hcause
      · -- nothing is noted, whatever the cause is
        have hnote : scope.note (.raised [] fault.kind.name []) = [] := by
          simp [Scope.note, hcollect]
        simp only [hcollect, Bool.false_eq_true, if_false, Outcome.pure_eq]
        rw [← hnote]
        exact .raises hr hfatal fun h => absurd h hcollect

/-- A plan that rejects does so in one of the ways there are. -/
theorem Plan.rejects_of_false (hclean : ∀ rule w, (judge rule w).Clean) {plan : Plan}
    (h : (plan.outcome scope judge v).result = .ok false) :
    plan.Rejects scope judge v (plan.outcome scope judge v).rejections := by
  cases plan with
  | answer verdict =>
    cases h
    exact .answer
  | raise fault => cases h
  | refuse cause => exact .refuse cause
  | inTurn parts =>
    obtain ⟨front, part, back, rfl, hfront, hpart, hr⟩ := Outcome.allOf_of_false h
    obtain ⟨w, hw, hfalse, hrejections⟩ := Part.rejections_of_false hpart
    -- what was accepted before the part left nothing
    have hnone : front.flatMap (fun earlier => (earlier.outcome scope judge).rejections) = [] := by
      rw [List.flatMap_eq_nil_iff]
      intro earlier hearlier
      exact earlier.outcome_clean hclean (hfront earlier hearlier)
    rw [Plan.outcome, hr, hnone, List.nil_append, hrejections]
    exact .inTurn (fun earlier hearlier => Part.result_of_true (hfront earlier hearlier)) hw hfalse
  | anyOf members =>
    obtain ⟨hfalse, hr⟩ := Outcome.trial_of_false h
    obtain ⟨hall, hrejections⟩ := Outcome.anyOf_of_false hfalse
    rw [Plan.outcome, hr, hrejections]
    exact .anyOf hall
  | allOf members =>
    rw [Plan.outcome] at h ⊢
    cases hr : (Outcome.each (judge · v) members).result with
    | error fault =>
      rw [Outcome.bind_of_error hr] at h
      cases h
    | ok verdicts =>
      obtain ⟨hverdicts, hrejections⟩ := Outcome.each_of_ok hr
      rw [Outcome.bind_of_ok hr] at h ⊢
      cases hall : verdicts.all id with
      | true => simp [hall, Outcome.after] at h
      | false =>
        simp only [Bool.false_eq_true, if_false, Outcome.after, hrejections]
        refine .allOf hverdicts ?_
        simpa using hall
  | call test name => exact rejects_of_call h

end Inversion

end Conform
