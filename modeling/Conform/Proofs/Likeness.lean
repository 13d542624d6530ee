import Mathlib.Data.List.Forall2
import Conform.Proofs.Meaning

namespace Conform

/-!
# Alike outcomes

Two evaluations of one schema on one value, in scopes over the same objects.  What the scopes
differ in may show in the notes that are taken, and nowhere else: the results agree, and notes
and calls stay in whatever relation the single notes and the single calls are in.

* `Alike` — two outcomes with the same result, and related notes and calls;
* `Likeness` — the relations that are kept along an evaluation in two scopes;
* `outcome_alike` — under a likeness, the outcomes of a schema are alike;
* `rootOutcome_alike` — so are those of top-level calls with the same bound on the depth.
-/

/-! ### Alike outcomes -/

section Alike

variable {α β : Type} {N : List Rejection → List Rejection → Prop}
  {K : List Call → List Call → Prop}

/-- Two outcomes with the same result, whose notes and whose calls are related. -/
structure Alike (N : List Rejection → List Rejection → Prop) (K : List Call → List Call → Prop)
    (o o' : Outcome α) : Prop where
  result : o'.result = o.result
  rejections : N o.rejections o'.rejections
  calls : K o.calls o'.calls

theorem Alike.trans {o o' o'' : Outcome α}
    (hN : ∀ {a b c}, N a b → N b c → N a c) (hK : ∀ {a b c}, K a b → K b c → K a c)
    (ho : Alike N K o o') (ho' : Alike N K o' o'') : Alike N K o o'' :=
  ⟨ho'.result.trans ho.result, hN ho.rejections ho'.rejections, hK ho.calls ho'.calls⟩

theorem Alike.mapFault {o o' : Outcome α} (change : Fault → Fault) (ho : Alike N K o o') :
    Alike N K (o.mapFault change) (o'.mapFault change) :=
  ⟨by simp only [Outcome.mapFault, ho.result], ho.rejections, ho.calls⟩

/-- Relations on the notes and on the calls of two scopes over the same objects, which hold of
    single notes and are kept when lists are put together or moved below a trail.  At the bound
    on the depth, each scope notes its own. -/
structure Likeness (σ σ' : Scope) (N : List Rejection → List Rejection → Prop)
    (K : List Call → List Call → Prop) : Prop where
  heap : σ'.heap = σ.heap
  none : N [] []
  append : ∀ {a a' b b'}, N a a' → N b b' → N (a ++ b) (a' ++ b')
  below : ∀ {a a'} trail,
    N a a' → N (a.map (Rejection.below trail)) (a'.map (Rejection.below trail))
  note : ∀ cause, N (σ.note cause) (σ'.note cause)
  tooDeep : N (σ.note (.tooDeep σ.maxDepth)) (σ'.note (.tooDeep σ'.maxDepth))
  noCalls : K [] []
  appendCalls : ∀ {a a' b b'}, K a a' → K b b' → K (a ++ b) (a' ++ b')

namespace Likeness

variable {σ σ' : Scope} (h : Likeness σ σ' N K)
include h

theorem ofExcept (result : Except Fault α) :
    Alike N K (Outcome.ofExcept result) (Outcome.ofExcept result) :=
  ⟨rfl, h.none, h.noCalls⟩

theorem refusal (cause : Cause) :
    Alike N K (Outcome.refusal σ cause) (Outcome.refusal σ' cause) :=
  ⟨rfl, h.note cause, h.noCalls⟩

theorem after {o o' : Outcome α} {rejections rejections' : List Rejection}
    {calls calls' : List Call} (ho : Alike N K o o') (hr : N rejections rejections')
    (hc : K calls calls') : Alike N K (o.after rejections calls) (o'.after rejections' calls') :=
  ⟨ho.result, h.append hr ho.rejections, h.appendCalls hc ho.calls⟩

theorem bind {o o' : Outcome α} {f f' : α → Outcome β} (ho : Alike N K o o')
    (hf : ∀ a, Alike N K (f a) (f' a)) : Alike N K (o >>= f) (o' >>= f') := by
  have hresult := ho.result
  cases hr : o.result with
  | ok a =>
    rw [hr] at hresult
    rw [Outcome.bind_of_ok hr, Outcome.bind_of_ok hresult]
    exact h.after (hf a) ho.rejections ho.calls
  | error fault =>
    rw [hr] at hresult
    rw [Outcome.bind_of_error hr, Outcome.bind_of_error hresult]
    exact ⟨rfl, ho.rejections, ho.calls⟩

theorem moved {o o' : Outcome α} (trail : List Segment) (ho : Alike N K o o') :
    Alike N K (o.below trail) (o'.below trail) :=
  ⟨ho.result, h.below trail ho.rejections, ho.calls⟩

theorem recover {o o' : Outcome α} {handle handle' : Fault → Outcome α} (ho : Alike N K o o')
    (hh : ∀ fault, o.result = .error fault → Alike N K (handle fault) (handle' fault)) :
    Alike N K (o.recover handle) (o'.recover handle') := by
  have hresult := ho.result
  cases hr : o.result with
  | ok a =>
    rw [hr] at hresult
    simp only [Outcome.recover, hr, hresult]
    exact ho
  | error fault =>
    rw [hr] at hresult
    simp only [Outcome.recover, hr, hresult]
    exact h.after (hh fault hr) ho.rejections ho.calls

variable {o o' r r' : Outcome Bool}

theorem tentative (ho : Alike N K o o') : Alike N K o.tentative o'.tentative := by
  have hresult := ho.result
  rcases hr : o.result with fault | _ | _ <;> rw [hr] at hresult <;>
    simp only [Outcome.tentative, hr, hresult]
  · exact ⟨rfl, h.none, ho.calls⟩
  · exact ho
  · exact ⟨rfl, h.none, ho.calls⟩

theorem orElse (ho : Alike N K o o') (hr : Alike N K r r') :
    Alike N K (o.orElse r) (o'.orElse r') := by
  apply h.bind ho
  intro verdict
  cases verdict with
  | true => exact h.ofExcept (.ok true)
  | false => exact hr

theorem andThen (ho : Alike N K o o') (hr : Alike N K r r') :
    Alike N K (o.andThen r) (o'.andThen r') := by
  apply h.bind ho
  intro verdict
  cases verdict with
  | true => exact hr
  | false => exact h.ofExcept (.ok false)

section Lists

variable {check : α → Outcome Bool} {check' : β → Outcome Bool} {l : List α} {l' : List β}
  (hl : List.Forall₂ (fun a b => Alike N K (check a) (check' b)) l l')
include hl

theorem allOf : Alike N K (Outcome.allOf check l) (Outcome.allOf check' l') := by
  induction hl with
  | nil => exact h.ofExcept (.ok true)
  | cons ha _ ih => exact h.andThen ha ih

theorem anyOf : Alike N K (Outcome.anyOf check l) (Outcome.anyOf check' l') := by
  induction hl with
  | nil => exact h.ofExcept (.ok false)
  | cons ha _ ih => exact h.orElse ha ih

theorem each : Alike N K (Outcome.each check l) (Outcome.each check' l') := by
  induction hl with
  | nil => exact h.ofExcept (.ok [])
  | cons ha _ ih =>
    apply h.bind ha
    intro verdict
    apply h.bind ih
    intro verdicts
    exact h.ofExcept (.ok (verdict :: verdicts))

end Lists

/-- The fault of a test is noted alike, if both scopes take notes or the fault can be shown. -/
theorem faultOutcome {name : Value} {fault : Fault}
    (hshown : σ'.collect = σ.collect ∨
      (fault.isFatal = false → ∃ cause, σ.heap.raisedCause name fault = .ok cause)) :
    Alike N K (Conform.faultOutcome σ name fault) (Conform.faultOutcome σ' name fault) := by
  by_cases hfatal : fault.isFatal = true
  · -- a fatal fault leaves at once in both scopes
    rw [Conform.faultOutcome, Conform.faultOutcome, if_pos hfatal, if_pos hfatal]
    exact h.ofExcept (.error fault)
  · rcases hshown with hcollect | hshown
    · -- the fault is shown in both scopes or in none of them, and over the same objects
      rw [Conform.faultOutcome, Conform.faultOutcome, if_neg hfatal, if_neg hfatal, hcollect,
        h.heap]
      by_cases hc : σ.collect = true
      · rw [if_pos hc, if_pos hc]
        exact h.bind (h.ofExcept _) fun cause => h.refusal cause
      · rw [if_neg hc, if_neg hc]
        exact h.ofExcept (.ok false)
    · -- a fault that can be shown makes no difference to whether it has to be
      have hordinary : fault.isFatal = false := by simpa using hfatal
      obtain ⟨cause, hcause⟩ := hshown hordinary
      rw [faultOutcome_of_cause (fun _ => hcause) hordinary,
        faultOutcome_of_cause (fun _ => h.heap ▸ hcause) hordinary]
      exact h.refusal cause

variable {judge judge' : Schema → Value → Outcome Bool}

/-- Two parts with one content at one place come to outcomes that are alike, if their rules do. -/
theorem part {part part' : Part} (hplace : part'.place = part.place)
    (hcontent : part'.content = part.content)
    (hj : ∀ w, part.content = .ok w → Alike N K (judge part.rule w) (judge' part'.rule w)) :
    Alike N K (part.outcome σ judge) (part'.outcome σ' judge') := by
  rw [Part.outcome, Part.outcome, hplace, hcontent]
  cases hw : part.content with
  | error fault => exact h.ofExcept (.error fault)
  | ok w =>
    rw [Outcome.ofExcept_ok_bind, Outcome.ofExcept_ok_bind]
    exact h.moved _ (h.orElse (hj w hw) (h.refusal _))

/-- A plan carried out in two scopes has outcomes that are alike, if those of its rules are. -/
theorem plan {plan : Plan} {v : Value}
    (hj : ∀ rule ∈ plan.rules, ∀ w, Alike N K (judge rule w) (judge' rule w))
    (hcall : ∀ test name, plan = .call test name →
      (σ'.collect = σ.collect ∨ σ.Shows test name) ∧
        Alike N K (test.outcome σ v) (test.outcome σ' v)) :
    Alike N K (plan.outcome σ judge v) (plan.outcome σ' judge' v) := by
  cases plan with
  | answer verdict => exact h.ofExcept (.ok verdict)
  | raise fault => exact h.ofExcept (.error fault)
  | refuse cause => exact h.refusal cause
  | inTurn parts =>
    refine h.allOf (List.forall₂_same.mpr fun part hp => ?_)
    exact h.part rfl rfl fun w _ => hj part.rule (List.mem_map_of_mem hp) w
  | anyOf members =>
    have hany := h.anyOf (List.forall₂_same.mpr fun member hm => hj member hm v)
    exact h.orElse (h.tentative (hany.mapFault _)) (h.refusal _)
  | allOf members =>
    apply h.bind (h.each (List.forall₂_same.mpr fun member hm => hj member hm v))
    intro verdicts
    cases verdicts.all id with
    | true => exact h.ofExcept (.ok true)
    | false => exact h.refusal _
  | call test name =>
    obtain ⟨hshown, htest⟩ := hcall test name rfl
    refine h.recover htest fun fault hfault => h.faultOutcome ?_
    exact hshown.imp_right fun hshown => hshown v fault (Test.raises_iff.mpr hfault)

end Likeness

/-- Under a likeness, the outcomes of a schema with the same number of levels left are alike, if
    the outcomes of its tests are. -/
theorem outcome_alike {σ σ' : Scope} (h : Likeness σ σ' N K) (levels : Nat) {schema : Schema}
    (hshown : σ'.collect = σ.collect ∨ schema.FaultsShown σ)
    (htest : schema.EveryTest fun test _ => ∀ w, Alike N K (test.outcome σ w) (test.outcome σ' w))
    (v : Value) : Alike N K (schema.outcome σ levels v) (schema.outcome σ' levels v) := by
  induction levels generalizing schema v with
  | zero => exact ⟨rfl, h.tooDeep, h.noCalls⟩
  | succ levels ih =>
    rw [Schema.outcome, Schema.outcome, h.heap]
    apply h.plan
    · intro rule hrule w
      have hc := schema.rules_plan_subset σ.heap v hrule
      exact ih (hshown.imp_right fun hshown => hshown.child hc) (htest.child hc) w
    · intro test name hplan
      obtain rfl : schema = .predicate test name := Schema.eq_of_plan hplan
      exact ⟨hshown.imp_right fun hshown => hshown test name .self, htest test name .self v⟩

/-- At the root, an exhausted stack is noted alike. -/
theorem Likeness.rooted {σ σ' : Scope} (h : Likeness σ σ' N K) {o o' : Outcome Bool}
    (ho : Alike N K o o') : Alike N K (o.rooted σ) (o'.rooted σ') := by
  apply h.recover ho
  intro fault _
  by_cases hkind : fault.kind = .exhausted
  · rw [if_pos hkind, if_pos hkind]
    exact h.refusal .noStack
  · rw [if_neg hkind, if_neg hkind]
    exact h.ofExcept (.error fault)

/-- Top-level calls with the same bound on the depth are alike, if the tests are. -/
theorem rootOutcome_alike_of_tests {σ σ' : Scope} (h : Likeness σ σ' N K)
    (hdepth : σ'.maxDepth = σ.maxDepth) {schema : Schema}
    (hshown : σ'.collect = σ.collect ∨ schema.FaultsShown σ)
    (htest : schema.EveryTest fun test _ => ∀ w, Alike N K (test.outcome σ w) (test.outcome σ' w))
    (v : Value) : Alike N K (schema.rootOutcome σ v) (schema.rootOutcome σ' v) := by
  rw [Schema.rootOutcome, Schema.rootOutcome, hdepth]
  exact h.rooted (outcome_alike h σ.maxDepth hshown htest v)

end Alike

/-! ### Tests -/

/-- Where nothing is noted, all notes are equal. -/
theorem Likeness.silent {σ σ' : Scope} (hheap : σ'.heap = σ.heap) (hσ : σ.collect = false)
    (hσ' : σ'.collect = false) : Likeness σ σ' Eq Eq where
  heap := hheap
  none := rfl
  append ha hb := by rw [ha, hb]
  below trail ha := by rw [ha]
  note cause := by simp [Scope.note, hσ, hσ']
  tooDeep := by simp [Scope.note, hσ, hσ']
  noCalls := rfl
  appendCalls ha hb := by rw [ha, hb]

/-- What a test comes to depends on the objects and on the bound on the depth alone.  The
    induction is on the size of the test, since a test may be a validator with tests of its
    own. -/
theorem Test.outcome_congr {σ σ' : Scope} (hheap : σ'.heap = σ.heap)
    (hdepth : σ'.maxDepth = σ.maxDepth) (test : Test) (v : Value) :
    test.outcome σ' v = test.outcome σ v := by
  induction hsize : sizeOf test using Nat.strongRecOn generalizing σ σ' test v with
  | ind size ih =>
    subst hsize
    cases test with
    | plain origin answer => rw [outcome_plain, outcome_plain, hheap]
    | validating name schema =>
      have htest : schema.EveryTest fun test _ => ∀ w, Alike Eq Eq
          (test.outcome { σ with collect := false } w)
          (test.outcome { σ' with collect := false } w) := by
        intro test name' hc w
        -- a smaller test comes to the same in scopes that note nothing
        have hequal : test.outcome { σ' with collect := false } w =
            test.outcome { σ with collect := false } w := by
          refine ih _ ?_ ?_ ?_ test w rfl
          · have hlt := hc.sizeOf_test
            simp only [validating.sizeOf_spec]
            omega
          · exact hheap
          · exact hdepth
        rw [hequal]
        exact ⟨rfl, rfl, rfl⟩
      -- so does the validator, since nothing else of the scopes is left to differ
      have hsilent : Likeness { σ with collect := false } { σ' with collect := false } Eq Eq :=
        .silent hheap rfl rfl
      have hroot : Alike Eq Eq (schema.rootOutcome { σ with collect := false } v)
          (schema.rootOutcome { σ' with collect := false } v) :=
        rootOutcome_alike_of_tests hsilent hdepth (.inl rfl) htest v
      rw [outcome_validating, outcome_validating, hroot.result, hroot.calls]

theorem Scope.raises_congr {σ σ' : Scope} (hheap : σ'.heap = σ.heap) (hdepth : σ'.maxDepth = σ.maxDepth)
    {test : Test} {w : Value} {fault : Fault} : σ'.raises test w fault ↔ σ.raises test w fault := by
  rw [Test.raises_iff, Test.raises_iff, Test.outcome_congr hheap hdepth]

/-- Whether the faults of tests can be shown, depends on the same alone. -/
theorem Schema.FaultsShown.congr {σ σ' : Scope} {schema : Schema} (h : schema.FaultsShown σ)
    (hheap : σ'.heap = σ.heap) (hdepth : σ'.maxDepth = σ.maxDepth) : schema.FaultsShown σ' := by
  intro test name ht w fault hraises hfatal
  rw [hheap]
  exact h test name ht w fault ((Scope.raises_congr hheap hdepth).mp hraises) hfatal

/-- Top-level calls with the same bound on the depth are alike. -/
theorem rootOutcome_alike {σ σ' : Scope} {N : List Rejection → List Rejection → Prop}
    (h : Likeness σ σ' N Eq) (hdepth : σ'.maxDepth = σ.maxDepth) {schema : Schema}
    (hshown : σ'.collect = σ.collect ∨ schema.FaultsShown σ)
    (v : Value) : Alike N Eq (schema.rootOutcome σ v) (schema.rootOutcome σ' v) := by
  apply rootOutcome_alike_of_tests h hdepth hshown
  intro test _ _ w
  rw [Test.outcome_congr h.heap hdepth]
  refine ⟨rfl, ?_, rfl⟩
  rw [Test.outcome_rejections]
  exact h.none

end Conform
