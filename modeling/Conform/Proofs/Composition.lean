import Mathlib.Data.List.Forall2
import Conform.Proofs.Likeness
import Conform.Proofs.Truth

namespace Conform

/-!
# Explanations compose

The explanation of a rejected value is made of the explanations of the children, each taken on
its own with one level less, and of one failure of the node itself, which comes last.

* `Failure.Retold` — one failure in two calls with different bounds on the depth;
* `Failure.behind` — a failure inside of a part, told from outside;
* `Plan.Composed` — how the failures of a node are put together, one case for every way to
  reject;
* `explain_composes` — the failures of an explanation are put together like this.
-/

/-! ### One failure in two calls -/

/-- Two messages that say the same in calls with the bounds `n` and `n'` on the depth: only a
    failure at the bound quotes it. -/
def SameMessage (n n' : Nat) (code : FailureCode) (message message' : Text) : Prop :=
  message' = message ∨
    code = .depthExceeded ∧
      message = "Schema nesting exceeds max depth of " ++ toString n ∧
      message' = "Schema nesting exceeds max depth of " ++ toString n'

/-- A failure as it is told again by a call with another bound on the depth. -/
structure Failure.Retold (n n' : Nat) (f f' : Failure) : Prop where
  path : f'.path = f.path
  code : f'.code = f.code
  message : SameMessage n n' f.code f.message f'.message

/-- A rejection as it is noted again in a scope with another bound on the depth. -/
structure Rejection.Retold (n n' : Nat) (r r' : Rejection) : Prop where
  trail : r'.trail = r.trail
  code : r'.code = r.code
  message : SameMessage n n' r.code r.message r'.message

section Retold

variable {n n' : Nat} {r r' : Rejection}

theorem Rejection.Retold.refl (r : Rejection) : r.Retold n n' r := ⟨rfl, rfl, .inl rfl⟩

theorem Rejection.Retold.below (h : r.Retold n n' r') (trail : List Segment) :
    (r.below trail).Retold n n' (r'.below trail) :=
  ⟨congrArg (trail ++ ·) h.trail, h.code, h.message⟩

theorem Rejection.Retold.report (h : r.Retold n n' r') : r.report.Retold n n' r'.report :=
  ⟨congrArg pathText h.trail, h.code, h.message⟩

/-- Scopes that differ in the bound on the depth note the same, apart from the bound that is
    quoted. -/
theorem Likeness.ofBounds {σ σ' : Scope} (hheap : σ'.heap = σ.heap)
    (hlimit : σ'.renderLimit = σ.renderLimit) (hcollect : σ'.collect = σ.collect) :
    Likeness σ σ' (List.Forall₂ (Rejection.Retold σ.maxDepth σ'.maxDepth)) fun _ _ => True where
  heap := hheap
  none := .nil
  append ha hb := List.rel_append ha hb
  below trail ha := by
    rw [List.forall₂_map_left_iff, List.forall₂_map_right_iff]
    exact ha.imp fun r r' h => h.below trail
  note cause := by
    have hquote : σ'.quote = σ.quote := by
      funext v
      rw [Scope.quote, Scope.quote, hheap, hlimit]
    rw [Scope.note, Scope.note, hcollect, hquote]
    exact List.forall₂_same.mpr fun r _ => .refl r
  tooDeep := by
    -- the one place where the bounds show
    rw [Scope.note, Scope.note, hcollect]
    by_cases h : σ.collect = true
    · rw [if_pos h, if_pos h]
      exact .cons ⟨rfl, rfl, .inr ⟨rfl, rfl, rfl⟩⟩ .nil
    · rw [if_neg h, if_neg h]
      exact .nil
  noCalls := trivial
  appendCalls _ _ := trivial

end Retold

/-! ### Pure tests -/

/-- What a test comes to depends on the objects and on its argument alone.  A validator that is
    used as a test looks at the settings. -/
def Test.Pure (heap : Heap) (test : Test) : Prop :=
  ∀ σ σ' : Scope, σ.heap = heap → σ'.heap = heap → ∀ w,
    (test.outcome σ' w).result = (test.outcome σ w).result

/-- A test that is not a validator is pure. -/
theorem Test.pure_plain (heap : Heap) (origin : Origin)
    (answer : Heap → Value → Except Fault Value) : (plain origin answer).Pure heap := by
  intro σ σ' hσ hσ' w
  rw [outcome_plain, outcome_plain, hσ, hσ']

/-- With pure tests, two evaluations with the same number of levels left have the same result
    and the same notes, whatever the bounds are that the levels are left from. -/
theorem outcome_retold {σ σ' : Scope} (hheap : σ'.heap = σ.heap)
    (hlimit : σ'.renderLimit = σ.renderLimit) (hcollect : σ'.collect = σ.collect) (levels : Nat)
    {schema : Schema} (hpure : schema.EveryTest fun test _ => test.Pure σ.heap) (v : Value) :
    Alike (List.Forall₂ (Rejection.Retold σ.maxDepth σ'.maxDepth)) (fun _ _ => True)
      (schema.outcome σ levels v) (schema.outcome σ' levels v) := by
  apply outcome_alike (.ofBounds hheap hlimit hcollect) levels
  · exact .inl hcollect
  · intro test name ht w
    refine ⟨hpure test name ht σ σ' rfl hheap w, ?_, trivial⟩
    rw [Test.outcome_rejections, Test.outcome_rejections]
    exact .nil

/-! ### Failures of parts -/

/-- A failure inside of a part, told from outside. -/
def Failure.behind (segment : Segment) (f : Failure) : Failure :=
  { f with path := segment.before f.path }

/-- A rejection that is moved below a segment is reported behind it. -/
theorem Rejection.report_below {segment : Segment} {r : Rejection} (hsegment : segment.Simple)
    (hr : ∀ s ∈ r.trail, s.Simple) : (r.below [segment]).report = r.report.behind segment := by
  have hsimple : ∀ s ∈ segment :: r.trail, s.Simple := List.forall_mem_cons.mpr ⟨hsegment, hr⟩
  rw [report, report, below, Failure.behind, List.singleton_append, pathText_cons hsimple]

/-- The rejections that a child leaves have simple trails. -/
theorem simple_of_outcome {scope : Scope} {schema : Schema} {v : Value} {verdict : Bool}
    (hfields : schema.SimpleFields) (hcalm : scope.heap.Calm v)
    (h : (schema.outcome scope scope.maxDepth v).result = .ok verdict) :
    ∀ r ∈ (schema.outcome scope scope.maxDepth v).rejections, ∀ s ∈ r.trail, s.Simple := by
  cases verdict with
  | true =>
    rw [schema.outcome_clean scope _ v h]
    exact nofun
  | false =>
    intro r hr
    exact (outcome_truthful _ (Nat.zero_add _) hcalm h r hr).simple hfields

/-! ### Failures put together -/

/-- The failure of a cause. -/
def Cause.failure (quote : Value → Text) (path : Text) (cause : Cause) : Failure :=
  ⟨path, cause.code, cause.message quote⟩

/-- How a rejecting plan puts its failures together, given what explains its rules on their own,
    and in what way their failures are told again.  There is always one failure of the node itself,
    the last:

    * at its own path, and the only one, if the value is not looked into;
    * at the path of the first part that is rejected, behind the failures of that part;
    * at its own path, behind the failures of all members, if all members are asked. -/
inductive Plan.Composed (quote : Value → Text) (explains : Schema → Value → Explanation → Prop)
    (retold : Failure → Failure → Prop) (v : Value) : Plan → List Failure → Prop where
  | refuse (cause : Cause) :
    Composed quote explains retold v (.refuse cause) [cause.failure quote ""]
  | inTurn {front back : List Part} {part : Part} {w : Value} {e : Explanation}
    {inner : List Failure}
    (hfront : ∀ earlier ∈ front, ∃ x e, earlier.content = .ok x ∧ explains earlier.rule x e ∧
      e.valid = true)
    (hw : part.content = .ok w) (hpart : explains part.rule w e) (hvalid : e.valid = false)
    (hinner : List.Forall₂ retold (e.failures.map (Failure.behind part.place.segment)) inner) :
    Composed quote explains retold v (.inTurn (front ++ part :: back))
      (inner ++ [(part.place.cause w).failure quote (pathText [part.place.segment])])
  | anyOf {members : List Schema} {es : List Explanation} {inner : List Failure}
    (hes : List.Forall₂ (fun member e => explains member v e ∧ e.valid = false) members es)
    (hinner : List.Forall₂ retold (es.flatMap Explanation.failures) inner) :
    Composed quote explains retold v (.anyOf members)
      (inner ++ [(Cause.noMember members.length v).failure quote ""])
  | allOf {members : List Schema} {es : List Explanation} {inner : List Failure}
    (hes : List.Forall₂ (fun member e => explains member v e ∧ (e.valid = true → e.failures = []))
      members es)
    (hfalse : false ∈ es.map Explanation.valid)
    (hinner : List.Forall₂ retold (es.flatMap Explanation.failures) inner) :
    Composed quote explains retold v (.allOf members)
      (inner ++ [(Cause.someMember (es.map Explanation.valid) v).failure quote ""])

/-! ### Explanations of children -/

/-- The call that explains a value returns an explanation. -/
def Session.Explains (s : Session) (schema : Schema) (v : Value) (explanation : Explanation) :
    Prop :=
  ∃ t, explain schema v s = .ok explanation t

/-- The nodes that have children. -/
def Schema.Combines : Schema → Prop
  | .shape _ | .array _ | .tuple _ | .union _ | .intersection _ | .taggedUnion _ _ => True
  | .primitive _ | .literal _ _ | .predicate _ _ | .bare => False

section Children

variable {s : Session} {settings : Settings} {schema : Schema} {v : Value} {verdict : Bool}

/-- An evaluation with a verdict is explained. -/
theorem explains_of_outcome (hs : s.Settled settings) {o : Outcome Bool}
    (ho : schema.outcome (s.scope settings true) settings.maxDepth v = o)
    (h : o.result = .ok verdict) :
    s.Explains schema v ⟨verdict, o.rejections.map Rejection.report⟩ := by
  have hroot : schema.rootOutcome (s.scope settings true) v = o := by
    rw [← ho] at h ⊢
    exact Outcome.rooted_of_ok h
  refine ⟨s.evaluated settings o.calls, ?_⟩
  rw [explain_eq schema v hs hroot, h]
  rfl

/-- An explanation tells what some rejections tell, apart from the bounds that are quoted: as it
    is, and also behind a segment. -/
structure Tells (n n' : Nat) (e : Explanation) (rejections : List Rejection) : Prop where
  here : List.Forall₂ (Failure.Retold n n') e.failures (rejections.map Rejection.report)
  behind : ∀ segment : Segment, segment.Simple →
    List.Forall₂ (Failure.Retold n n') (e.failures.map (Failure.behind segment))
      ((rejections.map (Rejection.below [segment])).map Rejection.report)

theorem Tells.of_retold {n n' : Nat} {rejections rejections' : List Rejection}
    (hsimple : ∀ r ∈ rejections, ∀ segment ∈ r.trail, segment.Simple)
    (h : List.Forall₂ (Rejection.Retold n n') rejections rejections') :
    Tells n n' ⟨verdict, rejections.map Rejection.report⟩ rejections' where
  here := by
    rw [List.forall₂_map_left_iff, List.forall₂_map_right_iff]
    exact h.imp fun r r' hr => hr.report
  behind segment hsegment := by
    have hbehind : (rejections.map Rejection.report).map (Failure.behind segment) =
        (rejections.map (Rejection.below [segment])).map Rejection.report := by
      rw [List.map_map, List.map_map]
      exact List.map_congr_left fun r hr => (Rejection.report_below hsegment (hsimple r hr)).symm
    rw [hbehind]
    simp only [List.forall₂_map_left_iff, List.forall₂_map_right_iff]
    exact h.imp fun r r' hr => (hr.below [segment]).report

/-- What a child comes to below a node is explained by a call of its own, which has as many
    levels as are left there. -/
theorem exists_explanation {σ : Scope} (hs : s.Settled settings) (hheap : σ.heap = s.store.heap)
    (hlimit : σ.renderLimit = settings.renderLimit) (hcollect : σ.collect = true)
    (hfields : schema.SimpleFields)
    (hpure : schema.EveryTest fun test _ => test.Pure s.store.heap) (hcalm : s.store.heap.Calm v)
    (h : (schema.outcome σ settings.maxDepth v).result = .ok verdict) :
    ∃ e, s.Explains schema v e ∧ e.valid = verdict ∧
      Tells settings.maxDepth σ.maxDepth e (schema.outcome σ settings.maxDepth v).rejections := by
  have hscope : σ.heap = (s.scope settings true).heap := hheap
  have halike := outcome_retold hscope hlimit hcollect settings.maxDepth hpure v
  have hown := halike.result.symm.trans h
  refine ⟨_, explains_of_outcome hs rfl hown, rfl, ?_⟩
  exact .of_retold (simple_of_outcome hfields hcalm hown) halike.rejections

end Children

/-! ### Composition -/

/-- A node with children neither answers for itself nor calls a test. -/
theorem Schema.Combines.plan_ne {schema : Schema} (h : schema.Combines) (heap : Heap) (v : Value) :
    (∀ verdict, schema.plan heap v ≠ .answer verdict) ∧
      ∀ test name, schema.plan heap v ≠ .call test name := by
  cases schema with
  | primitive kind | literal constant canonical | predicate test name | bare => exact h.elim
  | _ =>
    simp only [Schema.plan, tagPlan, variantPlan]
    repeat' split
    all_goals exact ⟨fun _ => Plan.noConfusion, fun _ _ => Plan.noConfusion⟩

/-- Where rejections are collected, a note is one failure. -/
theorem report_note {scope : Scope} (hcollect : scope.collect = true) (cause : Cause) :
    (scope.note cause).map Rejection.report = [cause.failure scope.quote ""] := by
  rw [Scope.note, if_pos hcollect]
  rfl

theorem report_note_below {scope : Scope} (hcollect : scope.collect = true) (cause : Cause)
    (trail : List Segment) :
    ((scope.note cause).map (Rejection.below trail)).map Rejection.report =
      [cause.failure scope.quote (pathText trail)] := by
  rw [Scope.note, if_pos hcollect, List.map_singleton, List.map_singleton, Rejection.below,
    List.append_nil]
  rfl

theorem exists_forall₂ {α β : Type} {p : α → β → Prop} {l : List α} (h : ∀ a ∈ l, ∃ b, p a b) :
    ∃ bs, List.Forall₂ p l bs := by
  induction l with
  | nil => exact ⟨[], .nil⟩
  | cons a rest ih =>
    obtain ⟨b, hb⟩ := h a List.mem_cons_self
    obtain ⟨bs, hbs⟩ := ih fun c hc => h c (List.mem_cons_of_mem a hc)
    exact ⟨b :: bs, .cons hb hbs⟩

/-- The explanations of members, one after the other, tell what the members leave. -/
theorem forall₂_flatMap_failures {n n' : Nat} {judge : Schema → Outcome Bool}
    {members : List Schema} {es : List Explanation}
    (h : List.Forall₂ (fun member e => Tells n n' e (judge member).rejections) members es) :
    List.Forall₂ (Failure.Retold n n') (es.flatMap Explanation.failures)
      ((members.flatMap fun member => (judge member).rejections).map Rejection.report) := by
  induction h with
  | nil => exact .nil
  | cons htells _ ih =>
    rw [List.flatMap_cons, List.flatMap_cons, List.map_append]
    exact List.rel_append htells.here ih

section Composition

variable {σ : Scope} {judge : Schema → Value → Outcome Bool}
  {explains : Schema → Value → Explanation → Prop} {n n' : Nat} {schema : Schema} {v : Value}
  (hchild : ∀ {trail child w verdict}, Schema.Step σ.heap schema v trail child w →
    (judge child w).result = .ok verdict →
      ∃ e, explains child w e ∧ e.valid = verdict ∧ Tells n n' e (judge child w).rejections)
include hchild

/-- If the children are explained, the failures of a rejection are put together from
    explanations. -/
theorem Plan.Rejects.composed {plan : Plan} {rejections : List Rejection}
    (h : plan.Rejects σ judge v rejections) (hplan : schema.plan σ.heap v = plan)
    (hclean : ∀ rule w, (judge rule w).Clean) (hcollect : σ.collect = true)
    (hcombines : schema.Combines) (hfields : schema.SimpleFields) :
    plan.Composed σ.quote explains (Failure.Retold n n') v (rejections.map Rejection.report) := by
  obtain ⟨hanswer, hcall⟩ := hcombines.plan_ne σ.heap v
  cases h with
  | answer => exact absurd hplan (hanswer _)
  | fails htest => exact absurd hplan (hcall _ _)
  | raises htest hfatal hshown => exact absurd hplan (hcall _ _)
  | refuse cause =>
    rw [report_note hcollect]
    exact .refuse cause
  | @inTurn front back part w hfront hw hpart =>
    -- every part that was looked into is one step away, and so explained
    have hmem : part ∈ front ++ part :: back := List.mem_append_right _ List.mem_cons_self
    have hs := Schema.step_of_content hplan hmem hw
    obtain ⟨e, he, hvalid, htells⟩ := hchild hs hpart
    have hsegment : part.place.segment.Simple := hs.simple hfields _ List.mem_cons_self
    rw [List.map_append, List.map_append, report_note_below hcollect]
    refine .inTurn (fun earlier hearlier => ?_) hw he hvalid (htells.behind _ hsegment)
    obtain ⟨x, hx, htrue⟩ := hfront earlier hearlier
    have hs' := Schema.step_of_content hplan (List.mem_append_left _ hearlier) hx
    obtain ⟨e', he', hvalid', -⟩ := hchild hs' htrue
    exact ⟨x, e', hx, he', hvalid'⟩
  | @anyOf members hall =>
    obtain rfl : schema = .union members := Schema.eq_of_plan hplan
    obtain ⟨es, hes⟩ := exists_forall₂ fun member hm => hchild (.alternative hm) (hall member hm)
    rw [List.map_append, report_note hcollect]
    refine .anyOf (hes.imp fun member e he => ⟨he.1, he.2.1⟩) (forall₂_flatMap_failures ?_)
    exact hes.imp fun member e he => he.2.2
  | @allOf members verdicts hverdicts hfalse =>
    obtain rfl : schema = .intersection members := Schema.eq_of_plan hplan
    have hmember : ∀ member ∈ members, ∃ e, explains member v e ∧
        (judge member v).result = .ok e.valid ∧ Tells n n' e (judge member v).rejections := by
      intro member hm
      obtain ⟨verdict, -, hverdict⟩ := Outcome.exists_verdict_of_mem hverdicts hm
      obtain ⟨e, he, rfl, htells⟩ := hchild (.conjunct hm) hverdict
      exact ⟨e, he, hverdict, htells⟩
    obtain ⟨es, hes⟩ := exists_forall₂ hmember
    -- the verdicts that the note counts are those of the explanations
    have hvalid : verdicts = es.map Explanation.valid := by
      apply List.map_injective_iff.mpr fun _ _ => Except.ok.inj
      rw [hverdicts, List.map_map, ← List.forall₂_eq_eq_eq, List.forall₂_map_left_iff,
        List.forall₂_map_right_iff]
      exact hes.imp fun member e he => he.2.1
    subst hvalid
    rw [List.map_append, report_note hcollect]
    refine .allOf (hes.imp fun member e he => ⟨he.1, fun htrue => ?_⟩) hfalse
      (forall₂_flatMap_failures (hes.imp fun member e he => he.2.2))
    -- a member that accepts leaves nothing, so there is nothing to tell
    have hnone := hclean member v (he.2.1.trans (congrArg Except.ok htrue))
    have htells := he.2.2.here
    rw [hnone] at htells
    exact List.forall₂_nil_right_iff.mp htells

end Composition

end Conform
