import Conform.Proofs.Observation
import Conform.Proofs.Totality

namespace Conform

/-!
# Recovery from an exhausted stack

A look-up that exhausts the stack ends the evaluation at whatever place it is made.  The root takes it
for one more rejection.  Of the rejections noted before, those outside of all unions that were being
evaluated are kept, in order; those of the members of such unions are gone with their separate lists.

* `Noted`, `kept` — rejections noted before a fault, and those that are kept;
* `Schema.Interrupted` — a look-up raises a fault, with what is noted up to then: one rule for every
  way from a node to the place of the look-up;
* `Schema.Interrupted.outcome_eq` — the evaluation ends in that fault, and leaves what is kept;
* `evaluate_error_iff_interrupted` — with a conclusive schema, an exhausted stack ends an evaluation
  in no other way;
* `evaluate_predicate_of_exhausted` — a test that exhausts the stack rejects, like for any fault;
* `recovery_from_exhausted_stack` — what the top-level calls make of both.
-/

/-! ### Rejections before a fault -/

/-- A rejection that is noted before a fault, and whether a union is being evaluated around it when the
    fault is raised. -/
structure Noted where
  rejection : Rejection
  inUnion : Bool
  deriving DecidableEq, Inhabited

namespace Noted

/-- A rejection outside of all unions that are being evaluated. -/
def outside (r : Rejection) : Noted := ⟨r, false⟩

/-- The note as it is seen from further outside. -/
def below (trail : List Segment) (note : Noted) : Noted :=
  { note with rejection := note.rejection.below trail }

/-- The note as it is seen from a union that is being evaluated. -/
def underUnion (note : Noted) : Noted := { note with inUnion := true }

end Noted

/-- The rejections outside of all unions that are being evaluated. -/
def kept (notes : List Noted) : List Rejection :=
  (notes.filter fun note => !note.inUnion).map Noted.rejection

@[simp] theorem kept_append (notes notes' : List Noted) :
    kept (notes ++ notes') = kept notes ++ kept notes' := by
  simp [kept]

@[simp] theorem kept_outside (rejections : List Rejection) :
    kept (rejections.map Noted.outside) = rejections := by
  induction rejections with
  | nil => rfl
  | cons r rest ih => exact congrArg (r :: ·) ih

@[simp] theorem kept_underUnion (notes : List Noted) : kept (notes.map Noted.underUnion) = [] := by
  induction notes with
  | nil => rfl
  | cons note rest ih => exact ih

@[simp] theorem kept_below (trail : List Segment) (notes : List Noted) :
    kept (notes.map (Noted.below trail)) = (kept notes).map (Rejection.below trail) := by
  induction notes with
  | nil => rfl
  | cons note rest ih =>
    obtain ⟨r, inUnion⟩ := note
    cases inUnion with
    | true => exact ih
    | false => exact congrArg (r.below trail :: ·) ih

/-! ### Interrupted evaluations -/

/-- With a number of levels left, the evaluation of a schema on a value comes to a look-up that raises
    a fault, after it has taken some notes:

    * the tag of a tagged union, or a part of the value after parts that are accepted, cannot be
      looked up;
    * the look-up is made for a part of the value, after parts that are accepted;
    * it is made by a member of a union, after members that reject: what they have noted, and what the
      member itself has noted, is in a union that is being evaluated;
    * it is made by a member of an intersection, after members with a verdict. -/
inductive Schema.Interrupted (scope : Scope) (fault : Fault) :
    Nat → Schema → Value → List Noted → Prop where
  | tag {levels : Nat} {schema : Schema} {v : Value} (hrule : schema ≠ .bare)
    (hplan : schema.plan scope.heap v = .raise fault) :
    Interrupted scope fault (levels + 1) schema v []
  | content {levels : Nat} {schema : Schema} {v : Value} {front back : List Part} {part : Part}
    (hplan : schema.plan scope.heap v = .inTurn (front ++ part :: back))
    (hfront : ∀ other ∈ front, (other.outcome scope (outcome scope levels)).result = .ok true)
    (hcontent : part.content = .error fault) : Interrupted scope fault (levels + 1) schema v []
  | part {levels : Nat} {schema : Schema} {v w : Value} {front back : List Part} {part : Part}
    {notes : List Noted} (hplan : schema.plan scope.heap v = .inTurn (front ++ part :: back))
    (hfront : ∀ other ∈ front, (other.outcome scope (outcome scope levels)).result = .ok true)
    (hcontent : part.content = .ok w) (h : Interrupted scope fault levels part.rule w notes) :
    Interrupted scope fault (levels + 1) schema v
      (notes.map (Noted.below [part.place.segment]))
  | union {levels : Nat} {front back : List Schema} {member : Schema} {v : Value}
    {notes : List Noted} (hfront : ∀ other ∈ front, (outcome scope levels other v).result = .ok false)
    (h : Interrupted scope fault levels member v notes) :
    Interrupted scope fault (levels + 1) (.union (front ++ member :: back)) v
      (((front.flatMap fun other => (outcome scope levels other v).rejections).map Noted.outside ++
        notes).map Noted.underUnion)
  | intersection {levels : Nat} {front back : List Schema} {member : Schema} {v : Value}
    {notes : List Noted}
    (hfront : ∀ other ∈ front, ∃ verdict, (outcome scope levels other v).result = .ok verdict)
    (h : Interrupted scope fault levels member v notes) :
    Interrupted scope fault (levels + 1) (.intersection (front ++ member :: back)) v
      ((front.flatMap fun other => (outcome scope levels other v).rejections).map Noted.outside ++
        notes)

namespace Outcome

section Lists

variable {α : Type} {check : α → Outcome Bool} {front back : List α} {a : α} {fault : Fault}
  (ha : (check a).result = .error fault)
include ha

/-- A fault ends checks up to the first rejection; what was noted before is left. -/
theorem allOf_of_error (hfront : ∀ b ∈ front, (check b).result = .ok true) :
    (allOf check (front ++ a :: back)).result = .error fault ∧
      (allOf check (front ++ a :: back)).rejections =
        front.flatMap (fun b => (check b).rejections) ++ (check a).rejections := by
  induction front with
  | nil =>
    rw [List.nil_append, allOf, andThen_of_error _ ha]
    exact ⟨ha, rfl⟩
  | cons b rest ih =>
    obtain ⟨hb, hrest⟩ := List.forall_mem_cons.mp hfront
    obtain ⟨hresult, hrejections⟩ := ih hrest
    rw [List.cons_append, allOf, andThen_of_true _ hb, List.flatMap_cons, List.append_assoc,
      ← hrejections]
    exact ⟨hresult, rfl⟩

/-- A fault ends checks up to the first acceptance. -/
theorem anyOf_of_error (hfront : ∀ b ∈ front, (check b).result = .ok false) :
    (anyOf check (front ++ a :: back)).result = .error fault := by
  induction front with
  | nil =>
    rw [List.nil_append, anyOf, orElse_of_error _ ha]
    exact ha
  | cons b rest ih =>
    obtain ⟨hb, hrest⟩ := List.forall_mem_cons.mp hfront
    rw [List.cons_append, anyOf, orElse_of_false _ hb]
    exact ih hrest

/-- A fault ends checks to the end; what was noted before is left. -/
theorem each_of_error (hfront : ∀ b ∈ front, ∃ verdict, (check b).result = .ok verdict) :
    (each check (front ++ a :: back)).result = .error fault ∧
      (each check (front ++ a :: back)).rejections =
        front.flatMap (fun b => (check b).rejections) ++ (check a).rejections := by
  induction front with
  | nil =>
    rw [List.nil_append, each, bind_of_error ha]
    exact ⟨rfl, rfl⟩
  | cons b rest ih =>
    obtain ⟨⟨verdict, hb⟩, hrest⟩ := List.forall_mem_cons.mp hfront
    obtain ⟨hresult, hrejections⟩ := ih hrest
    rw [List.cons_append, each, bind_of_ok hb, bind_of_error hresult, List.flatMap_cons,
      List.append_assoc, ← hrejections]
    exact ⟨rfl, rfl⟩

end Lists

end Outcome

section Evaluations

variable {scope : Scope} {fault : Fault} (hkind : fault.kind = .exhausted)

/-- Parts that are accepted leave nothing. -/
theorem Part.rejections_of_front {levels : Nat} {front : List Part}
    (hfront : ∀ other ∈ front,
      (other.outcome scope (Schema.outcome scope levels)).result = .ok true) :
    front.flatMap (fun other => (other.outcome scope (Schema.outcome scope levels)).rejections) =
      [] := by
  rw [List.flatMap_eq_nil_iff]
  intro other ho
  exact other.outcome_clean (fun rule w => rule.outcome_clean scope levels w) (hfront other ho)

include hkind

/-- An exhausted stack ends the evaluation, and the rejections outside of interrupted unions are
    left. -/
theorem Schema.Interrupted.outcome_eq {levels : Nat} {schema : Schema} {v : Value}
    {notes : List Noted} (h : schema.Interrupted scope fault levels v notes) :
    (schema.outcome scope levels v).result = .error fault ∧
      (schema.outcome scope levels v).rejections = kept notes := by
  induction h with
  | tag hrule hplan =>
    rw [outcome, hplan]
    exact ⟨rfl, rfl⟩
  | @content levels _ _ _ _ part hplan hfront hcontent =>
    have hpart : part.outcome scope (outcome scope levels) = .ofExcept (.error fault) := by
      rw [Part.outcome, hcontent]
      rfl
    obtain ⟨hresult, hrejections⟩ := Outcome.allOf_of_error (by rw [hpart]; rfl) hfront
    rw [outcome, hplan]
    refine ⟨hresult, hrejections.trans ?_⟩
    rw [Part.rejections_of_front hfront, hpart]
    rfl
  | @part levels _ _ w _ _ part _ hplan hfront hcontent _ ih =>
    obtain ⟨hrule, hnotes⟩ := ih
    have hpart : part.outcome scope (outcome scope levels) =
        (outcome scope levels part.rule w).below [part.place.segment] := by
      rw [Part.outcome, hcontent, Outcome.ofExcept_ok_bind, Outcome.orElse_of_error _ hrule]
    obtain ⟨hresult, hrejections⟩ := Outcome.allOf_of_error (by rw [hpart]; exact hrule) hfront
    rw [outcome, hplan]
    refine ⟨hresult, hrejections.trans ?_⟩
    rw [Part.rejections_of_front hfront, hpart, kept_below, ← hnotes]
    rfl
  | @union levels front back member v notes hfront _ ih =>
    -- the separate list of the union is not added to the outer one
    have hany : (Outcome.anyOf (outcome scope levels · v) (front ++ member :: back)).result =
        .error fault := Outcome.anyOf_of_error ih.1 hfront
    have htrial : (((Outcome.anyOf (outcome scope levels · v) (front ++ member :: back)).mapFault
        Fault.throughIteration).tentative).result = .error fault := by
      simp only [Outcome.tentative, Outcome.mapFault, hany, Outcome.mapError_error,
        Fault.throughIteration_of_exhausted hkind]
    rw [outcome, plan, Plan.outcome, Outcome.orElse_of_error _ htrial, kept_underUnion]
    refine ⟨htrial, ?_⟩
    simp only [Outcome.tentative, Outcome.mapFault, hany, Outcome.mapError_error]
  | @intersection levels front back member v notes hfront _ ih =>
    obtain ⟨hmember, hnotes⟩ := ih
    have heach : (Outcome.each (outcome scope levels · v) (front ++ member :: back)).result =
          .error fault ∧
        (Outcome.each (outcome scope levels · v) (front ++ member :: back)).rejections =
          front.flatMap (fun other => (outcome scope levels other v).rejections) ++
            (outcome scope levels member v).rejections := Outcome.each_of_error hmember hfront
    obtain ⟨hresult, hrejections⟩ := heach
    rw [outcome, plan, Plan.outcome, Outcome.bind_of_error hresult, kept_append, kept_outside,
      ← hnotes]
    exact ⟨rfl, hrejections⟩

/-- With a conclusive schema, an exhausted stack ends an evaluation only if a look-up raises it. -/
theorem exists_interrupted_of_outcome {levels : Nat} {schema : Schema} {v : Value}
    (hschema : schema.Conclusive scope)
    (h : (schema.outcome scope levels v).result = .error fault) :
    ∃ notes, schema.Interrupted scope fault levels v notes := by
  rw [outcome_raises_iff] at h
  induction levels generalizing schema v with
  | zero => exact h.elim
  | succ levels ih =>
    rw [Schema.Raises] at h
    cases hplan : schema.plan scope.heap v with
    | answer verdict | refuse cause =>
      rw [hplan] at h
      exact h.elim
    | raise raised =>
      rw [hplan] at h
      obtain rfl : raised = fault := h
      exact ⟨[], .tag (fun hbare => hschema.ruled (hbare ▸ .self)) hplan⟩
    | inTurn parts =>
      rw [hplan] at h
      obtain ⟨front, part, back, rfl, hfront, hcontent | ⟨w, hcontent, hraises⟩⟩ := h
      · exact ⟨[], .content hplan hfront hcontent⟩
      · have hpart : part ∈ front ++ part :: back :=
          List.mem_append_right front List.mem_cons_self
        have hstep := Schema.step_of_content hplan hpart hcontent
        obtain ⟨notes, hnotes⟩ := ih (hschema.child hstep.mem_children) hraises
        exact ⟨_, .part hplan hfront hcontent hnotes⟩
    | anyOf members =>
      rw [hplan] at h
      obtain rfl : schema = .union members := Schema.eq_of_plan hplan
      obtain ⟨raised, ⟨front, member, back, rfl, hfront, hraises⟩, hthrough⟩ := h
      -- the iteration over the members makes no exhausted stack out of other faults
      obtain rfl : raised = fault := by
        rw [Fault.throughIteration] at hthrough
        split at hthrough
        · rw [← hthrough] at hkind
          cases hkind
        · exact hthrough
      have hchild : member ∈ (Schema.union (front ++ member :: back)).children :=
        List.mem_append_right front List.mem_cons_self
      obtain ⟨notes, hnotes⟩ := ih (hschema.child hchild) hraises
      exact ⟨_, .union hfront hnotes⟩
    | allOf members =>
      rw [hplan] at h
      obtain rfl : schema = .intersection members := Schema.eq_of_plan hplan
      obtain ⟨front, member, back, rfl, hfront, hraises⟩ := h
      have hchild : member ∈ (Schema.intersection (front ++ member :: back)).children :=
        List.mem_append_right front List.mem_cons_self
      obtain ⟨notes, hnotes⟩ := ih (hschema.child hchild) hraises
      exact ⟨_, .intersection hfront hnotes⟩
    | call test name =>
      rw [hplan] at h
      obtain rfl : schema = .predicate test name := Schema.eq_of_plan hplan
      -- no fault of a test is fatal, and all of them can be shown
      obtain ⟨raised, hraised, hfault⟩ := h
      have hordinary := hschema.tests test name .self v raised hraised
      rw [hordinary, if_neg Bool.false_ne_true] at hfault
      obtain ⟨cause, hcause⟩ := hschema.shown hfault.1 test name .self v raised hraised hordinary
      cases hcause.symm.trans hfault.2

/-- At the root, an exhausted stack is a rejection, noted after those that are kept. -/
theorem Schema.Interrupted.rootOutcome_eq {schema : Schema} {v : Value} {notes : List Noted}
    (h : schema.Interrupted scope fault scope.maxDepth v notes) :
    (schema.rootOutcome scope v).result = .ok false ∧
      (schema.rootOutcome scope v).rejections = kept notes ++ scope.note .noStack := by
  obtain ⟨hresult, hrejections⟩ := h.outcome_eq hkind
  rw [rootOutcome, Outcome.rooted, Outcome.recover, hresult]
  simp only [hkind, if_true]
  refine ⟨rfl, ?_⟩
  rw [← hrejections]
  rfl

/-- An evaluation from the root ends in an exhausted stack only if it comes to such a look-up. -/
theorem evaluate_error_iff_interrupted {schema : Schema} {v : Value}
    (hschema : schema.Conclusive scope) :
    (∃ ctx, evaluate scope schema v Context.initial = .error fault ctx) ↔
      ∃ notes, schema.Interrupted scope fault scope.maxDepth v notes := by
  -- an evaluation ends as its outcome does
  have hyields := evaluate_yields scope schema v 0 Context.initial rfl
  rw [Nat.sub_zero] at hyields
  rw [hyields]
  constructor
  · rintro ⟨ctx, hctx⟩
    refine exists_interrupted_of_outcome hkind hschema ?_
    cases hr : (schema.outcome scope scope.maxDepth v).result with
    | ok verdict =>
      rw [Outcome.onto_of_ok hr] at hctx
      cases hctx
    | error raised =>
      rw [Outcome.onto_of_error hr] at hctx
      obtain ⟨rfl, -⟩ := EStateM.Result.error.inj hctx
      rfl
  · rintro ⟨notes, h⟩
    exact ⟨_, Outcome.onto_of_error (h.outcome_eq hkind).1 _⟩

/-- A test that exhausts the stack rejects: the fault is noted like every other, and the evaluation
    goes on from there. -/
theorem evaluate_predicate_of_exhausted {test : Test} {name x : Value} {cause : Cause}
    (hraises : scope.raises test x fault)
    (hcause : scope.collect = true → scope.heap.raisedCause name fault = .ok cause) {ctx : Context}
    (hdepth : ctx.depth < scope.maxDepth) :
    ∃ calls, evaluate scope (.predicate test name) x ctx =
      .ok false
        { ctx with
          rejections := ctx.rejections ++
            if scope.collect then [⟨ctx.trail, .predicateError, cause.message scope.quote⟩] else []
          calls := ctx.calls ++ calls } := by
  have hfatal : fault.isFatal = false := by rw [Fault.isFatal, hkind]; rfl
  obtain ⟨levels, hlevels⟩ : ∃ levels, scope.maxDepth - ctx.depth = levels + 1 :=
    Nat.exists_eq_succ_of_ne_zero (by omega)
  -- the fault stops at the predicate, which does not tell an exhausted stack from other faults
  have houtcome : (Schema.predicate test name).outcome scope (levels + 1) x =
      ⟨.ok false, scope.note cause, (test.outcome scope x).calls⟩ := by
    rw [Schema.outcome, Schema.plan, Plan.outcome, Outcome.recover, Test.raises_iff.mp hraises]
    simp only [faultOutcome_of_cause hcause hfatal, Outcome.refusal, Outcome.after,
      Test.outcome_rejections, List.nil_append, List.append_nil]
  have hnote : (scope.note cause).map (Rejection.below ctx.trail) =
      if scope.collect then [⟨ctx.trail, .predicateError, cause.message scope.quote⟩] else [] := by
    by_cases hcollect : scope.collect = true
    · obtain ⟨shown, sentence, -, -, rfl⟩ := Heap.raisedCause_eq_ok_iff.mp (hcause hcollect)
      rw [Scope.note, if_pos hcollect, if_pos hcollect, List.map_singleton, Rejection.below,
        List.append_nil]
      rfl
    · rw [Scope.note, if_neg hcollect, if_neg hcollect, List.map_nil]
  rw [evaluate_yields scope (.predicate test name) x ctx.depth ctx rfl, hlevels, houtcome,
    Outcome.onto_of_ok rfl, Outcome.settle, hnote]
  exact ⟨_, rfl⟩

end Evaluations

/-! ### Top-level calls -/

/-- The report of an exhausted stack has the path of the root. -/
theorem report_noStack {scope : Scope} (h : scope.collect = true) :
    (scope.note .noStack).map Rejection.report = [⟨"", .depthExceeded,
      "Interpreter stack exhausted before max depth was reached"⟩] := by
  rw [Scope.note, if_pos h]
  rfl

section Calls

variable {s : Session} {settings : Settings} {schema : Schema} {v : Value} {fault : Fault}
  {notes : List Noted} (hsettings : s.Settled settings) (hkind : fault.kind = .exhausted)
include hsettings hkind

/-- An explanation shows what is kept, and the exhausted stack after it. -/
theorem explain_of_interrupted
    (h : schema.Interrupted (s.scope settings true) fault settings.maxDepth v notes) :
    ∃ t, explain schema v s =
      .ok ⟨false, (kept notes).map Rejection.report ++ [⟨"", .depthExceeded,
        "Interpreter stack exhausted before max depth was reached"⟩]⟩ t := by
  obtain ⟨hresult, hrejections⟩ := h.rootOutcome_eq hkind
  have hexplain := explain_eq schema v hsettings rfl
  rw [hresult, hrejections, List.map_append, report_noStack rfl] at hexplain
  exact ⟨_, hexplain⟩

/-- A run rejects.  Whether failures are collected makes no difference where the faults of tests can be
    shown. -/
theorem run_of_interrupted {opts : Value} {options : Options}
    (hopts : Options.coerce s.store.heap opts = .ok options)
    (hsink : options.logFailures = true → ∀ sink, options.sink = some sink → s.Harmless sink)
    {collect : Bool}
    (hshown : collect = options.logFailures ∨ schema.FaultsShown (s.scope settings collect))
    (h : schema.Interrupted (s.scope settings collect) fault settings.maxDepth v notes) :
    ∃ t, run schema v opts s = .ok false t := by
  have hlike : Likeness (s.scope settings collect) (s.scope settings options.logFailures)
    (fun _ _ => True) Eq := .ofCollect rfl
  have halike := rootOutcome_alike hlike rfl (hshown.imp_left Eq.symm) v
  exact run_of_verdict hsettings hopts hsink (halike.result.trans (h.rootOutcome_eq hkind).1)

end Calls

/-- If an evaluation comes to a look-up that exhausts the stack, an explanation rejects the value,
    with the failures noted up to then outside of the unions that are being evaluated, in order, and
    one more at the root; and a run returns a rejection, whatever it is asked to write.  With a
    conclusive schema, an exhausted stack leaves an evaluation only in this way: a test that exhausts
    the stack leaves one failure of its own, and the evaluation goes on. -/
theorem recovery_from_exhausted_stack {s : Session} {settings : Settings} {schema : Schema}
    {v : Value} (hsettings : s.Settled settings) :
    (∀ fault notes, fault.kind = .exhausted →
      schema.Interrupted (s.scope settings true) fault settings.maxDepth v notes →
      ∃ t, explain schema v s =
        .ok ⟨false, (kept notes).map Rejection.report ++ [⟨"", .depthExceeded,
          "Interpreter stack exhausted before max depth was reached"⟩]⟩ t) ∧
    (∀ opts options, Options.coerce s.store.heap opts = .ok options →
      (options.logFailures = true → ∀ sink, options.sink = some sink → s.Harmless sink) →
      ∀ collect fault notes, fault.kind = .exhausted →
        collect = options.logFailures ∨ schema.FaultsShown (s.scope settings collect) →
        schema.Interrupted (s.scope settings collect) fault settings.maxDepth v notes →
        ∃ t, run schema v opts s = .ok false t) ∧
    ∀ collect,
      let scope := s.scope settings collect
      (schema.Conclusive scope → ∀ fault, fault.kind = .exhausted →
        ((∃ ctx, evaluate scope schema v Context.initial = .error fault ctx) ↔
          ∃ notes, schema.Interrupted scope fault settings.maxDepth v notes)) ∧
      ∀ test name cause x fault ctx, scope.raises test x fault → fault.kind = .exhausted →
        (collect = true → scope.heap.raisedCause name fault = .ok cause) →
        ctx.depth < settings.maxDepth →
        ∃ calls, evaluate scope (.predicate test name) x ctx =
          .ok false
            { ctx with
              rejections := ctx.rejections ++
                if collect then [⟨ctx.trail, .predicateError, cause.message scope.quote⟩] else []
              calls := ctx.calls ++ calls } := by
  refine ⟨fun fault notes hkind h => explain_of_interrupted hsettings hkind h,
    fun opts options hopts hsink => ?_, fun collect => ⟨fun hschema fault hkind => ?_, ?_⟩⟩
  · intro collect fault notes hkind hshown h
    exact run_of_interrupted hsettings hkind hopts hsink hshown h
  · exact evaluate_error_iff_interrupted hkind hschema
  · intro test name cause x fault ctx hraises hkind hcause hdepth
    exact evaluate_predicate_of_exhausted hkind hraises hcause hdepth

/-- The second item of a list is a mapping that exhausts the stack.  It is looked up in a member of a
    union inside of an array, which is a member of another union: of the failures noted before, the one
    outside of both unions is left. -/
theorem recovery_within_two_unions :
    let inner := Schema.intersection
      [.array (.primitive .null), .shape [(.plain "n", .primitive .number)]]
    let outer := Schema.union [.tuple [], .array (.union [.primitive .null, inner])]
    let schema := Schema.intersection [.shape [], outer]
    let fault : Fault := ⟨.exhausted, none⟩
    let cells := [.guarded [(.str "n", .int 1)] ⟨[.str "n"], .read, fault⟩, .list [.null, .ref 0]]
    let s := Session.holding cells ⟨6, 16⟩
    ∃ notes, schema.Interrupted (s.scope ⟨6, 16⟩ true) fault 6 (.ref 1) notes ∧
      notes.map (fun note => (note.rejection.trail, note.rejection.code, note.inUnion)) =
        [([], .invalidType, false), ([], .lengthMismatch, true), ([.index 1], .invalidType, true)] ∧
      (∃ t, explain schema (.ref 1) s =
        .ok ⟨false, (kept notes).map Rejection.report ++ [⟨"", .depthExceeded,
          "Interpreter stack exhausted before max depth was reached"⟩]⟩ t) ∧
      ∃ t, run schema (.ref 1) .null s = .ok false t := by
  intro inner outer schema fault cells s
  let shape := Schema.shape [(.plain "n", .primitive .number)]
  let n : Part := ⟨.field (.plain "n"), .primitive .number, .error fault⟩
  let item (i : Nat) (w : Value) : Part := ⟨.item .array i, .union [.primitive .null, inner], .ok w⟩
  -- from the look-up outwards
  have hfield : shape.plan s.store.heap (.ref 0) = .inTurn ([] ++ n :: []) := rfl
  have hshape : shape.Interrupted (s.scope ⟨6, 16⟩ true) fault 1 (.ref 0) [] :=
    .content hfield nofun rfl
  have hitem := (.union (List.forall_mem_singleton.mpr rfl)
      (.intersection (List.forall_mem_singleton.mpr ⟨false, rfl⟩) hshape) :
    Schema.Interrupted (s.scope ⟨6, 16⟩ true) fault 3
      (.union ([.primitive .null] ++ inner :: [])) (.ref 0) _)
  have hlist : Schema.plan s.store.heap (.array (.union [.primitive .null, inner])) (.ref 1) =
      .inTurn ([item 0 .null] ++ item 1 (.ref 0) :: []) := rfl
  have harray := (.part hlist (List.forall_mem_singleton.mpr rfl) rfl hitem :
    Schema.Interrupted (s.scope ⟨6, 16⟩ true) fault 4
      (.array (.union [.primitive .null, inner])) (.ref 1) _)
  have hschema := (.intersection (List.forall_mem_singleton.mpr ⟨false, rfl⟩)
      (.union (List.forall_mem_singleton.mpr rfl) harray) :
    Schema.Interrupted (s.scope ⟨6, 16⟩ true) fault 6
      (.intersection ([.shape []] ++ outer :: [])) (.ref 1) _)
  have hshown : schema.FaultsShown (s.scope ⟨6, 16⟩ true) := .of_testsTo (n := 7) rfl nofun
  have hopts : Options.coerce s.store.heap .null = .ok .usual := rfl
  obtain ⟨hexplain, hrun, -⟩ :=
    @recovery_from_exhausted_stack s ⟨6, 16⟩ schema (.ref 1) (.inl rfl)
  exact ⟨_, hschema, rfl, hexplain fault _ rfl hschema,
    hrun .null .usual hopts nofun true fault _ rfl (.inr hshown) hschema⟩

end Conform
