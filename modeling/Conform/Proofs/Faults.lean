import Conform.Proofs.Meaning

namespace Conform

/-!
# Where faults come from

The faults that end an evaluation, followed down to where they are raised.  A fault stops every loop
on its way up, so before the member that raises it there are only members that let the loop go on.

* `First` — a list has a member with one property, and all members before it have another;
* `Plan.Raises` — where the fault that ends a plan comes from, one case for every kind of plan;
* `Schema.Raises` — the same for an evaluation with a number of levels left;
* `outcome_raises_iff` — an evaluation ends in the faults that come from somewhere, and in no
  others;
* `Outcome.rooted_eq_error_iff` — the root holds back one class of them.
-/

/-! ### The first member to raise -/

/-- Some member of a list has a property, and all members before it have another one. -/
def First {α : Type} (before here : α → Prop) (l : List α) : Prop :=
  ∃ front a back, l = front ++ a :: back ∧ (∀ b ∈ front, before b) ∧ here a

section First

variable {α : Type} {before here here' : α → Prop}

theorem not_first_nil : ¬ First before here [] := by
  rintro ⟨front, a, back, hl, -⟩
  simp at hl

theorem first_cons_iff {a : α} {rest : List α} :
    First before here (a :: rest) ↔ here a ∨ before a ∧ First before here rest := by
  constructor
  · rintro ⟨_ | ⟨b, front⟩, c, back, hl, hfront, hc⟩
    · cases hl
      exact .inl hc
    · cases hl
      obtain ⟨hb, hfront⟩ := List.forall_mem_cons.mp hfront
      exact .inr ⟨hb, front, c, back, rfl, hfront, hc⟩
  · rintro (ha | ⟨ha, front, c, back, rfl, hfront, hc⟩)
    · exact ⟨[], a, rest, rfl, nofun, ha⟩
    · exact ⟨a :: front, c, back, rfl, List.forall_mem_cons.mpr ⟨ha, hfront⟩, hc⟩

theorem First.exists_mem {l : List α} (h : First before here l) : ∃ a ∈ l, here a := by
  obtain ⟨front, a, back, rfl, -, ha⟩ := h
  exact ⟨a, List.mem_append_right _ List.mem_cons_self, ha⟩

theorem first_congr (h : ∀ a, here a ↔ here' a) {l : List α} :
    First before here l ↔ First before here' l := by
  obtain rfl : here = here' := funext fun a => propext (h a)
  rfl

end First

namespace Outcome

variable {α β : Type} {fault : Fault}

theorem bind_eq_error_iff {o : Outcome α} {next : α → Outcome β} :
    (o >>= next).result = .error fault ↔
      o.result = .error fault ∨ ∃ a, o.result = .ok a ∧ (next a).result = .error fault := by
  cases hr : o.result with
  | error raised => simp [bind_of_error hr]
  | ok a => simp [bind_of_ok hr, after]

theorem andThen_eq_error_iff {o o' : Outcome Bool} :
    (o.andThen o').result = .error fault ↔
      o.result = .error fault ∨ o.result = .ok true ∧ o'.result = .error fault := by
  rw [andThen, bind_eq_error_iff]
  simp

theorem orElse_eq_error_iff {o o' : Outcome Bool} :
    (o.orElse o').result = .error fault ↔
      o.result = .error fault ∨ o.result = .ok false ∧ o'.result = .error fault := by
  rw [orElse, bind_eq_error_iff]
  simp

theorem recover_eq_error_iff {o : Outcome α} {handle : Fault → Outcome α} :
    (o.recover handle).result = .error fault ↔
      ∃ raised, o.result = .error raised ∧ (handle raised).result = .error fault := by
  cases hr : o.result with
  | ok a => simp [recover, hr]
  | error raised => simp [recover, hr, after]

/-- A trial with a rejection behind it ends in a fault if what is tried does. -/
theorem trial_eq_error_iff {scope : Scope} {o : Outcome Bool} {change : Fault → Fault}
    {cause : Cause} :
    ((o.mapFault change).tentative.orElse (.refusal scope cause)).result = .error fault ↔
      ∃ raised, o.result = .error raised ∧ change raised = fault := by
  rw [orElse_eq_error_iff]
  rcases hr : o.result with raised | _ | _ <;> simp [tentative, mapFault, hr, refusal]

variable {check : α → Outcome Bool} {l : List α}

theorem allOf_eq_error_iff :
    (allOf check l).result = .error fault ↔
      First (fun a => (check a).result = .ok true) (fun a => (check a).result = .error fault) l := by
  induction l with
  | nil => exact iff_of_false nofun not_first_nil
  | cons a rest ih => rw [allOf, andThen_eq_error_iff, ih, first_cons_iff]

theorem anyOf_eq_error_iff :
    (anyOf check l).result = .error fault ↔
      First (fun a => (check a).result = .ok false) (fun a => (check a).result = .error fault) l := by
  induction l with
  | nil => exact iff_of_false nofun not_first_nil
  | cons a rest ih => rw [anyOf, orElse_eq_error_iff, ih, first_cons_iff]

theorem each_eq_error_iff :
    (each check l).result = .error fault ↔
      First (fun a => ∃ verdict, (check a).result = .ok verdict)
        (fun a => (check a).result = .error fault) l := by
  induction l with
  | nil => exact iff_of_false nofun not_first_nil
  | cons a rest ih =>
    -- the verdicts that are put together at the end raise nothing
    have hrest (verdict : Bool) :
        (do return verdict :: (← each check rest) : Outcome (List Bool)).result = .error fault ↔
          (each check rest).result = .error fault := by
      rw [bind_eq_error_iff]
      simp
    rw [each, bind_eq_error_iff, first_cons_iff, ← ih]
    simp only [hrest, exists_and_right]

end Outcome

/-! ### Where a fault comes from -/

/-- Where the fault comes from that ends the check of a part: the part cannot be read, or its rule
    raises the fault. -/
def Part.Raises (raises : Schema → Value → Fault → Prop) (fault : Fault) (part : Part) : Prop :=
  part.content = .error fault ∨ ∃ w, part.content = .ok w ∧ raises part.rule w fault

/-- Where the fault comes from that ends a plan, given what the rules raise:

    * a part before which all parts are accepted;
    * a member before which all members reject, or all have a verdict if all are asked; an end of an
      iteration is replaced on its way through the members of a union;
    * a fatal fault of a test;
    * the name of a predicate or the text of another fault of its test, when that fault is to be noted. -/
def Plan.Raises (scope : Scope) (judge : Schema → Value → Outcome Bool)
    (raises : Schema → Value → Fault → Prop) (v : Value) (fault : Fault) : Plan → Prop
  | .answer _ | .refuse _ => False
  | .raise raised => raised = fault
  | .inTurn parts =>
    First (fun part => (part.outcome scope judge).result = .ok true) (Part.Raises raises fault) parts
  | .anyOf members =>
    ∃ raised, First (fun member => (judge member v).result = .ok false) (raises · v raised) members ∧
      raised.throughIteration = fault
  | .allOf members =>
    First (fun member => ∃ verdict, (judge member v).result = .ok verdict) (raises · v fault) members
  | .call test name =>
    ∃ raised, scope.raises test v raised ∧
      if raised.isFatal then raised = fault
      else scope.collect = true ∧ scope.heap.raisedCause name raised = .error fault

/-- Where the fault comes from that ends an evaluation with a number of levels left. -/
def Schema.Raises (scope : Scope) : Nat → Schema → Value → Fault → Prop
  | 0, _, _, _ => False
  | levels + 1, schema, v, fault =>
    (schema.plan scope.heap v).Raises scope (outcome scope levels) (Raises scope levels) v fault

section Evaluations

variable {scope : Scope} {judge : Schema → Value → Outcome Bool}
  {raises : Schema → Value → Fault → Prop} {v : Value} {fault : Fault}

theorem Part.outcome_eq_error_iff {part : Part} :
    (part.outcome scope judge).result = .error fault ↔
      part.Raises (fun rule w raised => (judge rule w).result = .error raised) fault := by
  have hrule (w : Value) :
      (((judge part.rule w).orElse (.refusal scope (part.place.cause w))).below
        [part.place.segment]).result = .error fault ↔ (judge part.rule w).result = .error fault := by
    show (Outcome.orElse _ _).result = _ ↔ _
    rw [Outcome.orElse_eq_error_iff]
    simp [Outcome.refusal]
  rw [outcome, Outcome.bind_eq_error_iff, Part.Raises]
  simp only [hrule, Outcome.ofExcept]

theorem faultOutcome_eq_error_iff {name : Value} {raised : Fault} :
    (faultOutcome scope name raised).result = .error fault ↔
      if raised.isFatal then raised = fault
      else scope.collect = true ∧ scope.heap.raisedCause name raised = .error fault := by
  rw [faultOutcome]
  by_cases hfatal : raised.isFatal = true
  · simp [hfatal, Outcome.ofExcept]
  · by_cases hcollect : scope.collect = true
    · simp [hfatal, hcollect, Outcome.bind_eq_error_iff, Outcome.ofExcept, Outcome.refusal]
    · simp [hfatal, hcollect]

/-- One level: if it is known what the rules raise, it is known what the plan raises. -/
theorem Plan.outcome_eq_error_iff
    (h : ∀ rule w raised, (judge rule w).result = .error raised ↔ raises rule w raised)
    (plan : Plan) :
    (plan.outcome scope judge v).result = .error fault ↔ plan.Raises scope judge raises v fault := by
  obtain rfl : (fun rule w raised => (judge rule w).result = .error raised) = raises := by
    funext rule w raised
    exact propext (h rule w raised)
  cases plan with
  | answer verdict | refuse cause => exact iff_of_false nofun id
  | raise raised => exact Except.error.injEq raised fault ▸ Iff.rfl
  | inTurn parts =>
    rw [outcome, Outcome.allOf_eq_error_iff]
    exact first_congr fun part => part.outcome_eq_error_iff
  | anyOf members =>
    rw [outcome, Outcome.trial_eq_error_iff]
    simp only [Outcome.anyOf_eq_error_iff]
    rfl
  | allOf members =>
    -- once all verdicts are there, no fault can come up any more
    have hend (verdicts : List Bool) :
        (if verdicts.all id then pure true
          else .refusal scope (.someMember verdicts v) : Outcome Bool).result ≠ .error fault := by
      cases verdicts.all id <;> exact nofun
    rw [outcome, Outcome.bind_eq_error_iff, Outcome.each_eq_error_iff]
    simp only [hend, and_false, exists_false, or_false]
    rfl
  | call test name =>
    rw [outcome, Outcome.recover_eq_error_iff]
    simp only [faultOutcome_eq_error_iff, ← Test.raises_iff]
    rfl

/-- All levels: an evaluation ends in a fault exactly if the fault comes from somewhere. -/
theorem outcome_raises_iff (levels : Nat) (schema : Schema) (v : Value) (fault : Fault) :
    (schema.outcome scope levels v).result = .error fault ↔ schema.Raises scope levels v fault := by
  induction levels generalizing schema v fault with
  | zero => exact iff_of_false nofun id
  | succ levels ih => exact Plan.outcome_eq_error_iff ih _

/-- The root holds back an exhausted stack, and nothing else. -/
theorem Outcome.rooted_eq_error_iff {o : Outcome Bool} :
    (o.rooted scope).result = .error fault ↔
      o.result = .error fault ∧ fault.kind ≠ .exhausted := by
  rw [rooted, recover_eq_error_iff]
  constructor
  · rintro ⟨raised, hr, h⟩
    by_cases hkind : raised.kind = .exhausted
    · simp [hkind, refusal] at h
    · obtain rfl : raised = fault := by simpa [hkind, ofExcept] using h
      exact ⟨hr, hkind⟩
  · rintro ⟨hr, hkind⟩
    exact ⟨fault, hr, by simp [hkind, ofExcept]⟩

end Evaluations

end Conform
