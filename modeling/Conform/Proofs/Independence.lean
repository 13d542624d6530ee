import Conform.Proofs.Plan

namespace Conform

/-!
# Independence of the context

An evaluation comes to the same wherever it takes place.  Only the number of levels that are
left counts; the way into the value, the rejections noted before and the calls made before are
kept, and what is added stands behind them.

* `evaluateFields_yields`, `evaluatePositions_yields`, … — the walks through a list of children;
* `evaluate_yields` — an evaluation yields the outcome of its plan;
* `callTest_yields` — a call of a test yields its outcome, whatever is nested inside;
* `evaluateRoot_eq` — a top-level call is the outcome with all levels left, at the root.
-/

/-! ### Walks through children -/

section Walks

variable {scope : Scope} {d : Nat} {judge : Schema → Value → Outcome Bool}

theorem checkPart_yields (scope : Scope) (place : Place) {body : Eval Bool} {rule : Schema}
    {w : Value} (h : Yields body d (judge rule w)) :
    Yields
      (within place.segment do
        if ← body then return true else refuse scope (place.cause w))
      d (Part.outcome scope judge ⟨place, rule, .ok w⟩) := by
  rw [Part.outcome, Outcome.ofExcept_ok_bind]
  exact (h.bindIf (.pure true) (.refuse scope _)).within _

theorem evaluateFields_yields {fields : List (Label × Schema)} (m : Mapping)
    (h : ∀ field ∈ fields, ∀ w, Yields (evaluate scope field.2 w) d (judge field.2 w)) :
    Yields (evaluateFields scope fields m) d
      (.allOf (Part.outcome scope judge) (fieldParts m fields)) := by
  induction fields with
  | nil => exact .pure true
  | cons field rest ih =>
    obtain ⟨name, rule⟩ := field
    rw [evaluateFields]
    -- the value is read before its rule is asked, and what it raises then is the end of the walk
    show Yields _ d (Outcome.andThen _ _)
    rw [Outcome.andThen, Part.outcome, Outcome.bind_assoc]
    refine (Yields.ofExcept _).bind fun w => ?_
    have hpart := checkPart_yields scope (.field name) (h (name, rule) List.mem_cons_self w)
    rw [Part.outcome, Outcome.ofExcept_ok_bind] at hpart
    exact hpart.bindIf (ih fun field hf => h field (List.mem_cons_of_mem _ hf)) (.pure false)

theorem checkItems_yields {member : Schema} {check : Value → Eval Bool}
    (h : ∀ w, Yields (check w) d (judge member w)) (i : Nat) (items : List Value) :
    Yields (checkItems scope check i items) d
      (.allOf (Part.outcome scope judge)
        (itemParts .array i (items.map fun item => (member, item)))) := by
  induction items generalizing i with
  | nil => exact .pure true
  | cons item rest ih =>
    rw [checkItems]
    exact (checkPart_yields scope (.item .array i) (h item)).bindIf (ih (i + 1)) (.pure false)

theorem evaluatePositions_yields {members : List Schema}
    (h : ∀ member ∈ members, ∀ w, Yields (evaluate scope member w) d (judge member w)) (i : Nat)
    (items : List Value) :
    Yields (evaluatePositions scope members i items) d
      (.allOf (Part.outcome scope judge) (itemParts .tuple i (members.zip items))) := by
  induction members generalizing i items with
  | nil => simpa only [evaluatePositions] using .pure true
  | cons member rest ih =>
    cases items with
    | nil => simpa only [evaluatePositions] using .pure true
    | cons item items =>
      rw [evaluatePositions]
      refine Yields.bindIf ?_ (ih (fun m hm => h m (List.mem_cons_of_mem _ hm)) (i + 1) items)
        (.pure false)
      exact checkPart_yields scope (.item .tuple i) (h member List.mem_cons_self item)

theorem evaluateAny_yields {members : List Schema} (v : Value)
    (h : ∀ member ∈ members, Yields (evaluate scope member v) d (judge member v)) :
    Yields (evaluateAny scope members v) d (.anyOf (judge · v) members) := by
  induction members with
  | nil => simpa only [evaluateAny] using .pure false
  | cons member rest ih =>
    rw [evaluateAny]
    exact (h member List.mem_cons_self).bindIf (.pure true)
      (ih fun m hm => h m (List.mem_cons_of_mem _ hm))

theorem evaluateEach_yields {members : List Schema} (v : Value)
    (h : ∀ member ∈ members, Yields (evaluate scope member v) d (judge member v)) :
    Yields (evaluateEach scope members v) d (.each (judge · v) members) := by
  induction members with
  | nil => simpa only [evaluateEach] using .pure []
  | cons member rest ih =>
    rw [evaluateEach]
    refine (h member List.mem_cons_self).bind fun verdict => ?_
    exact (ih fun m hm => h m (List.mem_cons_of_mem _ hm)).bind fun verdicts => .pure _

theorem evaluateVariant_yields (tag : Label) {variants : List (Label × List (Label × Schema))}
    {key : Label} {tagValue : Value} (m : Mapping) (v : Value) (hkey : tagValue.label? = some key)
    (h : ∀ variant ∈ variants, ∀ field ∈ variant.2, ∀ w,
      Yields (evaluate scope field.2 w) d (judge field.2 w)) :
    Yields (evaluateVariant scope tag variants key m) d
      ((variantPlan tag variants m tagValue).outcome scope judge v) := by
  -- a message about an unknown tag shows the value that the key was made from
  have hvalue : key.toValue = tagValue := by
    cases tagValue <;> simp only [Value.label?, Option.some.injEq, reduceCtorEq] at hkey <;>
      subst hkey <;> rfl
  induction variants with
  | nil =>
    rw [evaluateVariant, hvalue]
    simp only [variantPlan, variantOf?, hkey]
    exact .refuse scope _
  | cons variant rest ih =>
    obtain ⟨name, fields⟩ := variant
    have hrest := ih fun variant hv => h variant (List.mem_cons_of_mem _ hv)
    rw [evaluateVariant]
    simp only [variantPlan, variantOf?, hkey, Option.bind_some] at hrest ⊢
    by_cases hname : name.content = key.content
    · rw [if_pos hname, List.find?_cons_of_pos (by simpa using hname)]
      exact evaluateFields_yields m (h (name, fields) List.mem_cons_self)
    · rw [if_neg hname, List.find?_cons_of_neg (by simpa using hname)]
      exact hrest

/-- The look-ups of the tag, with what follows from them. -/
theorem tagged_yields {tag : Label} {variants : List (Label × List (Label × Schema))} {v : Value}
    (m : Mapping)
    (h : ∀ variant ∈ variants, ∀ field ∈ variant.2, ∀ w,
      Yields (evaluate scope field.2 w) d (judge field.2 w)) :
    Yields
      (do
        if ← Eval.ofExcept (m.has tag.content) then
          let tagValue ← Eval.ofExcept (m.read tag.content)
          match tagValue.label? with
          | none => refuse scope (.noVariant tag tagValue)
          | some key => evaluateVariant scope tag variants key m
        else refuse scope (.noTag tag))
      d ((tagPlan tag variants m).outcome scope judge v) := by
  rw [tagPlan]
  -- one case for each look-up, as any of them may raise
  rcases m.has tag.content with fault | _ | _
  · apply Yields.error_bind
  · exact .refuse scope _
  · cases m.read tag.content with
    | error fault =>
      exact .error_bind fault fun tagValue : Value =>
        match tagValue.label? with
        | none => refuse scope (.noVariant tag tagValue)
        | some key => evaluateVariant scope tag variants key m
    | ok tagValue =>
      show Yields (match tagValue.label? with | none => _ | some key => _) d _
      cases hkey : tagValue.label? with
      | none =>
        simp only [variantPlan, variantOf?, hkey, Option.bind_none]
        exact .refuse scope _
      | some key => exact evaluateVariant_yields tag m v hkey h

theorem faultOutcome_yields (name : Value) (fault : Fault) :
    Yields (if fault.isFatal then throw fault else refuseFault scope name fault) d
      (faultOutcome scope name fault) := by
  rw [faultOutcome, refuseFault]
  by_cases hfatal : fault.isFatal
  · rw [if_pos hfatal, if_pos hfatal]
    exact .throw fault
  · rw [if_neg hfatal, if_neg hfatal]
    by_cases hcollect : scope.collect
    · rw [if_pos hcollect, if_pos hcollect]
      exact (Yields.ofExcept _).bind fun shown => .refuse scope _
    · rw [if_neg hcollect, if_neg hcollect]
      exact .pure false

end Walks

/-! ### Evaluations -/

/-- The plan of a node is carried out as its evaluation says, if the children yield their
    outcomes one level deeper. -/
theorem evaluate_of_children {scope : Scope} {schema : Schema} {v : Value} {d levels : Nat}
    (hd : d < scope.maxDepth)
    (htest : schema.EveryTest fun test _ => ∀ w d,
      Yields (callTest scope test w) d (test.outcome scope w))
    (hchild : ∀ child ∈ schema.children, ∀ w,
      Yields (evaluate scope child w) (d + 1) (child.outcome scope levels w)) :
    Yields (evaluate scope schema v) d (schema.outcome scope (levels + 1) v) := by
  rw [evaluate.eq_def]
  refine .guarded hd ?_
  rw [Schema.outcome]
  cases schema with
  | primitive kind => exact .pure _
  | literal constant canonical => exact .pure _
  | shape fields =>
    simp only [Schema.plan]
    cases hm : scope.heap.mapping? v with
    | none => exact .refuse scope _
    | some m => exact evaluateFields_yields m fun field hf => hchild _ (List.mem_map_of_mem hf)
  | array member =>
    simp only [Schema.plan]
    cases hs : scope.heap.sequence? v with
    | none => exact .refuse scope _
    | some items => exact checkItems_yields (hchild member List.mem_cons_self) 0 items
  | tuple members =>
    simp only [Schema.plan]
    cases hs : scope.heap.sequence? v with
    | none => exact .refuse scope _
    | some items =>
      -- with equal lengths, no position is left out where the lists are paired
      by_cases hlen : items.length = members.length
      · simp only [hlen, if_true]
        exact evaluatePositions_yields hchild 0 items
      · simp only [hlen, if_false]
        exact .refuse scope _
  | union members =>
    exact ((evaluateAny_yields v fun member hm => hchild member hm v).mapFault _).tentative
      (.refuse scope _)
  | intersection members =>
    refine (evaluateEach_yields v fun member hm => hchild member hm v).bind fun verdicts => ?_
    cases verdicts.all id with
    | true => exact .pure true
    | false => exact .refuse scope _
  | taggedUnion tag variants =>
    simp only [Schema.plan]
    cases hm : scope.heap.mapping? v with
    | none => exact .refuse scope _
    | some m =>
      exact tagged_yields m fun variant hv field hf =>
        hchild _ (Schema.mem_children_taggedUnion hv hf)
  | predicate test name =>
    exact (htest test name .self v (d + 1)).recover (faultOutcome_yields name)
  | bare => exact .throw _

/-- Given that calls of the tests inside it yield their outcomes, so does an evaluation. -/
theorem evaluate_yields_of_tests {scope : Scope} (levels : Nat) {schema : Schema}
    (htest : schema.EveryTest fun test _ => ∀ w d,
      Yields (callTest scope test w) d (test.outcome scope w))
    (v : Value) {d : Nat} (hd : scope.maxDepth - d = levels) :
    Yields (evaluate scope schema v) d (schema.outcome scope levels v) := by
  induction levels generalizing schema v d with
  | zero =>
    rw [evaluate.eq_def]
    exact .guarded_of_le (by omega) _
  | succ levels ih =>
    exact evaluate_of_children (by omega) htest fun child hc w => ih (htest.child hc) w (by omega)

/-- A top-level evaluation starts with all levels left, and ends at the root. -/
theorem fromRoot_eq {scope : Scope} {body : Eval Bool} {o : Outcome Bool} (h : Yields body 0 o)
    (calls : List Call) :
    fromRoot scope body { Context.initial with calls := calls } =
      (o.rooted scope).onto { Context.initial with calls := calls } := by
  have hbody := h { Context.initial with calls := calls } rfl
  simp only [fromRoot, recover, hbody]
  cases ho : o.result with
  | ok verdict =>
    rw [Outcome.onto_of_ok ho]
    simp only [Outcome.rooted, Outcome.recover, Outcome.onto, ho]
  | error fault =>
    rw [Outcome.onto_of_error ho]
    simp only [Outcome.rooted, Outcome.recover, ho]
    rw [← Outcome.onto_settle]
    -- the recovery goes back to the depth and the trail of the root, which are those of the start
    by_cases hkind : fault.kind = .exhausted
    · rw [if_pos hkind, if_pos hkind]
      exact Yields.refuse scope .noStack _ rfl
    · rw [if_neg hkind, if_neg hkind]
      simp [Outcome.onto, Outcome.settle, Outcome.ofExcept]

/-! ### Calls of tests -/

/-- A computation that ends in one outcome without rejections, whatever the context, shows that
    outcome when it starts from nothing. -/
theorem Test.outcome_eq {scope : Scope} {test : Test} {v : Value} {o : Outcome Bool}
    (h : ∀ ctx, callTest scope test v ctx = o.onto ctx) (hr : o.rejections = []) :
    test.outcome scope v = o := by
  rw [Test.outcome, h]
  obtain ⟨result, rejections, calls⟩ := o
  subst hr
  cases result <;> simp [Outcome.onto, Outcome.settle, Context.initial]

/-- A function of the caller is called once, and its answer counts by its truth. -/
theorem callTest_plain (scope : Scope) (origin : Origin)
    (answer : Heap → Value → Except Fault Value) (v : Value) (ctx : Context) :
    callTest scope (.plain origin answer) v ctx =
      (⟨answer scope.heap v >>= scope.heap.truth, [], [⟨.plain origin answer, v⟩]⟩ :
        Outcome Bool).onto ctx := by
  rw [callTest]
  show EStateM.bind (recordCall _ _) _ ctx = _
  simp only [EStateM.bind, recordCall]
  cases ha : answer scope.heap v with
  | error fault =>
    simp [Outcome.onto, Outcome.settle, Bind.bind, EStateM.bind, Except.bind]
  | ok w =>
    cases ht : scope.heap.truth w <;>
      simp [Outcome.onto, Outcome.settle, Bind.bind, EStateM.bind, Except.bind, ht]

/-- A validator is called once, and then calls what its own top-level evaluation calls. -/
theorem callTest_validating {scope : Scope} (name : Option Text) {schema : Schema} {v : Value}
    {o : Outcome Bool} (h : Yields (evaluate { scope with collect := false } schema v) 0 o)
    (ctx : Context) :
    callTest scope (.validating name schema) v ctx =
      (⟨(o.rooted { scope with collect := false }).result, [],
        ⟨.validating name schema, v⟩ :: (o.rooted { scope with collect := false }).calls⟩ :
        Outcome Bool).onto ctx := by
  rw [callTest]
  show EStateM.bind (recordCall _ _) _ ctx = _
  simp only [EStateM.bind, recordCall, afresh, fromRoot_eq h]
  cases hr : (o.rooted { scope with collect := false }).result <;>
    simp [Outcome.onto, Outcome.settle, hr]

/-- A call of a test yields its outcome.  The schema inside of a test has all levels of its own,
    so the induction is on the size of the test. -/
theorem callTest_yields (scope : Scope) (test : Test) (v : Value) (d : Nat) :
    Yields (callTest scope test v) d (test.outcome scope v) := by
  induction hsize : sizeOf test using Nat.strongRecOn generalizing scope test v d with
  | ind size ih =>
    subst hsize
    intro ctx _
    cases test with
    | plain origin answer =>
      rw [Test.outcome_eq (callTest_plain scope origin answer v) rfl]
      exact callTest_plain scope origin answer v ctx
    | validating name schema =>
      -- the tests inside are smaller, whatever their depth is
      have htest : schema.EveryTest fun test _ => ∀ w d,
          Yields (callTest { scope with collect := false } test w) d
            (test.outcome { scope with collect := false } w) := by
        intro test name' hc w d
        have hlt := hc.sizeOf_test
        exact ih _ (by simp only [Test.validating.sizeOf_spec]; omega) _ test w d rfl
      have hnested : Yields (evaluate { scope with collect := false } schema v) 0 _ :=
        evaluate_yields_of_tests scope.maxDepth htest v rfl
      have hcall := callTest_validating name hnested
      rw [Test.outcome_eq hcall rfl]
      exact hcall ctx

/-- An evaluation yields the outcome that its plan has with the levels that are left. -/
theorem evaluate_yields (scope : Scope) (schema : Schema) (v : Value) (d : Nat) :
    Yields (evaluate scope schema v) d (schema.outcome scope (scope.maxDepth - d) v) :=
  evaluate_yields_of_tests _ (fun test _ _ w d => callTest_yields scope test w d) v rfl

/-! ### Top-level calls -/

theorem Test.outcome_plain (scope : Scope) (origin : Origin)
    (answer : Heap → Value → Except Fault Value) (v : Value) :
    (Test.plain origin answer).outcome scope v =
      ⟨answer scope.heap v >>= scope.heap.truth, [], [⟨.plain origin answer, v⟩]⟩ :=
  Test.outcome_eq (callTest_plain scope origin answer v) rfl

/-- The outcome of a top-level call. -/
def Schema.rootOutcome (scope : Scope) (schema : Schema) (v : Value) : Outcome Bool :=
  (schema.outcome scope scope.maxDepth v).rooted scope

/-- A verdict is not touched at the root. -/
theorem Outcome.rooted_of_ok {scope : Scope} {o : Outcome Bool} {verdict : Bool}
    (h : o.result = .ok verdict) : o.rooted scope = o := by
  rw [rooted, recover, h]

/-- The recovery at the root accepts nothing. -/
theorem Outcome.result_of_rooted_true {scope : Scope} {o : Outcome Bool}
    (h : (o.rooted scope).result = .ok true) : o.result = .ok true := by
  rw [rooted, recover] at h
  cases hr : o.result with
  | ok verdict =>
    simpa only [hr] using h
  | error fault =>
    by_cases hkind : fault.kind = .exhausted
    · simp [hr, hkind, after, refusal] at h
    · simp [hr, hkind, after, ofExcept] at h

/-- A value that is accepted at the root leaves no rejection behind. -/
theorem Schema.rootOutcome_clean (scope : Scope) (schema : Schema) (v : Value) :
    (schema.rootOutcome scope v).Clean := by
  intro htrue
  have hresult := Outcome.result_of_rooted_true htrue
  rw [rootOutcome, Outcome.rooted_of_ok hresult]
  exact schema.outcome_clean scope _ v hresult

theorem evaluateRoot_eq (scope : Scope) (schema : Schema) (v : Value) :
    evaluateRoot scope schema v = (schema.rootOutcome scope v).onto Context.initial :=
  fromRoot_eq (evaluate_yields scope schema v 0) []

/-- A validator as a test comes to what it comes to as a top-level call. -/
theorem Test.outcome_validating (scope : Scope) (name : Option Text) (schema : Schema)
    (v : Value) :
    (Test.validating name schema).outcome scope v =
      ⟨(schema.rootOutcome { scope with collect := false } v).result, [],
        ⟨.validating name schema, v⟩ ::
          (schema.rootOutcome { scope with collect := false } v).calls⟩ :=
  Test.outcome_eq (callTest_validating name (evaluate_yields _ schema v 0)) rfl

end Conform
