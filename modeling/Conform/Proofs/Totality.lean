import Conform.Proofs.Likeness
import Conform.Proofs.TopLevel

namespace Conform

/-!
# Top-level calls return

Neither of the two top-level calls lets a fault out, whatever the value is, as long as its look-ups
raise nothing but an exhausted stack, and no test and no sink asks the program to end.  Where rejections
are collected, more has to go well: the fault of a test is shown with its text, and a sink is tested for
truth.  Nothing holds back what these two raise.

* `Scope.neverFatal_of_heap` — whether tests raise fatal faults does not depend on what is collected;
* `Schema.Conclusive.collecting` — what a conclusive schema needs where rejections are collected;
* `run_of_verdict` — a run returns the verdict of its evaluation;
* `top_level_calls_return` — runs and explanations return;
* `explain_of_unshown_fault` — an explanation that does not return.
-/

/-- Whether a test raises fatal faults depends on the objects and on the bound on the depth alone. -/
theorem Scope.neverFatal_of_heap {scope scope' : Scope} {test : Test} (h : scope.NeverFatal test)
    (hheap : scope'.heap = scope.heap) (hdepth : scope'.maxDepth = scope.maxDepth) :
    scope'.NeverFatal test := fun w fault hraises =>
  h w fault ((Scope.raises_congr hheap hdepth).mp hraises)

/-- A schema that is conclusive where nothing is collected is so in any case, if the faults of its tests
    can be shown. -/
theorem Schema.Conclusive.collecting {scope : Scope} {schema : Schema}
    (h : schema.Conclusive { scope with collect := false }) (hshown : schema.FaultsShown scope) :
    schema.Conclusive scope where
  ruled := h.ruled
  tests test name ht := Scope.neverFatal_of_heap (h.tests test name ht) rfl rfl
  shown _ := hshown

/-- A run returns the verdict of its evaluation: the lines that it may have to write cannot change
    it. -/
theorem run_of_verdict {schema : Schema} {v opts : Value} {s : Session} {settings : Settings}
    {options : Options} (hsettings : s.Settled settings)
    (hopts : Options.coerce s.store.heap opts = .ok options)
    (hsink : options.logFailures = true → ∀ sink, options.sink = some sink → s.Harmless sink)
    {verdict : Bool}
    (h : (schema.rootOutcome (s.scope settings options.logFailures) v).result = .ok verdict) :
    ∃ t, run schema v opts s = .ok verdict t := by
  obtain ⟨t, hrun⟩ := exists_run_eq_finish schema v hsettings hopts hsink
  rw [h] at hrun
  exact ⟨t, hrun⟩

/-- Both top-level calls return with a conclusive schema, on every value whose look-ups return or
    exhaust the stack.  A run without trace lines does so in any case.  An explanation does, and so does a
    run with trace lines, if the faults of tests can be shown; and the lines may go to any sink that has a
    truth value and raises nothing fatal. -/
theorem top_level_calls_return {s : Session} {settings : Settings} {schema : Schema} {v : Value}
    (hsettings : s.Settled settings) (hschema : schema.Conclusive (s.scope settings false))
    (hlookups : s.store.heap.RefusesOnly (fun fault => fault.kind = .exhausted) v) :
    (∀ opts options, Options.coerce s.store.heap opts = .ok options → options.logFailures = false →
      ∃ verdict t, run schema v opts s = .ok verdict t) ∧
    (schema.FaultsShown (s.scope settings true) →
      (∃ explanation t, explain schema v s = .ok explanation t) ∧
      ∀ opts options, Options.coerce s.store.heap opts = .ok options → options.logFailures = true →
        (∀ sink, options.sink = some sink → s.Harmless sink) →
        ∃ verdict t, run schema v opts s = .ok verdict t) := by
  refine ⟨fun opts options hopts hquiet => ?_, fun hshown => ?_⟩
  · obtain ⟨verdict, hresult⟩ := hschema.exists_root_verdict hlookups
    have hnone (hlog : options.logFailures = true) : ∀ sink, options.sink = some sink →
        s.Harmless sink := by
      rw [hquiet] at hlog
      cases hlog
    exact ⟨verdict, run_of_verdict hsettings hopts hnone (by rw [hquiet]; exact hresult)⟩
  · have hcollecting : schema.Conclusive (s.scope settings true) := .collecting hschema hshown
    obtain ⟨verdict, hresult⟩ := hcollecting.exists_root_verdict hlookups
    refine ⟨?_, fun opts options hopts hlog hsink => ?_⟩
    · have hexplain := explain_eq schema v hsettings rfl
      rw [hresult] at hexplain
      exact ⟨_, _, hexplain⟩
    · exact ⟨verdict, run_of_verdict hsettings hopts (fun _ => hsink) (by rw [hlog]; exact hresult)⟩

/-- A list that holds itself and a mapping whose look-up exhausts the stack; the test answers an
    object that refuses to be tested for truth and to be shown, and the sink raises a fault. -/
theorem top_level_calls_return_of_cyclic_list :
    let test := Test.plain (.caller none) fun _ _ => .ok (.ref 2)
    let schema := Schema.intersection
      [.array (.predicate test (.str "odd")), .array (.shape [(.plain "n", .primitive .number)])]
    let refusal : Refusal := ⟨.badValue "not now", rfl⟩
    let cells := [.guarded [(.str "n", .int 1)] ⟨[.str "n"], .read, ⟨.exhausted, none⟩⟩,
      .list [.ref 0, .ref 1], .foreign "Odd" (.error refusal) (.error refusal), .sink (.ok true),
      .options true (.ref 3)]
    let s := { Session.holding cells ⟨3, 16⟩ with sinks := [(3, ⟨[0], .badValue "full", 0⟩)] }
    (∃ verdict t, run schema (.ref 1) .null s = .ok verdict t) ∧
      (∃ explanation t, explain schema (.ref 1) s = .ok explanation t) ∧
      ∃ verdict t, run schema (.ref 1) (.ref 4) s = .ok verdict t := by
  intro test schema refusal cells s
  have hlookups : s.store.heap.RefusesOnly (fun fault => fault.kind = .exhausted) (.ref 1) :=
    Heap.refusesOnly_of_cells (by decide) _
  have hruled : schema.ruledTo 4 = true := rfl
  have htest : (s.scope ⟨3, 16⟩ false).NeverFatal test := by
    refine Scope.neverFatal_plain fun w fault hfault => ?_
    cases hfault
    rfl
  have hshows : (s.scope ⟨3, 16⟩ true).Shows test (.str "odd") := by
    refine Scope.shows_plain fun w fault hfault _ => ?_
    cases hfault
    exact ⟨_, rfl⟩
  have hschema : schema.Conclusive (s.scope ⟨3, 16⟩ false) :=
    ⟨Schema.not_contains_bare hruled,
      .of_testsTo hruled (by simpa [schema, Schema.testsTo, Schema.children] using htest), nofun⟩
  have hshown : schema.FaultsShown (s.scope ⟨3, 16⟩ true) :=
    .of_testsTo hruled (by simpa [schema, Schema.testsTo, Schema.children] using hshows)
  have hsink : s.Harmless (.ref 3) := Session.harmless_of_sink rfl rfl rfl rfl
  obtain ⟨hquiet, hloud⟩ := top_level_calls_return (.inl rfl) hschema hlookups
  obtain ⟨hexplain, hrun⟩ := hloud hshown
  refine ⟨hquiet .null .usual rfl rfl, hexplain, hrun (.ref 4) ⟨true, some (.ref 3)⟩ rfl rfl ?_⟩
  rintro sink ⟨⟩
  exact hsink

/-- A test looks its argument up in an empty mapping: the key that is missing is an integer that is too
    long to be shown. -/
theorem explain_of_unshown_fault :
    let get := Test.plain (.caller (some "get")) fun _ w => .error ⟨.missingKey, some w⟩
    ¬ ∃ explanation t, explain (.predicate get (.str "get")) (.int digitBound)
      (Session.holding [] ⟨2, 16⟩) = .ok explanation t := by
  rintro get ⟨explanation, t, hexplain⟩
  let s := Session.holding [] ⟨2, 16⟩
  let scope := s.scope ⟨2, 16⟩ true
  have htext : scope.heap.faultText ⟨.missingKey, some (.int digitBound)⟩ = .error .tooManyDigits := by
    show integerText digitBound = _
    rw [integerText, Int.natAbs_natCast, if_neg (Nat.lt_irrefl digitBound)]
  have hcause : scope.heap.raisedCause (.str "get") ⟨.missingKey, some (.int digitBound)⟩ =
      .error .tooManyDigits := by
    rw [Heap.raisedCause, htext]
    rfl
  -- the fault of showing the key takes the place of the one that the test has raised
  have hraises : (Schema.predicate get (.str "get")).Raises scope 2 (.int digitBound)
      .tooManyDigits := ⟨_, ⟨_, rfl⟩, rfl, hcause⟩
  have hresult : ((Schema.predicate get (.str "get")).rootOutcome scope (.int digitBound)).result =
      .error .tooManyDigits :=
    Outcome.rooted_eq_error_iff.mpr ⟨(outcome_raises_iff _ _ _ _).mpr hraises, by decide⟩
  have hsettings : s.Settled ⟨2, 16⟩ := .inl rfl
  rw [explain_eq _ _ hsettings rfl, hresult] at hexplain
  cases hexplain

end Conform
