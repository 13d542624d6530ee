import Conform.Proofs.TopLevel

namespace Conform

/-!
# Verdicts

A top-level call returns the meaning of its schema, as far as the bound on the depth lets it
see.

* `explain_of_conclusive` — an explanation shows that meaning;
* `run_verdict_iff_accepts_cut` — the verdict of a run is the meaning of the schema cut at the
  bound.
-/

/-! ### The verdict of an explanation -/

/-- With a conclusive schema, a calm value is explained, and the explanation says whether the value
    has the meaning of the schema cut at the bound on the depth. -/
theorem explain_of_conclusive {s : Session} {settings : Settings} {schema : Schema} {v : Value}
    (hsettings : s.Settled settings) (hschema : schema.Conclusive (s.scope settings true))
    (hcalm : s.store.heap.Calm v) :
    ∃ explanation t, explain schema v s = .ok explanation t ∧
      (explanation.valid = true ↔
        Accepts s.store.heap (s.scope settings true).passes (schema.cut settings.maxDepth) v) := by
  obtain ⟨valid, hresult, houtcome⟩ := hschema.exists_verdict hcalm
  have hexplain := explain_eq schema v hsettings rfl
  rw [hresult] at hexplain
  exact ⟨_, _, hexplain, outcome_decides _ _ schema hcalm valid houtcome⟩

/-! ### The verdict of a run -/

/-- The verdict of a run is the meaning of the schema cut at the bound on the depth.  The
    options do not matter for it: if there are trace lines to write, they are written to a sink
    that raises nothing fatal, and the verdict is returned. -/
theorem run_verdict_iff_accepts_cut {s : Session} {settings : Settings} {schema : Schema}
    {v opts : Value} {options : Options} (hsettings : s.Settled settings)
    (hopts : Options.coerce s.store.heap opts = .ok options)
    (hschema : schema.Conclusive (s.scope settings options.logFailures))
    (hcalm : s.store.heap.Calm v)
    (hsink : options.logFailures = true → ∀ sink, options.sink = some sink → s.Harmless sink) :
    ∃ verdict t, run schema v opts s = .ok verdict t ∧
      (verdict = true ↔
        Accepts s.store.heap (s.scope settings options.logFailures).passes
          (schema.cut settings.maxDepth) v) := by
  obtain ⟨verdict, hresult, houtcome⟩ := hschema.exists_verdict hcalm
  have hiff := outcome_decides _ _ schema hcalm verdict houtcome
  cases hlog : options.logFailures with
  | false =>
    rw [hlog] at hresult hiff
    have hrun := run_of_quiet schema v hsettings hopts hlog rfl
    rw [hresult] at hrun
    exact ⟨verdict, _, hrun, hiff⟩
  | true =>
    rw [hlog] at hresult hiff
    obtain ⟨failures, t, -, -, hrun⟩ :=
      run_of_harmless schema v hsettings hopts hlog (hsink hlog) rfl
    rw [hresult] at hrun
    exact ⟨verdict, t, hrun, hiff⟩

/-- A shape below a union, whose field has to be a number, and is checked by a test that raises a fault
    on most values.  It is the integer 1, which is a number and passes the test. -/
theorem run_verdict_of_positive_field :
    let test := Test.plain (.caller (some "positive")) fun _ w =>
      if w = .int 1 then .ok (.bool true) else .error (.badValue "not positive")
    let field := Schema.intersection [.primitive .number, .predicate test (.str "positive")]
    let schema := Schema.union [.primitive .null, .shape [(.plain "n", field)]]
    let s := Session.holding [.dict [(.str "n", .int 1)]] ⟨4, 200⟩
    Accepts s.store.heap (s.scope ⟨4, 200⟩ false).passes (schema.cut 4) (.ref 0) ∧
      ∃ t, run schema (.ref 0) .null s = .ok true t := by
  intro test field schema s
  have hopts : Options.coerce s.store.heap .null = .ok .usual := rfl
  have hheap : ∀ cell ∈ s.store.heap.cells.toList, cell.isGuarded = false := by decide
  have hraised (w : Value) (fault : Fault)
      (hfault : (if w = .int 1 then .ok (.bool true) else .error (.badValue "not positive")) >>=
        s.store.heap.truth = .error fault) : fault = .badValue "not positive" := by
    by_cases hw : w = .int 1
    · rw [if_pos hw] at hfault
      cases hfault
    · rw [if_neg hw] at hfault
      exact (Except.error.inj hfault).symm
  have hschema : schema.Conclusive (s.scope ⟨4, 200⟩ false) := by
    refine .of_testsTo (n := 4) rfl fun entry hentry => ?_
    obtain rfl := List.mem_singleton.mp hentry
    exact ⟨Scope.neverFatal_plain fun w fault hfault => hraised w fault hfault ▸ rfl,
      Scope.shows_plain fun w fault hfault _ => hraised w fault hfault ▸ ⟨_, rfl⟩⟩
  obtain ⟨verdict, t, hrun, hiff⟩ :=
    run_verdict_iff_accepts_cut (.inl rfl) hopts hschema (Heap.calm_of_unguarded hheap _) nofun
  have hpasses : (s.scope ⟨4, 200⟩ false).passes test (.int 1) := ⟨_, rfl⟩
  have haccepts :
      Accepts s.store.heap (s.scope ⟨4, 200⟩ false).passes (schema.cut 4) (.ref 0) := by
    refine .union (List.mem_cons_of_mem _ List.mem_cons_self) (.shape rfl fun entry hentry => ?_)
    obtain rfl := List.mem_singleton.mp hentry
    refine .intersection fun member hmember => ?_
    obtain rfl | rfl : member = .primitive .number ∨ member = .predicate test (.str "positive") := by
      simpa [Schema.cut, Schema.mapChildren] using hmember
    · exact accepts_primitive_iff.mpr (.inl ⟨1, rfl⟩)
    · exact .predicate hpasses
  obtain rfl : verdict = true := hiff.mpr haccepts
  exact ⟨haccepts, t, hrun⟩

end Conform
