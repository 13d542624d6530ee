import Conform.Proofs.Likeness
import Conform.Proofs.TopLevel

namespace Conform

/-!
# Diagnostics are observational

Whether rejections are collected, how long the quotes of values are, and where trace lines go
changes neither the result of a top-level call nor the calls of tests on the way to it.

* `Likeness.ofCollect`, `Likeness.ofQuotes` — scopes that differ in what they note, and in how
  they quote;
* `diagnostics_observational` — one result, one list of calls and one list of marks for all
  top-level calls on the same objects under the same bound on the depth;
* `run_of_undecided_sink` — a run that ends in the fault of asking a sink for its truth value.
-/

/-! ### Scopes that differ in their notes -/

/-- Scopes over the same objects may note whatever they like. -/
theorem Likeness.ofCollect {σ σ' : Scope} (hheap : σ'.heap = σ.heap) :
    Likeness σ σ' (fun _ _ => True) Eq where
  heap := hheap
  none := trivial
  append _ _ := trivial
  below _ _ := trivial
  note _ := trivial
  tooDeep := trivial
  noCalls := rfl
  appendCalls ha hb := by rw [ha, hb]

/-- The place and the code of a rejection. -/
def Rejection.mark (r : Rejection) : List Segment × FailureCode := (r.trail, r.code)

theorem mark_note (scope : Scope) (cause : Cause) :
    (scope.note cause).map Rejection.mark = if scope.collect then [([], cause.code)] else [] := by
  rw [Scope.note, apply_ite (List.map Rejection.mark)]
  rfl

/-- Scopes that both collect, or both do not, note the same places and codes. -/
theorem Likeness.ofQuotes {σ σ' : Scope} (hheap : σ'.heap = σ.heap)
    (hcollect : σ'.collect = σ.collect) :
    Likeness σ σ' (fun a b => b.map Rejection.mark = a.map Rejection.mark) Eq where
  heap := hheap
  none := rfl
  append ha hb := by rw [List.map_append, List.map_append, ha, hb]
  below {a b} trail hab := by
    have below_mark (l : List Rejection) :
        (l.map (Rejection.below trail)).map Rejection.mark =
          (l.map Rejection.mark).map fun mark => (trail ++ mark.1, mark.2) := by
      rw [List.map_map, List.map_map]
      rfl
    rw [below_mark, below_mark, hab]
  note cause := by rw [mark_note, mark_note, hcollect]
  tooDeep := by
    rw [mark_note, mark_note, hcollect]
    rfl
  noCalls := rfl
  appendCalls ha hb := by rw [ha, hb]

/-! ### Top-level calls -/

/-- The path and the code of a failure report. -/
def Failure.mark (f : Failure) : Text × FailureCode := (f.path, f.code)

theorem mark_report (rejections : List Rejection) :
    (rejections.map Rejection.report).map Failure.mark =
      (rejections.map Rejection.mark).map fun mark => (pathText mark.1, mark.2) := by
  rw [List.map_map, List.map_map]
  rfl

/-- Top-level calls on the same objects under the same bound on the depth have one result and
    make the same calls of tests, however they note and quote rejections; and their failure
    reports agree in paths and codes.  After the evaluation there is nothing but the writing of
    trace lines, to a sink which has a truth value, and whose calls may raise anything that is not
    fatal.  The faults of tests can be shown. -/
theorem diagnostics_observational (store : Store) (maxDepth : Nat) {schema : Schema} {limit : Int}
    {collect : Bool} (hshown : schema.FaultsShown ⟨store.heap, maxDepth, limit, collect⟩)
    (v : Value) :
    ∃ (result : Except Fault Bool) (calls : List Call) (marks : List (Text × FailureCode)),
      ∀ (s : Session) (settings : Settings), s.store = store → settings.maxDepth = maxDepth →
        s.Settled settings →
        (∀ opts options, Options.coerce store.heap opts = .ok options →
          options.logFailures = false →
          run schema v opts s = finish (s.evaluated settings calls) result) ∧
        (∀ opts options, Options.coerce store.heap opts = .ok options →
          options.logFailures = true →
          (∀ sink, options.sink = some sink → s.Harmless sink) →
          ∃ failures t, emit failures options.sink (s.evaluated settings calls) = .ok () t ∧
            (s.evaluated settings calls).Follows t ∧ run schema v opts s = finish t result) ∧
        ∃ failures, failures.map Failure.mark = marks ∧
          explain schema v s =
            finish (s.evaluated settings calls) (result.map fun valid => ⟨valid, failures⟩) := by
  -- the plainest scopes of both kinds stand for all others
  let quiet : Scope := ⟨store.heap, maxDepth, 0, false⟩
  let noting : Scope := ⟨store.heap, maxDepth, 0, true⟩
  let o := schema.rootOutcome quiet v
  let rejections := (schema.rootOutcome noting v).rejections
  refine ⟨o.result, o.calls, (rejections.map Rejection.report).map Failure.mark, ?_⟩
  rintro s settings rfl rfl hsettled
  -- whatever is noted, results and calls are those of the scope that notes nothing
  have halike (collect : Bool) : Alike (fun _ _ => True) Eq o
      (schema.rootOutcome (s.scope settings collect) v) := by
    have hlike : Likeness quiet (s.scope settings collect) (fun _ _ => True) Eq := .ofCollect rfl
    exact rootOutcome_alike hlike rfl (.inr (hshown.congr rfl rfl)) v
  refine ⟨fun opts options hopts hquiet => ?_, fun opts options hopts hlog hsink => ?_, ?_⟩
  · rw [run_of_quiet schema v hsettled hopts hquiet rfl, (halike false).result,
      ← (halike false).calls]
  · have hrun := run_of_harmless schema v hsettled hopts hlog hsink rfl
    rw [(halike true).result, ← (halike true).calls] at hrun
    exact hrun
  · -- all explanations collect, so that they differ in the quotes only
    have hlike : Likeness noting (s.scope settings true) _ Eq := .ofQuotes rfl rfl
    have hnoted : Alike _ Eq (schema.rootOutcome noting v)
        (schema.rootOutcome (s.scope settings true) v) := rootOutcome_alike hlike rfl (.inl rfl) v
    have hmarks := hnoted.rejections
    have hexplain := explain_eq schema v hsettled rfl
    rw [(halike true).result, ← (halike true).calls] at hexplain
    refine ⟨_, ?_, hexplain⟩
    rw [mark_report, mark_report, hmarks]

/-- A field is rejected; the sink raises a fault when it is given the first trace line. -/
theorem diagnostics_of_raising_sink :
    let test := Test.plain (.caller (some "positive")) fun _ w => .ok (.bool (w == .int 1))
    let schema := Schema.shape [(.plain "n", .predicate test (.str "positive"))]
    let cells := [.dict [(.str "n", .int 2)], .sink (.ok true), .options true (.ref 1)]
    let s := { Session.holding cells ⟨3, 16⟩ with sinks := [(1, ⟨[0], .badValue "full", 0⟩)] }
    ∃ result calls failures t,
      run schema (.ref 0) .null s = finish (s.evaluated ⟨3, 16⟩ calls) result ∧
      run schema (.ref 0) (.ref 2) s = finish t result ∧
      explain schema (.ref 0) s =
        finish (s.evaluated ⟨3, 16⟩ calls) (result.map fun valid => ⟨valid, failures⟩) := by
  intro test schema cells s
  have hshown : schema.FaultsShown (s.scope ⟨3, 16⟩ true) := by
    refine .of_testsTo (n := 2) rfl fun entry hentry => ?_
    obtain rfl := List.mem_singleton.mp hentry
    exact Scope.shows_of_returns (Test.not_raises_of_bool fun _ w => w == .int 1)
  have hsink : s.Harmless (.ref 1) := Session.harmless_of_sink rfl rfl rfl rfl
  obtain ⟨result, calls, marks, h⟩ := diagnostics_observational s.store 3 hshown (.ref 0)
  obtain ⟨hquiet, hlogging, failures, -, hexplain⟩ := h s ⟨3, 16⟩ rfl rfl (.inl rfl)
  have hlogged := hlogging (.ref 2) ⟨true, some (.ref 1)⟩ rfl rfl fun sink hs => by
    obtain rfl : .ref 1 = sink := by simpa using hs
    exact hsink
  obtain ⟨lines, t, -, -, hrun⟩ := hlogged
  exact ⟨result, calls, failures, t, hquiet .null .usual rfl rfl, hrun, hexplain⟩

/-- A sink that refuses to be tested for truth takes the verdict away: with trace lines to it, the run
    that rejects without them raises a fault. -/
theorem run_of_undecided_sink :
    let refusal : Refusal := ⟨⟨.ordinary "RuntimeError", some (.str "not now")⟩, rfl⟩
    let s := Session.holding [.sink (.error refusal), .options true (.ref 0)] ⟨2, 16⟩
    (∃ t, run (.shape []) .null .null s = .ok false t) ∧
      ∃ t, run (.shape []) .null (.ref 1) s = .error (.fault refusal) t :=
  ⟨⟨_, rfl⟩, ⟨_, rfl⟩⟩

end Conform
