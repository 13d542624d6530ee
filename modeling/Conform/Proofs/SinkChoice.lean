import Conform.Proofs.Emission

namespace Conform

/-!
# Which sink takes the trace lines

A sink is asked whether it counts as true before the first line is written.  If it does, it is handed
every line, and the log is left to the problems that it raises.  A sink that counts as false is treated
like one that was not given: all lines go to the log.

* `Session.Handed` — failures handed to a sink, one after the other;
* `Session.LogsErrors` — a later session with more errors in its log, and with nothing else;
* `run_to_true_sink`, `run_to_false_sink` — the two ways in which a run writes its lines;
* `run_writes_to_true_sink` — what becomes of the lines of a run.
-/

/-! ### Lines that are handed over -/

/-- The lines of failures are handed to a sink in order.  If the sink raises a problem, that is logged,
    and the next line is handed over. -/
inductive Session.Handed (sink : Value) : List Failure → Session → Session → Prop where
  | nil {s : Session} : Handed sink [] s s
  | taken {failure : Failure} {rest : List Failure} {s t u : Session}
    (h : callOnLine sink failure.line s = .ok () t) (hrest : Handed sink rest t u) :
    Handed sink (failure :: rest) s u
  | refused {failure : Failure} {rest : List Failure} {s t u : Session} {problem : Problem}
    (h : callOnLine sink failure.line s = .error problem t)
    (hrest : Handed sink rest (t.addLog (sinkRecord failure problem)) u) :
    Handed sink (failure :: rest) s u

/-- The log of a later session has more records, all of which are errors. -/
def Session.LogsErrors (s t : Session) : Prop :=
  ∃ records, t.journal.log = s.journal.log ++ records ∧ ∀ record ∈ records, record.level = .error

namespace Session

variable {s t : Session}

/-- Lines are handed over in attempts. -/
theorem handed_iff {sink : Value} {failures : List Failure} :
    Handed sink failures s t ↔
      ∃ attempts, Attempted sink attempts s t ∧ attempts.map Attempt.failure = failures := by
  constructor
  · intro h
    induction h with
    | nil => exact ⟨[], .nil, rfl⟩
    | taken h _ ih =>
      obtain ⟨attempts, hattempts, rfl⟩ := ih
      exact ⟨_, .taken h hattempts, rfl⟩
    | refused h _ ih =>
      obtain ⟨attempts, hattempts, rfl⟩ := ih
      exact ⟨_, .refused h hattempts, rfl⟩
  · rintro ⟨attempts, h, rfl⟩
    induction h with
    | nil => exact .nil
    | taken h _ ih => exact .taken h ih
    | refused h _ ih => exact .refused h ih

/-- Nothing is logged but the problems of the sink. -/
theorem Handed.logsErrors {sink : Value} {failures : List Failure} (h : Handed sink failures s t) :
    s.LogsErrors t := by
  obtain ⟨attempts, hattempts, -⟩ := handed_iff.mp h
  refine ⟨_, hattempts.log_eq, fun record hrecord => ?_⟩
  obtain ⟨attempt, -, hproblem⟩ := List.mem_filterMap.mp (List.mem_filter.mp hrecord).1
  obtain ⟨problem, -, rfl⟩ := Option.map_eq_some_iff.mp hproblem
  rfl

end Session

/-! ### Writing to a sink -/

/-- A sink that counts as false is not called: the lines go to the log. -/
theorem emit_of_false {sink : Value} (failures : List Failure) {s : Session}
    (htruth : s.store.heap.truth sink = .ok false) :
    emit failures (some sink) s = .ok () (s.logged (failures.map Failure.line)) := by
  have hchoose : chooseSink (some sink) s = .ok none s := by
    rw [chooseSink, SessionM.get_bind, htruth]
    rfl
  rw [emit, SessionM.bind_of_ok hchoose]
  exact emit_to_log failures s

/-! ### Runs -/

section Runs

variable {schema : Schema} {v opts sink : Value} {s : Session} {settings : Settings}
  {o : Outcome Bool} {verdict : Bool} (hsettings : s.Settled settings)
  (ho : schema.rootOutcome (s.scope settings true) v = o) (hverdict : o.result = .ok verdict)
  (hopts : Options.coerce s.store.heap opts = .ok ⟨true, some sink⟩)
include hsettings ho hverdict hopts

theorem run_to_true_sink (hsink : s.Harmless sink) (htruth : s.store.heap.truth sink = .ok true) :
    ∃ t, run schema v opts s = .ok verdict t ∧
      Session.Handed sink (o.rejections.map Rejection.report) (s.evaluated settings o.calls) t := by
  obtain ⟨attempts, t, hrun, hattempts, hfailures⟩ :=
    run_attempted hsettings ho hverdict hopts hsink.calls htruth
  exact ⟨t, hrun, Session.handed_iff.mpr ⟨attempts, hattempts, hfailures⟩⟩

theorem run_to_false_sink (htruth : s.store.heap.truth sink = .ok false) :
    run schema v opts s =
      .ok verdict ((s.evaluated settings o.calls).logged
        ((o.rejections.map Rejection.report).map Failure.line)) := by
  have hfollows := Session.Follows.evaluated s settings o.calls
  have hemit := emit_of_false (o.rejections.map Rejection.report)
    (show (s.evaluated settings o.calls).store.heap.truth sink = .ok false by
      rw [hfollows.store]
      exact htruth)
  refine run_of_emit hsettings ho hverdict hopts rfl (fun hnil => ?_) hemit
  rw [hnil]
  exact Session.logged_nil _

end Runs

/-- With trace lines asked for, a run returns the verdict of the explanation, and goes on from the
    session in which the explanation ends.  A sink that counts as true is handed the line of every
    failure, and no record but errors is added to the log.  Without a sink, or with one that counts
    as false, all lines become records of the log, and nothing else changes. -/
theorem run_writes_to_true_sink {s u : Session} {settings : Settings} {schema : Schema}
    {v opts : Value} {sink : Option Value} {explanation : Explanation}
    (hsettings : s.Settled settings)
    (hopts : Options.coerce s.store.heap opts = .ok ⟨true, sink⟩)
    (hsink : ∀ w, sink = some w → s.Harmless w)
    (hexplain : explain schema v s = .ok explanation u) :
    ∃ t, run schema v opts s = .ok explanation.valid t ∧
      (∀ w, sink = some w → s.store.heap.truth w = .ok true →
        Session.Handed w explanation.failures u t ∧ u.LogsErrors t) ∧
      ((∀ w, sink = some w → s.store.heap.truth w = .ok false) →
        t = u.logged explanation.lines) := by
  rw [explain_eq schema v hsettings rfl] at hexplain
  cases hverdict : (schema.rootOutcome (s.scope settings true) v).result with
  | error fault =>
    rw [hverdict] at hexplain
    cases hexplain
  | ok verdict =>
    rw [hverdict] at hexplain
    obtain ⟨rfl, rfl⟩ := EStateM.Result.ok.inj hexplain
    cases sink with
    | none => exact ⟨_, run_to_log hsettings rfl hverdict hopts, nofun, fun _ => rfl⟩
    | some w =>
      obtain ⟨truth, htruth⟩ := (hsink w rfl).truth
      cases truth with
      | true =>
        obtain ⟨t, hrun, hhanded⟩ :=
          run_to_true_sink hsettings rfl hverdict hopts (hsink w rfl) htruth
        refine ⟨t, hrun, ?_, fun hfalse => ?_⟩
        · intro x hx _
          obtain rfl : w = x := Option.some.inj hx
          exact ⟨hhanded, hhanded.logsErrors⟩
        · cases htruth.symm.trans (hfalse w rfl)
      | false =>
        refine ⟨_, run_to_false_sink hsettings rfl hverdict hopts htruth, ?_, fun _ => rfl⟩
        intro x hx htrue
        obtain rfl : w = x := Option.some.inj hx
        cases htruth.symm.trans htrue

/-- Two sinks of which one counts as true and raises a fault when it is called first, and the other one
    counts as false. -/
theorem run_writes_to_true_sink_of_two :
    let schema := Schema.intersection [.shape [], .array (.primitive .null)]
    let cells := [.sink (.ok true), .sink (.ok false), .options true (.ref 0), .options true (.ref 1)]
    let sink := ⟨[0], .badValue "full", 0⟩
    let s := { Session.holding cells ⟨3, 16⟩ with sinks := [(0, sink), (1, sink)] }
    ∃ explanation u t t', explain schema (.int 1) s = .ok explanation u ∧
      explanation.failures.length = 3 ∧
      run schema (.int 1) (.ref 2) s = .ok false t ∧
      Session.Handed (.ref 0) explanation.failures u t ∧ u.LogsErrors t ∧
      run schema (.int 1) (.ref 3) s = .ok false t' ∧ t' = u.logged explanation.lines := by
  intro schema cells sink s
  obtain ⟨failures, u, hexplain, hlength⟩ : ∃ failures u,
      explain schema (.int 1) s = .ok ⟨false, failures⟩ u ∧ failures.length = 3 := ⟨_, _, rfl, rfl⟩
  have hharmless : s.Harmless (.ref 0) := Session.harmless_of_sink rfl rfl rfl rfl
  have hharmless' : s.Harmless (.ref 1) := Session.harmless_of_sink rfl rfl rfl rfl
  have hopts : Options.coerce s.store.heap (.ref 2) = .ok ⟨true, some (.ref 0)⟩ := rfl
  have hopts' : Options.coerce s.store.heap (.ref 3) = .ok ⟨true, some (.ref 1)⟩ := rfl
  obtain ⟨t, hrun, hhanded, -⟩ :=
    run_writes_to_true_sink (.inl rfl) hopts (by rintro _ ⟨⟩; exact hharmless) hexplain
  obtain ⟨t', hrun', -, hlogged⟩ :=
    run_writes_to_true_sink (.inl rfl) hopts' (by rintro _ ⟨⟩; exact hharmless') hexplain
  obtain ⟨hlines, hlog⟩ := hhanded (.ref 0) rfl rfl
  exact ⟨_, u, t, t', hexplain, hlength, hrun, hlines, hlog, hrun',
    hlogged (by rintro _ ⟨⟩; rfl)⟩

/-- A sink that counts as false is given, and takes no line: the line is a record of the log. -/
theorem run_writes_to_log_despite_sink :
    let cells := [.sink (.ok false), .options true (.ref 0)]
    let s := { Session.holding cells ⟨3, 16⟩ with sinks := [(0, ⟨[], .badValue "full", 0⟩)] }
    ∃ t, run (.shape []) .null (.ref 1) s = .ok false t ∧ t.journal.lines = [] ∧
      t.journal.log =
        [⟨.info, "<root>: [INVALID_TYPE] Shape expected an object, got: null", none⟩] :=
  ⟨_, rfl, rfl, by decide⟩

end Conform
