import Conform.Proofs.TraceLines

namespace Conform

/-!
# Emission

Writing failures is one attempt for each of them, in order.  A problem that the sink raises becomes
an error of the log, and the next attempt is made as if nothing had happened; so the lines that the
sink took and the errors of the log together are all the failures.

* `Attempt`, `Session.Attempted` — attempts to hand lines to a sink, with what became of each;
* `Session.Attempted.log_eq` — the log gains one error for each line that was refused;
* `Sink.attempts`, `forM_emitOne_to_sink` — the attempts at a trace sink, by the numbers of its calls;
* `emit_attempted`, `run_attempted` — all failures are attempted;
* `emission_loses_nothing` — writing to the log and to sinks, on its own and at the end of a run.
-/

/-! ### Attempts -/

/-- An attempt to write the line of a failure, with the problem that the sink raised if it did not
    take the line. -/
structure Attempt where
  failure : Failure
  problem : Option Problem

namespace Attempt

/-- The line, if the sink took it. -/
def line? (attempt : Attempt) : Option Text :=
  if attempt.problem.isSome then none else some attempt.failure.line

/-- The record of the problem, if there was one. -/
def record? (attempt : Attempt) : Option LogRecord := attempt.problem.map (sinkRecord attempt.failure)

end Attempt

/-- The lines of failures are handed to a sink, one after the other, whatever becomes of those
    before. -/
inductive Session.Attempted (sink : Value) : List Attempt → Session → Session → Prop where
  | nil {s : Session} : Attempted sink [] s s
  | taken {failure : Failure} {rest : List Attempt} {s t u : Session}
    (h : callOnLine sink failure.line s = .ok () t) (hrest : Attempted sink rest t u) :
    Attempted sink (⟨failure, none⟩ :: rest) s u
  | refused {failure : Failure} {rest : List Attempt} {s t u : Session} {problem : Problem}
    (h : callOnLine sink failure.line s = .error problem t)
    (hrest : Attempted sink rest (t.addLog (sinkRecord failure problem)) u) :
    Attempted sink (⟨failure, some problem⟩ :: rest) s u

namespace Session

variable {s t : Session} {sink : Value} {attempts : List Attempt}

/-- No call of a value on a line raises a fatal problem, now or later. -/
def NeverFatal (s : Session) (sink : Value) : Prop :=
  ∀ t, s.Follows t → ∀ line problem u,
    callOnLine sink line t = .error problem u → problem.isFatal = false

theorem NeverFatal.later (h : s.NeverFatal sink) (hst : s.Follows t) : t.NeverFatal sink :=
  fun u hu => h u (hst.trans hu)

/-- Whether the log keeps a record. -/
def keeps (s : Session) (record : LogRecord) : Bool := s.logLevel.rank ≤ record.level.rank

theorem log_addLog (s : Session) (record : LogRecord) :
    (s.addLog record).journal.log = s.journal.log ++ [record].filter s.keeps := by
  rw [addLog]
  by_cases h : s.logLevel.rank ≤ record.level.rank
  · rw [if_pos h, List.filter_cons_of_pos (by simpa [keeps] using h)]
    rfl
  · rw [if_neg h, List.filter_cons_of_neg (by simpa [keeps] using h), List.filter_nil,
      List.append_nil]

theorem logLevel_addLog (s : Session) (record : LogRecord) :
    (s.addLog record).logLevel = s.logLevel := by
  rw [addLog]
  split <;> rfl

/-- The call of a value on a line logs nothing, and keeps the level of the log. -/
theorem sameLog_steady :
    Steady fun s t => t.journal.log = s.journal.log ∧ t.logLevel = s.logLevel where
  refl _ := ⟨rfl, rfl⟩
  trans h h' := ⟨h'.1.trans h.1, h'.2.trans h.2⟩
  load _ := ⟨rfl, rfl⟩
  addCall _ _ _ := ⟨rfl, rfl⟩
  countSinkCall _ _ := ⟨rfl, rfl⟩
  addLine _ _ := ⟨rfl, rfl⟩

/-- The log gains one error for each line that was refused, in order, and nothing else. -/
theorem Attempted.log_eq (h : Attempted sink attempts s t) :
    t.journal.log = s.journal.log ++ (attempts.filterMap Attempt.record?).filter s.keeps := by
  induction h with
  | nil => simp
  | @taken failure rest s t u h _ ih =>
    obtain ⟨hlog, hlevel⟩ := (sameLog_steady.callOnLine sink _).of_ok h
    have hkeeps : t.keeps = s.keeps := by
      funext record
      rw [keeps, keeps, hlevel]
    rw [ih, hlog, hkeeps]
    rfl
  | @refused failure rest s t u problem h _ ih =>
    obtain ⟨hlog, hlevel⟩ := (sameLog_steady.callOnLine sink _).of_error h
    have hkeeps (r : Session) (hr : r.logLevel = t.logLevel) : r.keeps = s.keeps := by
      funext record
      rw [keeps, keeps, hr, hlevel]
    rw [ih, log_addLog, hlog, hkeeps t rfl, hkeeps _ (logLevel_addLog t _), List.append_assoc,
      ← List.filter_append]
    rfl

end Session

/-- The lines of all failures are attempted. -/
theorem forM_emitOne_attempted {sink : Value} (failures : List Failure) {s : Session}
    (h : s.NeverFatal sink) :
    ∃ attempts t, failures.forM (emitOne (some sink)) s = .ok () t ∧
      Session.Attempted sink attempts s t ∧ attempts.map Attempt.failure = failures := by
  induction failures generalizing s with
  | nil => exact ⟨[], s, rfl, .nil, rfl⟩
  | cons failure rest ih =>
    have hcons : (failure :: rest).forM (emitOne (some sink)) s =
        (emitOne (some sink) failure >>= fun _ => rest.forM (emitOne (some sink))) s := rfl
    cases hcall : callOnLine sink failure.line s with
    | ok a t =>
      have hlater := (callOnLine_keeps sink _).follows_of_ok hcall
      obtain ⟨attempts, u, hu, hattempts, hfailures⟩ := ih (h.later hlater)
      rw [hcons, SessionM.bind_of_ok (emitOne_of_ok hcall)]
      exact ⟨_, u, hu, .taken hcall hattempts, congrArg (failure :: ·) hfailures⟩
    | error problem t =>
      -- the problem is logged, and later calls raise nothing fatal either
      have hfatal := h s (.refl s) _ _ _ hcall
      have hlater := (callOnLine_keeps sink _).follows_of_error hcall
      obtain ⟨attempts, u, hu, hattempts, hfailures⟩ :=
        ih (h.later (hlater.trans (.addLog (sinkRecord failure problem) t)))
      rw [hcons, SessionM.bind_of_ok (emitOne_of_error hcall hfatal)]
      exact ⟨_, u, hu, .refused hcall hattempts, congrArg (failure :: ·) hfailures⟩

/-! ### Trace sinks -/

/-- The attempts to write failures to a trace sink: the number of a call decides what becomes of
    it. -/
def Sink.attempts (sink : Sink) (failures : List Failure) : List Attempt :=
  (failures.zipIdx sink.count).map fun (failure, n) =>
    ⟨failure, if sink.raisesAt.contains n then some (.fault sink.fault) else none⟩

/-- A trace sink after a number of calls. -/
def Sink.called (sink : Sink) (n : Nat) : Sink := { sink with count := sink.count + n }

theorem Sink.attempts_cons (sink : Sink) (failure : Failure) (rest : List Failure) :
    sink.attempts (failure :: rest) =
      ⟨failure, if sink.raisesAt.contains sink.count then some (.fault sink.fault) else none⟩ ::
        (sink.called 1).attempts rest := rfl

/-- The object at an address is a trace sink, and no validator. -/
structure Session.HasSink (s : Session) (a : Addr) (sink : Sink) : Prop where
  schema : s.store.schemaOf? (.ref a) = none
  sink : s.sinks.lookup a = some sink

namespace Session

variable {s : Session} {a : Addr} {sink : Sink}

/-- To call a trace sink on a line is to write the line to it. -/
theorem HasSink.callOnLine_eq (h : s.HasSink a sink) (line : Text) :
    callOnLine (.ref a) line s = writeToSink a sink line s := by
  rw [callOnLine, SessionM.get_bind, h.schema]
  simp only [Value.addr?, Option.bind_some, h.sink, Option.getD_some]

/-- A call is counted. -/
theorem HasSink.countSinkCall (h : s.HasSink a sink) :
    (s.countSinkCall a).HasSink a (sink.called 1) := by
  refine ⟨h.schema, ?_⟩
  have hlookup := h.sink
  show (s.sinks.map _).lookup a = _
  generalize s.sinks = sinks at hlookup
  induction sinks with
  | nil => cases hlookup
  | cons entry rest ih =>
    obtain ⟨b, other⟩ := entry
    by_cases hab : a = b
    · subst hab
      rw [List.lookup_cons_self] at hlookup
      obtain rfl := Option.some.inj hlookup
      simp [Sink.called]
    · rw [List.lookup_cons, beq_false_of_ne hab] at hlookup
      rw [List.map_cons, if_neg (Ne.symm hab), List.lookup_cons, beq_false_of_ne hab]
      exact ih hlookup

theorem HasSink.addLog (h : s.HasSink a sink) (record : LogRecord) :
    (s.addLog record).HasSink a sink := by
  rw [Session.addLog]
  split
  · exact ⟨h.schema, h.sink⟩
  · exact h

theorem journal_addLog (s : Session) (record : LogRecord) :
    (s.addLog record).journal =
      ⟨s.journal.calls, s.journal.lines, s.journal.log ++ [record].filter s.keeps⟩ := by
  rw [← log_addLog, Session.addLog]
  split <;> rfl

end Session

/-- Writing failures to a trace sink calls it once for each of them.  The calls that do not raise
    its fault take the lines, in order, and each of the others adds an error to the log. -/
theorem forM_emitOne_to_sink {a : Addr} (failures : List Failure) {sink : Sink} {s : Session}
    (h : s.HasSink a sink) (hfault : sink.fault.isFatal = false) :
    ∃ t, failures.forM (emitOne (some (.ref a))) s = .ok () t ∧
      Session.Attempted (.ref a) (sink.attempts failures) s t ∧
      t.sinks.lookup a = some (sink.called failures.length) ∧
      t.journal.calls = s.journal.calls ∧
      t.journal.lines = s.journal.lines ++ (sink.attempts failures).filterMap Attempt.line? := by
  -- the induction is on the failures, with the number of calls before them left open
  induction failures generalizing sink s with
  | nil => exact ⟨s, rfl, .nil, h.sink, rfl, (List.append_nil _).symm⟩
  | cons failure rest ih =>
    have hcons : (failure :: rest).forM (emitOne (some (.ref a))) s =
        (emitOne (some (.ref a)) failure >>= fun _ => rest.forM (emitOne (some (.ref a)))) s := rfl
    have hcalled : (sink.called 1).called rest.length = sink.called (failure :: rest).length := by
      simp only [Sink.called, List.length_cons]
      congr 1
      omega
    have hcall := h.callOnLine_eq failure.line
    rw [writeToSink_eq] at hcall
    rw [hcons, Sink.attempts_cons, ← hcalled]
    by_cases hraises : sink.raisesAt.contains sink.count = true
    · rw [if_pos hraises] at hcall ⊢
      rw [SessionM.bind_of_ok (emitOne_of_error hcall hfault)]
      obtain ⟨u, hu, hattempted, hcount, hcalls, hlines⟩ := ih (h.countSinkCall.addLog _) hfault
      refine ⟨u, hu, .refused hcall hattempted, hcount, ?_, ?_⟩
      · rw [hcalls, Session.journal_addLog]
        rfl
      · rw [hlines, Session.journal_addLog]
        rfl
    · rw [if_neg hraises] at hcall ⊢
      rw [SessionM.bind_of_ok (emitOne_of_ok hcall)]
      have hlater : ((s.countSinkCall a).addLine failure.line).HasSink a (sink.called 1) :=
        ⟨h.schema, h.countSinkCall.sink⟩
      obtain ⟨u, hu, hattempted, hcount, hcalls, hlines⟩ := ih hlater hfault
      refine ⟨u, hu, .taken hcall hattempted, hcount, hcalls, ?_⟩
      rw [hlines]
      exact List.append_assoc s.journal.lines [failure.line] _

/-! ### Writing failures -/

section Emit

variable {s : Session}

theorem chooseSink_of_true {sink : Value} (h : s.store.heap.truth sink = .ok true) :
    chooseSink (some sink) s = .ok (some sink) s := by
  rw [chooseSink, SessionM.get_bind, h]
  rfl

/-- To a sink that counts as true, the lines of all failures are attempted. -/
theorem emit_attempted (failures : List Failure) {sink : Value}
    (htruth : s.store.heap.truth sink = .ok true) (h : s.NeverFatal sink) :
    ∃ attempts t, emit failures (some sink) s = .ok () t ∧
      Session.Attempted sink attempts s t ∧ attempts.map Attempt.failure = failures := by
  rw [emit, SessionM.bind_of_ok (chooseSink_of_true htruth)]
  exact forM_emitOne_attempted failures h

end Emit

/-- So are those of all rejections at the end of a run, which returns the verdict. -/
theorem run_attempted {schema : Schema} {v opts sink : Value} {s : Session} {settings : Settings}
    {o : Outcome Bool} {verdict : Bool} (hsettings : s.Settled settings)
    (ho : schema.rootOutcome (s.scope settings true) v = o) (hverdict : o.result = .ok verdict)
    (hopts : Options.coerce s.store.heap opts = .ok ⟨true, some sink⟩) (hsink : s.NeverFatal sink)
    (htruth : s.store.heap.truth sink = .ok true) :
    ∃ attempts t, run schema v opts s = .ok verdict t ∧
      Session.Attempted sink attempts (s.evaluated settings o.calls) t ∧
      attempts.map Attempt.failure = o.rejections.map Rejection.report := by
  have hfollows := Session.Follows.evaluated s settings o.calls
  obtain ⟨attempts, t, hemit, hattempted, hfailures⟩ :=
    emit_attempted (o.rejections.map Rejection.report)
      (by rw [hfollows.store]; exact htruth) (hsink.later hfollows)
  refine ⟨attempts, t, ?_, hattempted, hfailures⟩
  refine run_of_emit hsettings ho hverdict hopts rfl (fun hnil => ?_) hemit
  -- without rejections there are no attempts
  rw [hnil, List.map_nil, List.map_eq_nil_iff] at hfailures
  subst hfailures
  cases hattempted
  rfl

/-- Without a sink, the lines of all failures go to the log.  A sink that counts as true and raises
    nothing fatal is called once for each failure, in order, on its line, whatever became of the
    calls before; every problem that it raises is one error of the log, which names the path of that
    failure.  Of a trace sink, the calls that do not raise its fault take the lines.

    At the end of a run, these failures are those of the explanation.  The verdict is that of the
    explanation as well, and it is the same in all sessions with these objects and settings, whichever
    calls of the sink raise a problem there. -/
theorem emission_loses_nothing (s : Session) (failures : List Failure) :
    emit failures none s = .ok () (s.logged (failures.map Failure.line)) ∧
      (∀ sink, s.store.heap.truth sink = .ok true → s.NeverFatal sink →
        ∃ attempts t, emit failures (some sink) s = .ok () t ∧
          Session.Attempted sink attempts s t ∧ attempts.map Attempt.failure = failures ∧
          t.journal.log =
            s.journal.log ++ (attempts.filterMap Attempt.record?).filter s.keeps) ∧
      (∀ a sink, s.store.heap.truth (.ref a) = .ok true → s.HasSink a sink →
        sink.fault.isFatal = false →
        ∃ t, emit failures (some (.ref a)) s = .ok () t ∧
          Session.Attempted (.ref a) (sink.attempts failures) s t ∧
          t.sinks.lookup a = some (sink.called failures.length) ∧
          t.journal = ⟨s.journal.calls,
            s.journal.lines ++ (sink.attempts failures).filterMap Attempt.line?,
            s.journal.log ++ ((sink.attempts failures).filterMap Attempt.record?).filter s.keeps⟩) ∧
      ∀ (schema : Schema) (v opts : Value) (settings : Settings) (sink : Option Value),
        Options.coerce s.store.heap opts = .ok ⟨true, sink⟩ →
        ∃ (result : Except Fault Bool) (explained : List Failure),
          ∀ s' : Session, s'.store.heap = s.store.heap → s'.Settled settings →
            (∀ w, sink = some w → s'.Harmless w) →
            ∃ t u, explain schema v s' = finish u (result.map fun valid => ⟨valid, explained⟩) ∧
              run schema v opts s' = finish t result ∧
              ∀ verdict, result = .ok verdict → ∀ w, sink = some w →
                s.store.heap.truth w = .ok true →
                ∃ attempts, attempts.map Attempt.failure = explained ∧
                  Session.Attempted w attempts u t := by
  refine ⟨emit_to_log failures s, fun sink htruth hsink => ?_, fun a sink htruth hsink hfault => ?_,
    fun schema v opts settings sink hopts => ?_⟩
  · obtain ⟨attempts, t, hemit, hattempted, hfailures⟩ := emit_attempted failures htruth hsink
    exact ⟨attempts, t, hemit, hattempted, hfailures, hattempted.log_eq⟩
  · obtain ⟨t, hforM, hattempted, hcount, hcalls, hlines⟩ :=
      forM_emitOne_to_sink failures hsink hfault
    refine ⟨t, ?_, hattempted, hcount, ?_⟩
    · rw [emit, SessionM.bind_of_ok (chooseSink_of_true htruth)]
      exact hforM
    · rw [← hcalls, ← hlines, ← hattempted.log_eq]
  · -- the evaluation depends on the objects and the settings, and not on what the sink does
    let o := schema.rootOutcome ⟨s.store.heap, settings.maxDepth, settings.renderLimit, true⟩ v
    refine ⟨o.result, o.rejections.map Rejection.report, fun s' hheap hsettings hsink => ?_⟩
    have ho : schema.rootOutcome (s'.scope settings true) v = o := by rw [Session.scope, hheap]
    have hopts' : Options.coerce s'.store.heap opts = .ok ⟨true, sink⟩ := by rw [hheap, hopts]
    have hexplain := explain_eq schema v hsettings ho
    -- an evaluation that ends in a fault writes nothing, and both calls end in it
    cases hresult : o.result with
    | error fault =>
      obtain ⟨t, hrun⟩ := exists_run_eq_finish schema v hsettings hopts' fun _ => hsink
      rw [ho, hresult] at hrun
      rw [hresult] at hexplain
      refine ⟨t, _, hexplain, hrun, ?_⟩
      rintro _ ⟨⟩
    | ok verdict =>
      rw [hresult] at hexplain
      cases sink with
      | none =>
        refine ⟨_, _, hexplain, run_to_log hsettings ho hresult hopts', ?_⟩
        rintro _ _ w ⟨⟩
      | some w =>
        obtain ⟨truth, htruth⟩ := (hsink w rfl).truth
        rw [hheap] at htruth
        cases truth with
        -- a sink that counts as false is not called at all
        | false =>
          obtain ⟨t, hrun⟩ := exists_run_eq_finish schema v hsettings hopts' fun _ => hsink
          rw [ho, hresult] at hrun
          refine ⟨t, _, hexplain, hrun, ?_⟩
          rintro _ _ x ⟨⟩ htrue
          cases htruth.symm.trans htrue
        | true =>
          obtain ⟨attempts, t, hrun, hattempted, hfailures⟩ :=
            run_attempted hsettings ho hresult hopts' (hsink w rfl).calls (by rw [hheap, htruth])
          refine ⟨t, _, hexplain, hrun, ?_⟩
          rintro _ _ x ⟨⟩ -
          exact ⟨attempts, hfailures, hattempted⟩

/-- Three failures are written to a sink, which raises a fault when it is called first and last. -/
theorem emission_loses_nothing_of_three :
    let s := { Session.holding [.sink (.ok true)] ⟨3, 16⟩ with
      sinks := [(0, ⟨[0, 2], .badValue "full", 0⟩)] }
    let failures : List Failure :=
      [⟨"a", .invalidField, "one"⟩, ⟨"b", .invalidField, "two"⟩, ⟨"", .invalidType, "three"⟩]
    ∃ t, emit failures (some (.ref 0)) s = .ok () t ∧
      t.journal.lines = (["b: [INVALID_FIELD] two"] : List Text) ∧
      t.journal.log =
        [⟨.error, "Diagnostics sink failed while reporting a", some "ValueError"⟩,
          ⟨.error, "Diagnostics sink failed while reporting <root>", some "ValueError"⟩] := by
  intro s failures
  obtain ⟨-, -, hsink, -⟩ := emission_loses_nothing s failures
  obtain ⟨t, hemit, -, -, hjournal⟩ := hsink 0 _ rfl ⟨rfl, rfl⟩ rfl
  refine ⟨t, hemit, ?_, ?_⟩
  · rw [hjournal]
    decide
  · rw [hjournal]
    decide

end Conform
