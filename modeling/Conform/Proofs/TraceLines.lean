import Conform.Proofs.TopLevel

namespace Conform

/-!
# Trace lines

A run with trace lines writes what an explanation shows.  An explanation drops the rejections of an
accepted value, whereas a run writes whatever rejections there are: the two agree because nothing
that is accepted leaves a rejection behind.

* `Explanation.lines` — the failures of an explanation as lines;
* `Session.Unfailing`, `Session.TakesLines` — sinks that take every line;
* `emit_of_unfailing`, `emit_to_log` — writing failures is handing over their lines, in order;
* `run_writes_explanation` — the lines of a run are those of the explanation.
-/

/-- The failures of an explanation as lines. -/
def Explanation.lines (explanation : Explanation) : List Text :=
  explanation.failures.map Failure.line

/-! ### Sinks that take every line -/

/-- A value counts as true, and no call of it on a line raises a problem, now or later. -/
structure Session.Unfailing (s : Session) (sink : Value) : Prop where
  truth : s.store.heap.truth sink = .ok true
  calls : ∀ t, s.Follows t → ∀ line, ∃ u, callOnLine sink line t = .ok () u

theorem Session.Unfailing.later {s t : Session} {sink : Value} (h : s.Unfailing sink)
    (hst : s.Follows t) : t.Unfailing sink :=
  ⟨by rw [hst.store]; exact h.truth, fun u hu => h.calls u (hst.trans hu)⟩

/-- A trace sink counts as true, and none of its calls raises its fault. -/
structure Session.TakesLines (s : Session) (a : Addr) : Prop where
  cell : s.store.heap.cell a = .sink (.ok true)
  schema : s.store.schemaOf? (.ref a) = none
  sink : ∃ sink, s.sinks.lookup a = some sink ∧ sink.raisesAt = []

namespace Session.TakesLines

variable {s t : Session} {a : Addr}

/-- Such a sink takes a line at any later time. -/
theorem callOnLine_eq (h : s.TakesLines a) (hst : s.Follows t) (line : Text) :
    callOnLine (.ref a) line t = .ok () ((t.countSinkCall a).addLine line) := by
  obtain ⟨sink, hsink, hnever⟩ := h.sink
  obtain ⟨later, hsame, hwrite⟩ := callOnLine_of_sink hst h.schema hsink line
  have hraises : later.raisesAt = [] := by
    have huncounted : later.uncounted.raisesAt = sink.uncounted.raisesAt := by rw [hsame]
    exact huncounted.trans hnever
  rw [hwrite, writeToSink_eq, hraises]
  rfl

theorem unfailing (h : s.TakesLines a) : s.Unfailing (.ref a) :=
  ⟨by rw [Heap.truth, h.cell]; rfl, fun _ hst line => ⟨_, h.callOnLine_eq hst line⟩⟩

/-- The lines that are handed to such a sink are those that it took, in order. -/
theorem lines_of_forM (h : s.TakesLines a) (hst : s.Follows t) (lines : List Text) {u : Session}
    (hu : lines.forM (callOnLine (.ref a)) t = .ok () u) :
    u.journal.lines = t.journal.lines ++ lines := by
  induction lines generalizing t with
  | nil =>
    cases hu
    rw [List.append_nil]
  | cons line rest ih =>
    have hcall := h.callOnLine_eq hst line
    replace hu : (callOnLine (.ref a) line >>= fun _ => rest.forM (callOnLine (.ref a))) t =
        .ok () u := hu
    rw [SessionM.bind_of_ok hcall] at hu
    rw [ih (hst.trans ((callOnLine_keeps _ _).follows_of_ok hcall)) hu]
    show (t.journal.lines ++ [line]) ++ rest = _
    rw [List.append_assoc, List.singleton_append]

end Session.TakesLines

/-! ### Writing lines -/

/-- Writing failures to a sink that takes every line hands their lines over, in order. -/
theorem forM_emitOne_of_unfailing {sink : Value} (failures : List Failure) {s : Session}
    (h : s.Unfailing sink) :
    ∃ t, (failures.map Failure.line).forM (callOnLine sink) s = .ok () t ∧
      failures.forM (emitOne (some sink)) s = .ok () t := by
  induction failures generalizing s with
  | nil => exact ⟨s, rfl, rfl⟩
  | cons failure rest ih =>
    obtain ⟨t, hcall⟩ := h.calls s (.refl s) failure.line
    have hone := emitOne_of_ok hcall
    obtain ⟨u, hlines, hfailures⟩ := ih (h.later ((callOnLine_keeps _ _).follows_of_ok hcall))
    refine ⟨u, ?_, ?_⟩
    · show (callOnLine sink failure.line >>= fun _ => _) s = _
      rw [SessionM.bind_of_ok hcall, hlines]
    · show (emitOne (some sink) failure >>= fun _ => _) s = _
      rw [SessionM.bind_of_ok hone, hfailures]

theorem emit_of_unfailing {sink : Value} (failures : List Failure) {s : Session}
    (h : s.Unfailing sink) :
    ∃ t, (failures.map Failure.line).forM (callOnLine sink) s = .ok () t ∧
      emit failures (some sink) s = .ok () t := by
  have hchoose : chooseSink (some sink) s = .ok (some sink) s := by
    rw [chooseSink, SessionM.get_bind, h.truth]
    rfl
  rw [emit, SessionM.bind_of_ok hchoose]
  exact forM_emitOne_of_unfailing failures h

/-- The session with lines in the log, if the log keeps records of their level. -/
def Session.logged (s : Session) (lines : List Text) : Session :=
  if s.logLevel.rank ≤ LogLevel.info.rank then
    s.onJournal fun j => { j with log := j.log ++ lines.map fun line => ⟨.info, line, none⟩ }
  else s

theorem Session.logged_cons (s : Session) (line : Text) (lines : List Text) :
    (s.addLog ⟨.info, line, none⟩).logged lines = s.logged (line :: lines) := by
  rw [addLog, logged, logged]
  by_cases hlevel : s.logLevel.rank ≤ LogLevel.info.rank
  · simp [hlevel, onJournal]
  · simp [hlevel]

theorem Session.logged_nil (s : Session) : s.logged [] = s := by
  simp only [logged, List.map_nil, List.append_nil, onJournal, ite_self]

/-- Without a sink, the lines of failures go to the log, in order. -/
theorem emit_to_log (failures : List Failure) (s : Session) :
    emit failures none s = .ok () (s.logged (failures.map Failure.line)) := by
  have hchoose : chooseSink none s = .ok none s := rfl
  rw [emit, SessionM.bind_of_ok hchoose]
  induction failures generalizing s with
  | nil =>
    rw [List.map_nil, Session.logged_nil]
    rfl
  | cons failure rest ih =>
    have hone : emitOne none failure s = .ok () (s.addLog ⟨.info, failure.line, none⟩) := rfl
    show (emitOne none failure >>= fun _ => rest.forM (emitOne none)) s = _
    rw [SessionM.bind_of_ok hone, ih _ rfl, List.map_cons, Session.logged_cons]

/-! ### Runs and explanations -/

theorem result_of_evaluateRoot {scope : Scope} {schema : Schema} {v : Value} {verdict : Bool}
    {ctx : Context} (h : evaluateRoot scope schema v = .ok verdict ctx) :
    (schema.rootOutcome scope v).result = .ok verdict := by
  rw [evaluateRoot_eq] at h
  exact Outcome.result_of_onto h

section Runs

variable {schema : Schema} {v opts : Value} {s : Session} {settings : Settings} {o : Outcome Bool}
  {verdict : Bool} (hsettings : s.Settled settings)
  (ho : schema.rootOutcome (s.scope settings true) v = o) (hverdict : o.result = .ok verdict)
include hsettings ho hverdict

/-- A run with trace lines writes whatever rejections there are.  Without any, the sink is not even
    asked whether it counts as true. -/
theorem run_of_emit {options : Options} {t : Session}
    (hopts : Options.coerce s.store.heap opts = .ok options) (hlog : options.logFailures = true)
    (hnone : o.rejections = [] → t = s.evaluated settings o.calls)
    (hemit : emit (o.rejections.map Rejection.report) options.sink (s.evaluated settings o.calls) =
      .ok () t) :
    run schema v opts s = .ok verdict t := by
  rw [run_of_logging schema v hsettings hopts hlog ho, hverdict]
  by_cases hempty : o.rejections.isEmpty = true
  · simp only [hempty, Bool.not_true, Bool.false_eq_true, if_false]
    rw [hnone (List.isEmpty_iff.mp hempty)]
    rfl
  · simp only [hempty, Bool.not_false, if_true]
    rw [SessionM.bind_of_ok hemit]
    rfl

theorem run_to_unfailing {sink : Value}
    (hopts : Options.coerce s.store.heap opts = .ok ⟨true, some sink⟩) (hsink : s.Unfailing sink) :
    ∃ u, run schema v opts s = .ok verdict u ∧
      ((o.rejections.map Rejection.report).map Failure.line).forM (callOnLine sink)
        (s.evaluated settings o.calls) = .ok () u := by
  obtain ⟨u, hcalls, hemit⟩ := emit_of_unfailing (o.rejections.map Rejection.report)
    (hsink.later (.evaluated s settings o.calls))
  refine ⟨u, run_of_emit hsettings ho hverdict hopts rfl (fun hnil => ?_) hemit, hcalls⟩
  rw [hnil] at hcalls
  cases hcalls
  rfl

theorem run_to_log (hopts : Options.coerce s.store.heap opts = .ok ⟨true, none⟩) :
    run schema v opts s =
      .ok verdict ((s.evaluated settings o.calls).logged
        ((o.rejections.map Rejection.report).map Failure.line)) := by
  refine run_of_emit hsettings ho hverdict hopts rfl (fun hnil => ?_) (emit_to_log _ _)
  rw [hnil]
  exact Session.logged_nil _

end Runs

/-- If an evaluation raises nothing, a run writes the lines of the explanation: a sink that takes
    every line is handed exactly these, in order, in the session in which the explanation ends, and
    without a sink they are the new records of the log.  An accepted value has no line. -/
theorem run_writes_explanation {s : Session} {settings : Settings} {schema : Schema} {v : Value}
    {verdict : Bool} {ctx : Context} (hsettings : s.Settled settings)
    (hverdict : evaluateRoot (s.scope settings true) schema v = .ok verdict ctx) :
    ∃ explanation t, explain schema v s = .ok explanation t ∧
      (explanation.valid = true → explanation.lines = []) ∧
      (∀ opts sink, Options.coerce s.store.heap opts = .ok ⟨true, some sink⟩ → s.Unfailing sink →
        ∃ u, run schema v opts s = .ok explanation.valid u ∧
          explanation.lines.forM (callOnLine sink) t = .ok () u) ∧
      (∀ opts a, Options.coerce s.store.heap opts = .ok ⟨true, some (.ref a)⟩ → s.TakesLines a →
        ∃ u, run schema v opts s = .ok explanation.valid u ∧
          u.journal.lines = t.journal.lines ++ explanation.lines) ∧
      ∀ opts, Options.coerce s.store.heap opts = .ok ⟨true, none⟩ →
        run schema v opts s = .ok explanation.valid (t.logged explanation.lines) := by
  have hresult := result_of_evaluateRoot hverdict
  have hexplain := explain_eq schema v hsettings rfl
  rw [hresult] at hexplain
  refine ⟨_, _, hexplain, fun hvalid => ?_, fun opts sink hopts hsink => ?_,
    fun opts a hopts htakes => ?_, fun opts hopts => ?_⟩
  · -- what is accepted leaves nothing behind
    have hclean := schema.rootOutcome_clean _ v (hresult.trans (congrArg _ hvalid))
    rw [Explanation.lines, hclean]
    rfl
  · exact run_to_unfailing hsettings rfl hresult hopts hsink
  · obtain ⟨u, hrun, hcalls⟩ := run_to_unfailing hsettings rfl hresult hopts htakes.unfailing
    exact ⟨u, hrun, htakes.lines_of_forM (.evaluated s settings _) _ hcalls⟩
  · exact run_to_log hsettings rfl hresult hopts

/-- A member of a union leaves a rejection that is thrown away, since another member accepts; the
    field behind it is rejected by all of them. -/
theorem run_writes_explanation_of_union :
    let schema := Schema.shape
      [(.plain "a", .union [.array (.primitive .null), .primitive .number]),
        (.plain "b", .union [.array (.primitive .null), .primitive .number])]
    let cells :=
      [.dict [(.str "a", .int 1), (.str "b", .null)], .sink (.ok true), .options true (.ref 1)]
    let s := { Session.holding cells ⟨3, 16⟩ with sinks := [(1, ⟨[], .badValue "full", 0⟩)] }
    let expected : List Text :=
      ["b: [INVALID_TYPE] Array expected a sequence, got: null",
        "b: [NO_MATCH] Member of union \"null\" does not match any of 2 members",
        "b: [INVALID_FIELD] Member of shape null for b does not match expected type"]
    ∃ explanation t u, explain schema (.ref 0) s = .ok explanation t ∧
      run schema (.ref 0) (.ref 2) s = .ok false u ∧
      u.journal.lines = explanation.lines ∧ explanation.lines = expected := by
  intro schema cells s expected
  have htakes : s.TakesLines 1 := ⟨rfl, rfl, _, rfl, rfl⟩
  have hverdict : ∃ ctx, evaluateRoot (s.scope ⟨3, 16⟩ true) schema (.ref 0) = .ok false ctx :=
    ⟨_, rfl⟩
  obtain ⟨ctx, hverdict⟩ := hverdict
  obtain ⟨explanation, t, hexplain, -, -, hsink, -⟩ := run_writes_explanation (.inl rfl) hverdict
  obtain ⟨u, hrun, hlines⟩ := hsink (.ref 2) 1 rfl htakes
  have hcomputed : ∃ failures t, explain schema (.ref 0) s = .ok ⟨false, failures⟩ t ∧
      t.journal.lines = [] ∧ failures.map Failure.line = expected := ⟨_, _, rfl, rfl, by decide⟩
  obtain ⟨failures, t', hsame, hnone, hexpected⟩ := hcomputed
  rw [hsame] at hexplain
  cases hexplain
  rw [hnone] at hlines
  exact ⟨_, _, u, hsame, hrun, hlines, hexpected⟩

end Conform
