import Conform.Proofs.Escape
import Conform.Session

namespace Conform

/-!
# Top-level calls in a session

What the two top-level calls come to, given the outcome of the evaluation.  Settings that are
settled are read without a complaint; the calls of tests are entered in the journal; trace lines
are written last, and a sink that raises nothing fatal cannot change the verdict.

* `Session.Settled` — the settings that a top-level call finds;
* `Session.evaluated`, `finish` — the session after an evaluation, and the end of a step there;
* `judge_eq`, `explain_eq`, `run_of_quiet` — the top-level calls as ends of steps;
* `Session.Follows` — what every later session has in common with an earlier one;
* `Session.Steady`, `SessionM.Preserves` — relations that hold across every call on a line;
* `Session.Harmless` — a sink none of whose calls raises a fatal problem;
* `emit_of_harmless`, `run_of_logging` — with such a sink, all trace lines are written;
* `exists_run_eq_finish` — and the run ends as the evaluation does.
-/

variable {α : Type}

/-! ### Steps in a row -/

namespace SessionM

variable {β : Type} {x : SessionM α} {s t : Session}

theorem bind_of_ok {a : α} (h : x s = .ok a t) (f : α → SessionM β) : (x >>= f) s = f a t := by
  show EStateM.bind x f s = _
  rw [EStateM.bind, h]

theorem bind_of_error {problem : Problem} (h : x s = .error problem t) (f : α → SessionM β) :
    (x >>= f) s = .error problem t := by
  show EStateM.bind x f s = _
  rw [EStateM.bind, h]

theorem bind_eq_ok_iff {f : α → SessionM β} {b : β} :
    (x >>= f) s = .ok b t ↔ ∃ a u, x s = .ok a u ∧ f a u = .ok b t := by
  show EStateM.bind x f s = _ ↔ _
  rw [EStateM.bind]
  cases hx : x s with
  | ok a u => simp [and_assoc]
  | error problem u => simp

theorem get_bind (f : Session → SessionM β) : (get >>= f) s = f s s := rfl

end SessionM

/-! ### Settings and ends -/

namespace Session

/-- The settings of a session: those that are kept, or else those of the environment. -/
def Settled (s : Session) (settings : Settings) : Prop :=
  s.loaded = some settings ∨ s.loaded = none ∧ Settings.load s.environment s.envFile = .ok settings

/-- The session after an evaluation under some settings, in which some calls of tests were
    made. -/
def evaluated (s : Session) (settings : Settings) (calls : List Call) : Session :=
  calls.foldl addTestCall { s with loaded := some settings }

/-- A session with some objects, under settings that are kept. -/
def holding (cells : List Cell) (settings : Settings) : Session :=
  { start [] with store := { Store.empty with heap := ⟨cells.toArray⟩ }, loaded := some settings }

end Session

/-- The end of a step with a given result. -/
def finish (s : Session) : Except Fault α → EStateM.Result Problem Session α
  | .ok a => .ok a s
  | .error fault => .error (.fault fault) s

theorem readSettings_of_settled {s : Session} {settings : Settings} (h : s.Settled settings) :
    readSettings s = .ok settings { s with loaded := some settings } := by
  rw [readSettings, SessionM.get_bind]
  rcases h with h | ⟨hnone, hload⟩
  · -- settings that are kept are read, and kept again
    rw [h]
    show EStateM.Result.ok settings s = _
    rw [← h]
  · rw [hnone, hload]
    rfl

/-! ### The top-level calls -/

theorem Outcome.settle_initial (o : Outcome α) :
    o.settle Context.initial = ⟨0, [], o.rejections, o.calls⟩ := by
  simp [settle, Context.initial]

section Calls

variable (schema : Schema) (v : Value) {s : Session} {settings : Settings} (h : s.Settled settings)
include h

/-- An evaluation under the settings ends as the outcome of the schema says. -/
theorem judge_eq (collect : Bool) {o : Outcome Bool}
    (ho : schema.rootOutcome (s.scope settings collect) v = o) :
    judge collect schema v s =
      finish (s.evaluated settings o.calls)
        (o.result.map fun verdict => (verdict, o.rejections)) := by
  have hroot : evaluateRoot (s.scope settings collect) schema v = o.onto Context.initial := by
    rw [evaluateRoot_eq, ho]
  have hscope : Session.scope { s with loaded := some settings } settings collect =
      s.scope settings collect := rfl
  rw [judge, SessionM.bind_of_ok (readSettings_of_settled h), SessionM.get_bind, hscope, hroot]
  cases hr : o.result with
  | ok verdict =>
    rw [Outcome.onto_of_ok hr, Outcome.settle_initial]
    rfl
  | error fault =>
    rw [Outcome.onto_of_error hr, Outcome.settle_initial]
    rfl

/-- An explanation shows every rejection. -/
theorem explain_eq {o : Outcome Bool} (ho : schema.rootOutcome (s.scope settings true) v = o) :
    explain schema v s =
      finish (s.evaluated settings o.calls)
        (o.result.map fun valid => ⟨valid, o.rejections.map Rejection.report⟩) := by
  have hjudge := judge_eq schema v h true ho
  rw [explain]
  rcases hr : o.result with fault | _ | _
  · rw [SessionM.bind_of_error (by rw [hjudge, hr]; rfl)]
    rfl
  · rw [SessionM.bind_of_ok (by rw [hjudge, hr]; rfl)]
    rfl
  · rw [SessionM.bind_of_ok (by rw [hjudge, hr]; rfl)]
    -- an accepted value is explained by nothing, which is what its outcome leaves
    have hclean : o.rejections = [] := by
      rw [← ho] at hr ⊢
      exact schema.rootOutcome_clean _ v hr
    rw [hclean]
    rfl

/-- An explanation that is returned for a calm value shows the verdict and the rejections of the
    evaluation: nothing is recovered from at the root. -/
theorem outcome_of_explain (hspares : schema.SparesStack (s.scope settings true))
    (hcalm : s.store.heap.Calm v) {explanation : Explanation} {t : Session}
    (hexplain : explain schema v s = .ok explanation t)
    {o : Outcome Bool} (ho : schema.outcome (s.scope settings true) settings.maxDepth v = o) :
    o.result = .ok explanation.valid ∧
      explanation.failures = o.rejections.map Rejection.report := by
  have hroot : schema.rootOutcome (s.scope settings true) v = o := by
    rw [← ho]
    exact rootOutcome_eq_outcome (fun _ => hspares) hcalm
  rw [explain_eq schema v h hroot] at hexplain
  cases hr : o.result with
  | error fault =>
    rw [hr] at hexplain
    cases hexplain
  | ok valid =>
    rw [hr] at hexplain
    obtain ⟨rfl, -⟩ := EStateM.Result.ok.inj hexplain
    exact ⟨rfl, rfl⟩

variable {opts : Value} {options : Options}
  (hopts : Options.coerce s.store.heap opts = .ok options)
include hopts

/-- Without trace lines, a run ends with the evaluation. -/
theorem run_of_quiet (hquiet : options.logFailures = false) {o : Outcome Bool}
    (ho : schema.rootOutcome (s.scope settings false) v = o) :
    run schema v opts s = finish (s.evaluated settings o.calls) o.result := by
  have hjudge := judge_eq schema v h false ho
  have hcoerce : SessionM.ofExcept (Options.coerce s.store.heap opts) s = .ok options s := by
    rw [hopts]
    rfl
  rw [run, SessionM.get_bind, SessionM.bind_of_ok hcoerce, hquiet]
  cases hr : o.result with
  | ok verdict =>
    rw [SessionM.bind_of_ok (by rw [hjudge, hr]; rfl)]
    rfl
  | error fault =>
    rw [SessionM.bind_of_error (by rw [hjudge, hr]; rfl)]
    rfl

/-- With trace lines, a run goes on to write them when the evaluation has a verdict. -/
theorem run_of_logging (hlog : options.logFailures = true) {o : Outcome Bool}
    (ho : schema.rootOutcome (s.scope settings true) v = o) :
    run schema v opts s =
      match o.result with
      | .ok verdict =>
        (do
          if !o.rejections.isEmpty then emit (o.rejections.map Rejection.report) options.sink
          return verdict : SessionM Bool) (s.evaluated settings o.calls)
      | .error fault => .error (.fault fault) (s.evaluated settings o.calls) := by
  have hjudge := judge_eq schema v h true ho
  have hcoerce : SessionM.ofExcept (Options.coerce s.store.heap opts) s = .ok options s := by
    rw [hopts]
    rfl
  rw [run, SessionM.get_bind, SessionM.bind_of_ok hcoerce, hlog]
  -- the evaluation comes first, and a fault leaves nothing to write
  cases hr : o.result with
  | ok verdict =>
    rw [SessionM.bind_of_ok (by rw [hjudge, hr]; rfl)]
    rfl
  | error fault =>
    rw [SessionM.bind_of_error (by rw [hjudge, hr]; rfl)]

/-- A run that returns, returns the verdict of the evaluation. -/
theorem result_of_run {verdict : Bool} {t : Session} (hrun : run schema v opts s = .ok verdict t) :
    (schema.rootOutcome (s.scope settings options.logFailures) v).result = .ok verdict := by
  -- without trace lines the verdict is all there is
  cases hlog : options.logFailures with
  | false =>
    rw [run_of_quiet schema v h hopts hlog rfl] at hrun
    cases hr : (schema.rootOutcome (s.scope settings false) v).result with
    | error fault =>
      rw [hr] at hrun
      cases hrun
    | ok found =>
      rw [hr] at hrun
      obtain ⟨rfl, -⟩ := EStateM.Result.ok.inj hrun
      rfl
  | true =>
    rw [run_of_logging schema v h hopts hlog rfl] at hrun
    cases hr : (schema.rootOutcome (s.scope settings true) v).result with
    | error fault =>
      rw [hr] at hrun
      cases hrun
    | ok found =>
      simp only [hr] at hrun
      split at hrun
      · -- the lines come in between, and the verdict after them
        obtain ⟨_, _, -, hpure⟩ := SessionM.bind_eq_ok_iff.mp hrun
        obtain ⟨rfl, -⟩ := EStateM.Result.ok.inj hpure
        rfl
      · obtain ⟨rfl, -⟩ := EStateM.Result.ok.inj hrun
        rfl

end Calls

/-! ### Later sessions -/

/-- A sink apart from the number of its calls. -/
def Sink.uncounted (sink : Sink) : Sink := { sink with count := 0 }

/-- What a later session has in common with an earlier one: the same objects, the same sinks
    apart from the number of their calls, and a journal in which the calls made before come
    first. -/
structure Session.Follows (s t : Session) : Prop where
  store : t.store = s.store
  sinks : t.sinks.map (Prod.map id Sink.uncounted) = s.sinks.map (Prod.map id Sink.uncounted)
  calls : s.journal.calls <+: t.journal.calls

namespace Session.Follows

theorem refl (s : Session) : s.Follows s := ⟨rfl, rfl, List.prefix_rfl⟩

theorem trans {s t u : Session} (h : s.Follows t) (h' : t.Follows u) : s.Follows u :=
  ⟨h'.store.trans h.store, h'.sinks.trans h.sinks, h.calls.trans h'.calls⟩

theorem addLine (line : Text) (s : Session) : s.Follows (s.addLine line) :=
  ⟨rfl, rfl, List.prefix_rfl⟩

theorem addLog (record : LogRecord) (s : Session) : s.Follows (s.addLog record) := by
  rw [Session.addLog]
  split
  · exact ⟨rfl, rfl, List.prefix_rfl⟩
  · exact refl s

theorem addCall (name : Option Text) (argument : Value) (s : Session) :
    s.Follows (s.addCall name argument) :=
  ⟨rfl, rfl, List.prefix_append _ _⟩

theorem countSinkCall (a : Addr) (s : Session) : s.Follows (s.countSinkCall a) := by
  refine ⟨rfl, ?_, List.prefix_rfl⟩
  rw [Session.countSinkCall, List.map_map]
  refine List.map_congr_left fun ⟨b, sink⟩ _ => ?_
  by_cases ha : b = a <;> simp [ha, Sink.uncounted]

end Session.Follows

/-- A relation of an earlier session to a later one that holds across everything which the call of a
    value on a line may change: settings are kept, calls are entered, calls of sinks are counted,
    and lines are taken. -/
structure Session.Steady (r : Session → Session → Prop) : Prop where
  refl : ∀ s, r s s
  trans : ∀ {s t u}, r s t → r t u → r s u
  load : ∀ {s : Session} {settings : Settings}, s.Settled settings →
    r s { s with loaded := some settings }
  addCall : ∀ (name : Option Text) (argument : Value) (s : Session),
    r s (s.addCall name argument)
  countSinkCall : ∀ (a : Addr) (s : Session), r s (s.countSinkCall a)
  addLine : ∀ (line : Text) (s : Session), r s (s.addLine line)

theorem Session.Follows.steady : Session.Steady Session.Follows :=
  ⟨refl, trans, fun _ => ⟨rfl, rfl, List.prefix_rfl⟩, addCall, countSinkCall, addLine⟩

namespace SessionM

/-- The session after a step, whether the step has a result or not. -/
def after (body : SessionM α) (s : Session) : Session :=
  match body s with
  | .ok _ t => t
  | .error _ t => t

/-- Every session after a step is in a relation to the one before. -/
def Preserves (r : Session → Session → Prop) (body : SessionM α) : Prop :=
  ∀ s : Session, r s (after body s)

/-- Every session after a step follows the one before. -/
def Keeps (body : SessionM α) : Prop := ∀ s : Session, s.Follows (after body s)

namespace Preserves

variable {β : Type} {x : SessionM α} {r : Session → Session → Prop}

theorem of_ok (h : Preserves r x) {s t : Session} {a : α} (hx : x s = .ok a t) : r s t := by
  have hs := h s
  rwa [after, hx] at hs

theorem of_error (h : Preserves r x) {s t : Session} {problem : Problem}
    (hx : x s = .error problem t) : r s t := by
  have hs := h s
  rwa [after, hx] at hs

theorem modify {change : Session → Session} (h : ∀ s : Session, r s (change s)) :
    Preserves r (modify change) := h

/-- What is read from the session may be used like any other result. -/
theorem get_bind {f : Session → SessionM β} (hf : ∀ s : Session, r s (after (f s) s)) :
    Preserves r (get >>= f) := hf

variable (hr : Session.Steady r)
include hr

theorem pure (a : α) : Preserves r (Pure.pure a : SessionM α) := fun s => hr.refl s

theorem ofExcept (result : Except Problem α) : Preserves r (SessionM.ofExcept result) := by
  intro s
  cases result <;> exact hr.refl s

theorem bind {f : α → SessionM β} (hx : Preserves r x) (hf : ∀ a, Preserves r (f a)) :
    Preserves r (x >>= f) := by
  intro s
  rw [after]
  cases h : x s with
  | ok a t =>
    rw [bind_of_ok h]
    exact hr.trans (hx.of_ok h) (hf a t)
  | error problem t =>
    rw [bind_of_error h]
    exact hx.of_error h

theorem discard (hx : Preserves r x) : Preserves r (discard x) := hx.bind hr fun _ => .pure hr ()

end Preserves

end SessionM

theorem writeToSink_eq (a : Addr) (sink : Sink) (line : Text) (s : Session) :
    writeToSink a sink line s =
      if sink.raisesAt.contains sink.count then .error (.fault sink.fault) (s.countSinkCall a)
      else .ok () ((s.countSinkCall a).addLine line) := by
  by_cases h : sink.raisesAt.contains sink.count = true
  · rw [if_pos h, writeToSink, if_pos h]
    rfl
  · rw [if_neg h, writeToSink, if_neg h]
    rfl

namespace Session.Steady

variable {r : Session → Session → Prop} (hr : Session.Steady r)
include hr

theorem addTestCall (s : Session) (call : Call) : r s (s.addTestCall call) := by
  rw [Session.addTestCall]
  cases call.test.origin with
  | caller name => exact hr.addCall name _ s
  | builtin f => exact hr.refl s
  | sink a => exact hr.trans (hr.countSinkCall a s) (hr.addLine _ _)

theorem foldl_addTestCall (s : Session) (calls : List Call) :
    r s (calls.foldl Session.addTestCall s) := by
  induction calls generalizing s with
  | nil => exact hr.refl s
  | cons call rest ih => exact hr.trans (hr.addTestCall s call) (ih _)

theorem readSettings : SessionM.Preserves r readSettings := by
  intro s
  rw [SessionM.after, Conform.readSettings, SessionM.get_bind]
  cases hloaded : s.loaded with
  | some settings => exact hr.refl s
  | none =>
    cases hload : Settings.load s.environment s.envFile with
    | ok settings => exact hr.load (.inr ⟨hloaded, hload⟩)
    | error complaints => exact hr.refl s

theorem judge (collect : Bool) (schema : Schema) (v : Value) :
    SessionM.Preserves r (judge collect schema v) := by
  refine hr.readSettings.bind hr fun settings => .get_bind fun s => ?_
  rw [SessionM.after]
  cases evaluateRoot (s.scope settings collect) schema v with
  | ok verdict ctx => exact hr.foldl_addTestCall s ctx.calls
  | error fault ctx => exact hr.foldl_addTestCall s ctx.calls

theorem writeToSink (a : Addr) (sink : Sink) (line : Text) :
    SessionM.Preserves r (writeToSink a sink line) := by
  intro s
  rw [SessionM.after, writeToSink_eq]
  by_cases h : sink.raisesAt.contains sink.count = true
  · rw [if_pos h]
    exact hr.countSinkCall a s
  · rw [if_neg h]
    exact hr.trans (hr.countSinkCall a s) (hr.addLine line _)

theorem callFunction (test : Test) (v : Value) : SessionM.Preserves r (callFunction test v) := by
  refine SessionM.Preserves.bind hr (.modify fun s => hr.addTestCall s _) fun _ => ?_
  cases test with
  | plain origin answer => exact .get_bind fun s => SessionM.Preserves.ofExcept hr _ s
  | validating name schema => exact (hr.judge false schema v).bind hr fun _ => .pure hr _

/-- To call a value on a line changes a session in no other ways. -/
theorem callOnLine (v : Value) (line : Text) : SessionM.Preserves r (callOnLine v line) := by
  refine .get_bind fun s => ?_
  split
  · exact (hr.judge false _ _).discard hr s
  · exact hr.writeToSink _ _ line s
  · exact (hr.callFunction _ _).discard hr s
  · rename_i t _ _ _
    cases t <;> exact hr.refl s
  · exact hr.refl s

end Session.Steady

theorem Session.Follows.evaluated (s : Session) (settings : Settings) (calls : List Call) :
    s.Follows (s.evaluated settings calls) := by
  -- which settings are kept makes no difference here
  have hkept : s.Follows { s with loaded := some settings } := ⟨rfl, rfl, List.prefix_rfl⟩
  exact hkept.trans (steady.foldl_addTestCall _ calls)

theorem callOnLine_keeps (v : Value) (line : Text) : SessionM.Keeps (callOnLine v line) :=
  Session.Follows.steady.callOnLine v line

section Keeps

variable {x : SessionM α} (h : SessionM.Keeps x) {s t : Session}
include h

theorem SessionM.Keeps.follows_of_ok {a : α} (hx : x s = .ok a t) : s.Follows t :=
  Preserves.of_ok h hx

theorem SessionM.Keeps.follows_of_error {problem : Problem} (hx : x s = .error problem t) :
    s.Follows t :=
  Preserves.of_error h hx

end Keeps

/-! ### Trace lines -/

/-- A value can be called on lines, it says whether it counts as true, and no call of it raises a fatal
    problem, now or later. -/
structure Session.Harmless (s : Session) (sink : Value) : Prop where
  callable : s.store.heap.isCallable sink = true
  truth : ∃ b, s.store.heap.truth sink = .ok b
  calls : ∀ t, s.Follows t → ∀ line problem u,
    callOnLine sink line t = .error problem u → problem.isFatal = false

/-- The usual options write no trace. -/
theorem Session.harmless_of_usual {s : Session} (h : Options.usual.logFailures = true)
    (sink : Value) (_ : Options.usual.sink = some sink) : s.Harmless sink :=
  absurd h Bool.false_ne_true

theorem Session.Harmless.later {s t : Session} {sink : Value} (h : s.Harmless sink)
    (hst : s.Follows t) : t.Harmless sink :=
  ⟨by rw [hst.store]; exact h.callable, by rw [hst.store]; exact h.truth,
    fun u hu => h.calls u (hst.trans hu)⟩

/-- A sink apart from its count is found again in every later session. -/
theorem Session.Follows.lookup_sinks {s t : Session} (h : s.Follows t) (a : Addr) :
    (t.sinks.lookup a).map Sink.uncounted = (s.sinks.lookup a).map Sink.uncounted := by
  have lookup_map (l : List (Addr × Sink)) :
      (l.map (Prod.map id Sink.uncounted)).lookup a = (l.lookup a).map Sink.uncounted := by
    induction l with
    | nil => rfl
    | cons entry rest ih =>
      obtain ⟨b, sink⟩ := entry
      by_cases hab : a = b
      · simp [hab]
      · simp [List.lookup_cons, beq_false_of_ne hab, ih]
  rw [← lookup_map, ← lookup_map, h.sinks]

/-- To call a trace sink on a line is to write the line to it.  By then the sink may have been
    called, but otherwise it is the same. -/
theorem callOnLine_of_sink {s t : Session} (hst : s.Follows t) {a : Addr} {sink : Sink}
    (hschema : s.store.schemaOf? (.ref a) = none) (hsink : s.sinks.lookup a = some sink)
    (line : Text) :
    ∃ later : Sink, later.uncounted = sink.uncounted ∧
      callOnLine (.ref a) line t = writeToSink a later line t := by
  have hlookup := hst.lookup_sinks a
  rw [hsink] at hlookup
  obtain ⟨later, hlater, hsame⟩ := Option.map_eq_some_iff.mp hlookup
  refine ⟨later, hsame, ?_⟩
  rw [callOnLine, SessionM.get_bind, hst.store, hschema]
  simp only [Value.addr?, Option.bind_some, hlater, Option.getD_some]

/-- A trace sink that has a truth value and whose fault is not fatal is harmless, whichever of its calls
    raise the fault. -/
theorem Session.harmless_of_sink {s : Session} {a : Addr} {sink : Sink} {truth : Bool}
    (hcell : s.store.heap.cell a = .sink (.ok truth)) (hschema : s.store.schemaOf? (.ref a) = none)
    (hsink : s.sinks.lookup a = some sink) (hfault : sink.fault.isFatal = false) :
    s.Harmless (.ref a) := by
  have htruth : s.store.heap.truth (.ref a) = .ok truth := by
    rw [Heap.truth, hcell]
    rfl
  refine ⟨by simp [Heap.isCallable, hcell], ⟨truth, htruth⟩, fun t hst line problem u hcall => ?_⟩
  obtain ⟨later, hsame, hwrite⟩ := callOnLine_of_sink hst hschema hsink line
  have hlaterFault : later.uncounted.fault = sink.uncounted.fault := by rw [hsame]
  rw [hwrite, writeToSink_eq] at hcall
  split at hcall
  · cases hcall
    show later.uncounted.fault.isFatal = false
    rw [hlaterFault]
    exact hfault
  · cases hcall

/-- The record of a problem that a sink raises. -/
def sinkRecord (failure : Failure) (problem : Problem) : LogRecord :=
  ⟨.error, "Diagnostics sink failed while reporting " ++ failure.location, some problem.className⟩

section EmitOne

variable {sink : Value} {failure : Failure} {s t : Session}

/-- A line that the sink takes is written. -/
theorem emitOne_of_ok (h : callOnLine sink failure.line s = .ok () t) :
    emitOne (some sink) failure s = .ok () t := by
  have hattempt : (callOnLine sink failure.line).attempt s = .ok (.ok ()) t := by
    rw [SessionM.attempt, h]
  rw [emitOne, SessionM.bind_of_ok hattempt]
  rfl

/-- A problem that is not fatal goes to the log. -/
theorem emitOne_of_error {problem : Problem}
    (h : callOnLine sink failure.line s = .error problem t) (hfatal : problem.isFatal = false) :
    emitOne (some sink) failure s = .ok () (t.addLog (sinkRecord failure problem)) := by
  have hattempt : (callOnLine sink failure.line).attempt s = .ok (.error problem) t := by
    rw [SessionM.attempt, h]
  rw [emitOne, SessionM.bind_of_ok hattempt]
  simp only [hfatal, Bool.false_eq_true, if_false]
  rfl

end EmitOne

/-- One trace line is written, to a harmless sink or to the log. -/
theorem emitOne_of_harmless {sink : Option Value} (failure : Failure) {s : Session}
    (h : ∀ v, sink = some v → s.Harmless v) :
    ∃ t, emitOne sink failure s = .ok () t ∧ s.Follows t := by
  cases sink with
  | none => exact ⟨_, rfl, .addLog _ s⟩
  | some v =>
    cases hcall : callOnLine v failure.line s with
    | ok a t => exact ⟨t, emitOne_of_ok hcall, (callOnLine_keeps v _).follows_of_ok hcall⟩
    | error problem t =>
      have hfatal := (h v rfl).calls s (.refl s) _ _ _ hcall
      have hst := (callOnLine_keeps v _).follows_of_error hcall
      exact ⟨_, emitOne_of_error hcall hfatal, hst.trans (.addLog _ t)⟩

theorem forM_emitOne_of_harmless {sink : Option Value} (failures : List Failure) {s : Session}
    (h : ∀ v, sink = some v → s.Harmless v) :
    ∃ t, failures.forM (emitOne sink) s = .ok () t ∧ s.Follows t := by
  induction failures generalizing s with
  | nil => exact ⟨s, rfl, .refl s⟩
  | cons failure rest ih =>
    obtain ⟨t, ht, hst⟩ := emitOne_of_harmless failure h
    obtain ⟨u, hu, htu⟩ := ih fun v hv => (h v hv).later hst
    refine ⟨u, ?_, hst.trans htu⟩
    show (emitOne sink failure >>= fun _ => rest.forM (emitOne sink)) s = _
    rw [SessionM.bind_of_ok ht, hu]

theorem chooseSink_of_harmless {sink : Option Value} {s : Session}
    (h : ∀ v, sink = some v → s.Harmless v) :
    ∃ chosen, chooseSink sink s = .ok chosen s ∧ ∀ v, chosen = some v → s.Harmless v := by
  cases sink with
  | none => exact ⟨none, rfl, h⟩
  | some v =>
    obtain ⟨b, hb⟩ := (h v rfl).truth
    refine ⟨if b then some v else none, ?_, fun w hw => ?_⟩
    · rw [chooseSink, SessionM.get_bind, hb]
      rfl
    · cases b with
      | true => exact h w hw
      | false => simp at hw

/-- All trace lines are written. -/
theorem emit_of_harmless {sink : Option Value} (failures : List Failure) {s : Session}
    (h : ∀ v, sink = some v → s.Harmless v) :
    ∃ t, emit failures sink s = .ok () t ∧ s.Follows t := by
  obtain ⟨chosen, hchoose, hchosen⟩ := chooseSink_of_harmless h
  rw [emit, SessionM.bind_of_ok hchoose]
  exact forM_emitOne_of_harmless failures hchosen

theorem emit_nil_of_harmless {sink : Option Value} {s : Session}
    (h : ∀ v, sink = some v → s.Harmless v) : emit [] sink s = .ok () s := by
  obtain ⟨chosen, hchoose, -⟩ := chooseSink_of_harmless h
  rw [emit, SessionM.bind_of_ok hchoose]
  rfl

/-- With trace lines to a harmless sink, a run has the result of the evaluation, and the session
    that it leaves is the one after the evaluation with the lines written. -/
theorem run_of_harmless (schema : Schema) (v : Value) {s : Session} {settings : Settings}
    (h : s.Settled settings) {opts : Value} {options : Options}
    (hopts : Options.coerce s.store.heap opts = .ok options) (hlog : options.logFailures = true)
    (hsink : ∀ sink, options.sink = some sink → s.Harmless sink) {o : Outcome Bool}
    (ho : schema.rootOutcome (s.scope settings true) v = o) :
    ∃ failures t, emit failures options.sink (s.evaluated settings o.calls) = .ok () t ∧
      (s.evaluated settings o.calls).Follows t ∧ run schema v opts s = finish t o.result := by
  -- the evaluation comes before the lines, and a harmless sink is harmless after it too
  have hlater sink (hs : options.sink = some sink) :=
    (hsink sink hs).later (.evaluated s settings o.calls)
  rw [run_of_logging schema v h hopts hlog ho]
  cases hr : o.result with
  | error fault =>
    -- without a verdict, no line is written
    exact ⟨[], _, emit_nil_of_harmless hlater, .refl _, rfl⟩
  | ok verdict =>
    by_cases hempty : o.rejections.isEmpty = true
    · simp only [hempty, Bool.not_true, Bool.false_eq_true, if_false]
      exact ⟨[], _, emit_nil_of_harmless hlater, .refl _, rfl⟩
    · obtain ⟨t, ht, hfollows⟩ := emit_of_harmless (o.rejections.map Rejection.report) hlater
      refine ⟨_, t, ht, hfollows, ?_⟩
      simp only [hempty, Bool.not_false, if_true]
      rw [SessionM.bind_of_ok ht]
      rfl

/-- A run whose trace lines can be written ends as the evaluation does. -/
theorem exists_run_eq_finish (schema : Schema) (v : Value) {s : Session} {settings : Settings}
    (h : s.Settled settings) {opts : Value} {options : Options}
    (hopts : Options.coerce s.store.heap opts = .ok options)
    (hsink : options.logFailures = true → ∀ sink, options.sink = some sink → s.Harmless sink) :
    ∃ t, run schema v opts s =
      finish t (schema.rootOutcome (s.scope settings options.logFailures) v).result := by
  cases hlog : options.logFailures with
  | false => exact ⟨_, run_of_quiet schema v h hopts hlog rfl⟩
  | true =>
    obtain ⟨failures, t, -, -, hrun⟩ := run_of_harmless schema v h hopts hlog (hsink hlog) rfl
    exact ⟨t, hrun⟩

end Conform
