import Conform.Construct
import Conform.Evaluate
import Conform.Journal
import Conform.Settings

namespace Conform

/-!
# Sessions

A session is what lasts from one step of a caller to the next.  Top-level calls read the settings when
they are first needed, and keep them until they are cleared.

* `Session`, `SessionM` — the state, and steps over it, which keep it when they end in a problem;
* `readSettings` — the settings, loaded at most once between two clearings;
* `emit` — failure reports as trace lines, to a sink or to the log;
* `run`, `explain` — the two top-level calls.
-/

/-! ### State -/

/-- A trace sink: the calls, by their number, that raise its fault, and how many calls there were. -/
structure Sink where
  raisesAt : List Nat
  fault : Fault
  count : Nat
  deriving DecidableEq, Inhabited

/-- What lasts from one step to the next: the objects, the names bound to values, the environment with
    its file, the settings once they are loaded, the level of the log, the sinks by address, and the
    journal of the present step. -/
structure Session where
  store : Store
  names : List (String × Value)
  environment : Variables
  envFile : String
  loaded : Option Settings
  logLevel : LogLevel
  sinks : List (Addr × Sink)
  journal : Journal
  deriving Inhabited

/-- A session at its start, in a given environment. -/
def Session.start (environment : Variables) : Session :=
  ⟨.empty, [], environment, "", none, .info, [], .empty⟩

/-- A step over the session. -/
abbrev SessionM := EStateM Problem Session

namespace SessionM

/-- The step that ends as a given result does. -/
def ofExcept {α : Type} (result : Except Problem α) : SessionM α := fun s =>
  match result with
  | .ok a => .ok a s
  | .error problem => .error problem s

/-- A computation over the store as a step.  The store is taken out of the session meanwhile, so that it
    is changed in place. -/
def ofBuild {α : Type} (body : Build α) : SessionM α := fun s =>
  let store := s.store
  let rest := { s with store := .empty }
  match body store with
  | .ok a store => .ok a { rest with store := store }
  | .error problem store => .error problem { rest with store := store }

/-- Run a step, and hand its problem over as a result. -/
def attempt {α : Type} (body : SessionM α) : SessionM (Except Problem α) := fun s =>
  match body s with
  | .ok a after => .ok (.ok a) after
  | .error problem after => .ok (.error problem) after

end SessionM

/-! ### Journal -/

/-- How many characters of an argument are kept with the call. -/
def callLimit : Int := 80

namespace Session

/-- Change the journal. -/
def onJournal (change : Journal → Journal) (s : Session) : Session :=
  { s with journal := change s.journal }

/-- Note a line that a sink took. -/
def addLine (line : Text) : Session → Session :=
  onJournal fun j => { j with lines := j.lines ++ [line] }

/-- Note a log record, if its level is kept. -/
def addLog (record : LogRecord) (s : Session) : Session :=
  if s.logLevel.rank ≤ record.level.rank then
    s.onJournal fun j => { j with log := j.log ++ [record] }
  else s

/-- Note the call of a function of the caller. -/
def addCall (name : Option Text) (argument : Value) (s : Session) : Session :=
  s.onJournal fun j =>
    { j with calls := j.calls ++ [(name, s.store.heap.render callLimit argument)] }

/-- Count a call of a sink. -/
def countSinkCall (a : Addr) (s : Session) : Session :=
  { s with
    sinks := s.sinks.map fun entry =>
      if entry.1 = a then (a, { entry.2 with count := entry.2.count + 1 }) else entry }

/-- Note a call of a test; built-in functions leave no trace, and a sink takes the argument as a line. -/
def addTestCall (s : Session) (call : Call) : Session :=
  match call.test.origin with
  | .caller name => s.addCall name call.argument
  | .builtin _ => s
  | .sink a =>
    (s.countSinkCall a).addLine (call.argument.text?.getD (s.store.heap.rendering call.argument))

end Session

/-! ### Settings -/

/-- The settings: those that were loaded before, or those of the environment, which are then kept.  If
    they cannot be loaded, nothing is kept. -/
def readSettings : SessionM Settings := do
  let s ← get
  match s.loaded with
  | some settings => return settings
  | none =>
    match Settings.load s.environment s.envFile with
    | .ok settings =>
      set { s with loaded := some settings }
      return settings
    | .error complaints => throw (.invalid complaints)

/-! ### Top-level evaluation -/

/-- The scope of a top-level call. -/
def Session.scope (s : Session) (settings : Settings) (collect : Bool) : Scope :=
  ⟨s.store.heap, settings.maxDepth, settings.renderLimit, collect⟩

/-- Evaluate a schema under the settings: the verdict with the rejections. -/
def judge (collect : Bool) (schema : Schema) (v : Value) : SessionM (Bool × List Rejection) := do
  let settings ← readSettings
  let s ← get
  match evaluateRoot (s.scope settings collect) schema v with
  | .ok verdict ctx =>
    set (ctx.calls.foldl Session.addTestCall s)
    return (verdict, ctx.rejections)
  | .error fault ctx =>
    set (ctx.calls.foldl Session.addTestCall s)
    throw (.fault fault)

/-! ### Sinks -/

/-- Hand a line to a trace sink: the call is counted, and raises or takes the line. -/
def writeToSink (a : Addr) (sink : Sink) (line : Text) : SessionM Unit := do
  modify (Session.countSinkCall a)
  if sink.raisesAt.contains sink.count then throw (.fault sink.fault)
  modify (Session.addLine line)

/-- Call a type on a line: only strings and lists can be made of it. -/
def convertLine (t : TypeName) : SessionM Unit :=
  match t with
  | .str | .list => pure ()
  | .int | .dict => throw (.fault (.badValue ("no " ++ t.name ++ " can be made of a line")))

/-- Call a function on a value. -/
def callFunction (test : Test) (v : Value) : SessionM Value := do
  modify fun s => s.addTestCall ⟨test, v⟩
  match test with
  | .plain _ answer => SessionM.ofExcept ((answer (← get).store.heap v).mapError .fault)
  | .validating _ schema => return .bool (← judge false schema v).1

/-- Call a value on a line.  Whatever it answers is dropped. -/
def callOnLine (v : Value) (line : Text) : SessionM Unit := do
  let s ← get
  match s.store.schemaOf? v, v.addr?.bind fun a => s.sinks.lookup a, s.store.testOf? v, v with
  | some schema, _, _, _ => discard (judge false schema (.str line))
  | _, some sink, _, _ => writeToSink (v.addr?.getD 0) sink line
  | _, _, some test, _ => discard (callFunction test (.str line))
  | _, _, _, .type t => convertLine t
  | _, _, _, _ => throw (.misuse (.notCallable (s.store.heap.operandTypeName v)))

/-- Where trace lines go: a sink that counts as true, else the log. -/
def chooseSink (sink : Option Value) : SessionM (Option Value) := do
  match sink with
  | none => return none
  | some v =>
    let truth ← SessionM.ofExcept (((← get).store.heap.truth v).mapError .fault)
    return if truth then some v else none

/-- Write one failure report.  A problem of the sink is logged, unless it is fatal. -/
def emitOne (sink : Option Value) (failure : Failure) : SessionM Unit := do
  match sink with
  | none => modify (Session.addLog ⟨.info, failure.line, none⟩)
  | some v =>
    match ← (callOnLine v failure.line).attempt with
    | .ok () => pure ()
    | .error problem =>
      if problem.isFatal then throw problem
      modify (Session.addLog
        ⟨.error, "Diagnostics sink failed while reporting " ++ failure.location,
          some problem.className⟩)

/-- Write failure reports as trace lines, in order. -/
def emit (failures : List Failure) (sink : Option Value) : SessionM Unit := do
  let sink ← chooseSink sink
  failures.forM (emitOne sink)

/-! ### The two top-level calls -/

/-- Validate a value.  Trace lines are written only when the options ask for them. -/
def run (schema : Schema) (v opts : Value) : SessionM Bool := do
  let options ← SessionM.ofExcept (Options.coerce (← get).store.heap opts)
  let (verdict, rejections) ← judge options.logFailures schema v
  if options.logFailures && !rejections.isEmpty then
    emit (rejections.map Rejection.report) options.sink
  return verdict

/-- Call a value as a validator.  Of a plain function, which takes no options, the answer counts as the
    verdict if it counts as true. -/
def call (validator v : Value) (opts : Option Value) : SessionM Bool := do
  let s ← get
  match s.store.schemaOf? validator, s.store.testOf? validator, opts with
  | some schema, _, _ => run schema v (opts.getD .null)
  | none, some test, none =>
    let answer ← callFunction test v
    SessionM.ofExcept ((s.store.heap.truth answer).mapError .fault)
  | _, _, _ => throw (.misuse (.notCallable (s.store.heap.operandTypeName validator)))

/-- The verdict on a value, and the reason for a rejection. -/
structure Explanation where
  valid : Bool
  failures : List Failure
  deriving DecidableEq, Inhabited

/-- Validate a value, and return every failure report instead of writing it. -/
def explain (schema : Schema) (v : Value) : SessionM Explanation := do
  let (valid, rejections) ← judge true schema v
  return ⟨valid, if valid then [] else rejections.map Rejection.report⟩

end Conform
