import Conform.Rejection

namespace Conform

/-!
# The journal of a step

What a step leaves behind beside its result.

* `LogRecord` — one entry of the log, above the level that is kept;
* `Journal` — calls of the caller's functions, lines that sinks took, and the log.
-/

/-- How grave a log record is. -/
inductive LogLevel where
  | debug
  | info
  | warning
  | error
  | critical
  deriving DecidableEq, Inhabited

namespace LogLevel

/-- The place of a level in their order. -/
def rank : LogLevel → Nat
  | .debug => 10
  | .info => 20
  | .warning => 30
  | .error => 40
  | .critical => 50

/-- The name of a level. -/
def name : LogLevel → String
  | .debug => "DEBUG"
  | .info => "INFO"
  | .warning => "WARNING"
  | .error => "ERROR"
  | .critical => "CRITICAL"

/-- Other names of levels; a level that is not set is that of the enclosing log. -/
def otherNames : List (String × LogLevel) :=
  [("WARN", warning), ("FATAL", critical), ("NOTSET", warning)]

/-- The level of a name. -/
def ofName? (s : String) : Option LogLevel :=
  match [debug, info, warning, error, critical].find? (·.name == s) with
  | some level => some level
  | none => otherNames.lookup s

/-- A name reads back as its level. -/
theorem ofName?_name (l : LogLevel) : ofName? l.name = some l := by cases l <;> rfl

end LogLevel

/-- A log record, with the class of the problem it is about. -/
structure LogRecord where
  level : LogLevel
  message : Text
  problem : Option String
  deriving DecidableEq, Inhabited

/-- What happened during a step, each list in order: calls of functions by their name with the argument
    as text, lines that sinks took, and log records. -/
structure Journal where
  calls : List (Option Text × Text)
  lines : List Text
  log : List LogRecord
  deriving DecidableEq, Inhabited

/-- The journal of a step during which nothing happened. -/
def Journal.empty : Journal := ⟨[], [], []⟩

end Conform
