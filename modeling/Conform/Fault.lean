import Conform.Value

namespace Conform

/-!
# Faults

What a predicate, a sink, a mapping or the display of a value may raise.

* `FaultKind` — the class of a fault, as far as evaluation tells classes apart;
* `Fault` — a class, with the value that the fault was raised with;
* `Refusal` — a fault that is not fatal.
-/

/-- The class of a fault.  Evaluation recovers from an exhausted stack at its root, turns the end of an
    iteration into another fault where it would end an enclosing one, and never holds back a fatal
    fault; all other classes differ by their name alone. -/
inductive FaultKind where
  | exhausted
  | endOfIteration
  | missingKey
  | fatal (name : String)
  | ordinary (name : String)
  deriving DecidableEq, Inhabited

namespace FaultKind

/-- The name of a class. -/
def name : FaultKind → String
  | .exhausted => "RecursionError"
  | .endOfIteration => "StopIteration"
  | .missingKey => "KeyError"
  | .fatal name => name
  | .ordinary name => name

/-- The classes that ask the program to end. -/
def fatalNames : List String := ["KeyboardInterrupt", "SystemExit", "GeneratorExit", "BaseException"]

/-- The class of a name. -/
def ofName (s : String) : FaultKind :=
  if s = "RecursionError" then .exhausted
  else if s = "StopIteration" then .endOfIteration
  else if s = "KeyError" then .missingKey
  else if fatalNames.contains s then .fatal s
  else .ordinary s

/-- Whether the class asks the program to end. -/
def isFatal : FaultKind → Bool
  | .fatal _ => true
  | _ => false

end FaultKind

/-- A fault: its class, and the value it was raised with, which for most faults is a string. -/
structure Fault where
  kind : FaultKind
  argument : Option Value
  deriving DecidableEq, Inhabited

namespace Fault

/-- Whether the fault asks the program to end. -/
def isFatal (f : Fault) : Bool := f.kind.isFatal

/-! ### Faults of the library -/

/-- An operation does not fit the type of its operand. -/
def typeMismatch (message : Text) : Fault := ⟨.ordinary "TypeError", some (.str message)⟩

/-- A value is outside of what an operation takes. -/
def badValue (message : Text) : Fault := ⟨.ordinary "ValueError", some (.str message)⟩

/-- An index is outside of a sequence. -/
def badIndex (message : Text) : Fault := ⟨.ordinary "IndexError", some (.str message)⟩

/-- Division by zero. -/
def divisionByZero (message : Text) : Fault :=
  ⟨.ordinary "ZeroDivisionError", some (.str message)⟩

/-- A key that a mapping does not hold. -/
def absentKey (key : Text) : Fault := ⟨.missingKey, some (.str key)⟩

/-- A value is nested more deeply than it can be shown. -/
def tooDeep : Fault := ⟨.exhausted, some (.str "maximum recursion depth exceeded")⟩

/-- The most decimal digits of an integer that is converted to text. -/
def maxDigits : Nat := 4300

/-- An integer has more than `maxDigits` decimal digits. -/
def tooManyDigits : Fault :=
  badValue ("Exceeds the limit (4300 digits) for integer string conversion; " ++
    "use sys.set_int_max_str_digits() to increase the limit")

/-- The end of an iteration was signalled inside an enclosing iteration. -/
def brokenIteration : Fault :=
  ⟨.ordinary "RuntimeError", some (.str "generator raised StopIteration")⟩

/-- A fault that passes through an enclosing iteration: a signalled end would end that one too, and is
    replaced. -/
def throughIteration (f : Fault) : Fault :=
  if f.kind = .endOfIteration then brokenIteration else f

end Fault

/-- What an object raises that refuses to be shown or to be tested for truth. -/
abbrev Refusal := { fault : Fault // fault.isFatal = false }

end Conform
