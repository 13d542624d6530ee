import Conform.Text

namespace Conform

/-!
# Failure codes

Why a validator rejects a value.  The name of a code is its text wherever it is written as a string.
-/

/-- Why a validator rejects a value. -/
inductive FailureCode where
  | invalidType
  | missingField
  | invalidField
  | invalidElement
  | lengthMismatch
  | noMatch
  | intersectionFailed
  | missingTag
  | unknownTag
  | predicateError
  | depthExceeded
  deriving DecidableEq, Inhabited

namespace FailureCode

/-- The name of a code. -/
def name : FailureCode → String
  | .invalidType => "INVALID_TYPE"
  | .missingField => "MISSING_FIELD"
  | .invalidField => "INVALID_FIELD"
  | .invalidElement => "INVALID_ELEMENT"
  | .lengthMismatch => "LENGTH_MISMATCH"
  | .noMatch => "NO_MATCH"
  | .intersectionFailed => "INTERSECTION_FAILED"
  | .missingTag => "MISSING_TAG"
  | .unknownTag => "UNKNOWN_TAG"
  | .predicateError => "PREDICATE_ERROR"
  | .depthExceeded => "DEPTH_EXCEEDED"

/-- Every code, in the order of the declaration. -/
def all : List FailureCode :=
  [.invalidType, .missingField, .invalidField, .invalidElement, .lengthMismatch, .noMatch,
    .intersectionFailed, .missingTag, .unknownTag, .predicateError, .depthExceeded]

/-- The code of a name. -/
def ofName? (s : Text) : Option FailureCode := all.find? fun c => Text.ofString c.name == s

/-- A name reads back as its code. -/
theorem ofName?_name (c : FailureCode) : ofName? c.name = some c := by cases c <;> rfl

/-- The code inside a sentence: its name behind the name of the enumeration. -/
def qualifiedName (c : FailureCode) : String := "FailureCode." ++ c.name

end FailureCode

end Conform
