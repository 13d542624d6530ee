import Conform.Value

namespace Conform

/-!
# Causes of rejection

What a validator has against a value.  The cause fixes the failure code, and the sentence as soon as it
is known how values are quoted.

* `SequenceRule` — the two combinators that look into sequences;
* `Cause` — the causes, each with the data its sentence shows;
* `Cause.code`, `Cause.message` — the two views of a cause.
-/

/-- The combinators that look into sequences. -/
inductive SequenceRule where
  | array
  | tuple
  deriving DecidableEq, Inhabited

namespace SequenceRule

/-- The name of the combinator. -/
def name : SequenceRule → String
  | .array => "array"
  | .tuple => "tuple"

/-- The name at the start of a sentence. -/
def title : SequenceRule → String
  | .array => "Array"
  | .tuple => "Tuple"

end SequenceRule

/-- What a validator has against a value: its kind or length, a child that rejects a part of it or the
    whole, its tag, a fault of the test, or that there is no depth or stack left to look at it. -/
inductive Cause where
  | noObject (v : Value)
  | noSequence (rule : SequenceRule) (v : Value)
  | wrongLength (expected found : Nat)
  | field (name : Label) (member : Value)
  | element (rule : SequenceRule) (item : Value)
  | noMember (count : Nat) (v : Value)
  | someMember (verdicts : List Bool) (v : Value)
  | noTag (tag : Label)
  | noVariant (tag : Label) (tagValue : Value)
  | raised (name : Text) (className : String) (sentence : Text)
  | tooDeep (limit : Nat)
  | noStack
  deriving DecidableEq, Inhabited

namespace Cause

/-- The code of a cause.  A field that is not there is missing, whatever its validator is. -/
def code : Cause → FailureCode
  | .noObject _ | .noSequence _ _ => .invalidType
  | .wrongLength _ _ => .lengthMismatch
  | .field _ member => if member = .undefined then .missingField else .invalidField
  | .element _ _ => .invalidElement
  | .noMember _ _ => .noMatch
  | .someMember _ _ => .intersectionFailed
  | .noTag _ => .missingTag
  | .noVariant _ _ => .unknownTag
  | .raised _ _ _ => .predicateError
  | .tooDeep _ | .noStack => .depthExceeded

/-- The sentence that describes a cause, given the quotes of values. -/
def message (quote : Value → Text) : Cause → Text
  | .noObject v => "Shape expected an object, got: " ++ quote v
  | .noSequence rule v => rule.title ++ " expected a sequence, got: " ++ quote v
  | .wrongLength expected found =>
    "Tuple expected " ++ toString expected ++ " members, got " ++ toString found
  | .field name member =>
    "Member of shape " ++ quote member ++ " for " ++ name.inline ++ " does not match expected type"
  | .element rule item =>
    "Member of " ++ rule.name ++ " \"" ++ quote item ++ "\" does not match expected type"
  | .noMember count v =>
    "Member of union \"" ++ quote v ++ "\" does not match any of " ++ toString count ++ " members"
  | .someMember verdicts v =>
    "Member of intersection \"" ++ quote v ++ "\" failed " ++ toString (verdicts.count false) ++
      " of " ++ toString verdicts.length ++ " members"
  | .noTag tag => "Tagged union is not an object or missing tag '" ++ tag.inline ++ "'"
  | .noVariant tag tagValue =>
    "Tagged union has no variant for " ++ tag.inline ++ "=" ++ quote tagValue
  | .raised name className sentence =>
    "Predicate " ++ name ++ " raised " ++ className ++ ": " ++ sentence
  | .tooDeep limit => "Schema nesting exceeds max depth of " ++ toString limit
  | .noStack => "Interpreter stack exhausted before max depth was reached"

end Cause

end Conform
