import Conform.Display

namespace Conform

/-!
# Problems

Why a step of a caller ends without a result.

* `Violation`, `Complaint` — what is wrong with a field of the settings or of the options;
* `Misuse` — a combinator, or another operation, is given what it does not take;
* `Problem` — any of these, or a fault that left an evaluation.
-/

/-! ### Fields -/

/-- What is wrong with the value of a field. -/
inductive Violation where
  | notInteger
  | longInteger
  | below (least : Nat)
  | above (greatest : Nat)
  | unclearBoolean
  | notBoolean
  | notUnicode
  | notCallable
  | frozen
  deriving DecidableEq, Inhabited

namespace Violation

/-- The short name of a violation. -/
def kind : Violation → String
  | .notInteger => "int_parsing"
  | .longInteger => "int_parsing_size"
  | .below _ => "greater_than_equal"
  | .above _ => "less_than_equal"
  | .unclearBoolean => "bool_parsing"
  | .notBoolean => "bool_type"
  | .notUnicode => "string_unicode"
  | .notCallable => "callable_type"
  | .frozen => "frozen_instance"

/-- The sentence that describes a violation. -/
def message : Violation → String
  | .notInteger => "Input should be a valid integer, unable to parse string as an integer"
  | .longInteger => "Unable to parse input string as an integer, exceeded maximum size"
  | .below least => "Input should be greater than or equal to " ++ toString least
  | .above greatest => "Input should be less than or equal to " ++ toString greatest
  | .unclearBoolean => "Input should be a valid boolean, unable to interpret input"
  | .notBoolean => "Input should be a valid boolean"
  | .notUnicode => "Input should be a valid string, unable to parse raw data as a unicode string"
  | .notCallable => "Input should be callable"
  | .frozen => "Instance is frozen"

end Violation

/-- A violation with the name of the field, as the caller wrote it. -/
structure Complaint where
  field : String
  violation : Violation
  deriving DecidableEq, Inhabited

/-! ### Arguments -/

/-- What an operation is given that it does not take.  A `shown` argument is the display of the
    offending value, a `typeName` the name of its type; `place` says which child it is, and `owner` of
    which combinator. -/
inductive Misuse where
  | child (place shown : Text)
  | fields (owner typeName : String)
  | fieldName (owner : String) (shown : Text)
  | members (owner typeName : String)
  | unordered (typeName : String)
  | notIterable (typeName : String)
  | constant (shown : Text)
  | unserialisable (shown : Text)
  | constants (shown : Text)
  | tag (shown : Text)
  | variants (typeName : String)
  | variantKey (shown : Text)
  | variantWithoutTag (key tag : Text)
  | variantTag (key tag shown : Text)
  | test (shown : Text)
  | options (typeName : String)
  | failureCode (shown : Text)
  | readOnly (typeName : String)
  | noAttribute (typeName name : String)
  | noTypeAttribute (typeName name : String)
  | fixedType (typeName name : String)
  | notCallable (typeName : String)
  | unknownNode (typeName : String)
  | logLevel (shown : Text)
  | nulCharacter
  | variableName
  | emptyVariableName
  deriving DecidableEq, Inhabited

namespace Misuse

/-- The class of a misuse: a wrong value where two arguments contradict each other or a name is unknown
    or cannot be one, a missing attribute, what the system refuses, and otherwise a wrong type. -/
def className : Misuse → String
  | .variantWithoutTag _ _ | .variantTag _ _ _ | .failureCode _ | .logLevel _ | .nulCharacter
  | .variableName => "ValueError"
  | .noAttribute _ _ | .noTypeAttribute _ _ => "AttributeError"
  | .emptyVariableName => "OSError"
  | _ => "TypeError"

/-- The sentence that describes a misuse. -/
def message : Misuse → Text
  | .child place shown => place ++ " must be a validator or a predicate callable, got: " ++ shown
  | .fields owner typeName => owner ++ " fields must be a mapping, got: " ++ typeName
  | .fieldName owner shown => owner ++ " field names must be strings, got: " ++ shown
  | .members owner typeName => owner ++ " members must be a sequence of validators, got: " ++ typeName
  | .unordered typeName => "tuple members must be an ordered sequence, got: " ++ typeName
  | .notIterable typeName => "'" ++ typeName ++ "' object is not iterable"
  | .constant shown => "literal expects a constant value, got: " ++ shown
  | .unserialisable shown => "literal constant is not serialisable: " ++ shown
  | .constants shown => "literals expects a sequence of constants, got: " ++ shown
  | .tag shown => "tagged union tag must be a string, got: " ++ shown
  | .variants typeName => "tagged union variants must be a mapping, got: " ++ typeName
  | .variantKey shown => "tagged union variant keys must be strings, got: " ++ shown
  | .variantWithoutTag key name =>
    "variant '" ++ key ++ "' does not declare the tag field '" ++ name ++ "'"
  | .variantTag key name shown =>
    "variant '" ++ key ++ "' checks tag '" ++ name ++ "' against " ++ shown
  | .test shown => "predicate expects a plain callable, got: " ++ shown
  | .options typeName => "opts must be ValidateOptions, a mapping or None, got: " ++ typeName
  | .failureCode shown => shown ++ " is not a valid FailureCode"
  | .readOnly typeName => "'" ++ typeName ++ "' object does not support item assignment"
  | .noAttribute typeName name => "'" ++ typeName ++ "' object has no attribute '" ++ name ++ "'"
  | .noTypeAttribute typeName name =>
    "type object '" ++ typeName ++ "' has no attribute '" ++ name ++ "'"
  | .fixedType typeName name =>
    "cannot set '" ++ name ++ "' attribute of immutable type '" ++ typeName ++ "'"
  | .notCallable typeName => "'" ++ typeName ++ "' object is not callable"
  | .unknownNode typeName => "Unknown validator node: " ++ typeName
  | .logLevel shown => "Unknown level: " ++ shown
  | .nulCharacter => "embedded null byte"
  | .variableName => "illegal environment variable name"
  | .emptyVariableName => "[Errno 22] Invalid argument"

end Misuse

/-! ### Problems -/

/-- Why a step ends without a result. -/
inductive Problem where
  | fault (f : Fault)
  | misuse (m : Misuse)
  | invalid (complaints : List Complaint)
  | frozen (field : String)
  deriving DecidableEq, Inhabited

namespace Problem

/-- The class of a problem. -/
def className : Problem → String
  | .fault f => f.kind.name
  | .misuse m => m.className
  | .invalid _ => "ValidationError"
  | .frozen _ => "FrozenInstanceError"

/-- The sentence that describes a problem; complaints are read one by one instead. -/
def message (h : Heap) : Problem → Except Fault Text
  | .fault f => h.faultText f
  | .misuse m => .ok m.message
  | .invalid _ => .ok ""
  | .frozen field => .ok ("cannot assign to field " ++ Text.quoted field)

/-- A problem that passes through an enclosing iteration: a fault that signals an end is replaced. -/
def throughIteration : Problem → Problem
  | .fault f => .fault f.throughIteration
  | problem => problem

/-- Whether the problem asks the program to end. -/
def isFatal : Problem → Bool
  | .fault f => f.isFatal
  | _ => false

end Problem

end Conform
