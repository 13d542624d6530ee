import Conform.Heap

namespace Conform

/-!
# Schemas

A schema is an immutable tree of validators: leaves check a single value, inner nodes combine their
children.

* `PrimitiveKind` — the kinds of values that a primitive validator tells apart;
* `Schema` — the nodes;
* `Test` — the functions behind predicates: a function of the caller, seen as its answer to every
  argument, or a validator applied as a function.
-/

/-- The kinds of values that a primitive validator tells apart. -/
inductive PrimitiveKind where
  | undefined
  | null
  | boolean
  | number
  | string
  deriving DecidableEq, Inhabited

namespace PrimitiveKind

/-- The name of a kind. -/
def name : PrimitiveKind → String
  | .undefined => "undefined"
  | .null => "null"
  | .boolean => "boolean"
  | .number => "number"
  | .string => "string"

/-- The name of a kind in capitals. -/
def capitalName : PrimitiveKind → String
  | .undefined => "UNDEFINED"
  | .null => "NULL"
  | .boolean => "BOOLEAN"
  | .number => "NUMBER"
  | .string => "STRING"

/-- Whether a value is of the kind.  Booleans are no numbers; failure codes are strings. -/
def accepts : PrimitiveKind → Value → Bool
  | .undefined, .undefined => true
  | .null, .null => true
  | .boolean, .bool _ => true
  | .number, .int _ => true
  | .number, .float _ => true
  | .string, .str _ => true
  | .string, .code _ => true
  | _, _ => false

end PrimitiveKind

/-- What a call of a test is recorded as: a function of the caller, which may have no name, a built-in
    function, or the trace sink at an address. -/
inductive Origin where
  | caller (name : Option Text)
  | builtin (f : Builtin)
  | sink (addr : Addr)
  deriving DecidableEq, Inhabited

mutual

/-- A validator with its children.  A literal keeps the canonical text of its constant as it was when
    the literal was made.  The fields of a shape and of each variant are checked in order.  The `bare`
    node has no rule. -/
inductive Schema where
  | primitive (kind : PrimitiveKind)
  | literal (constant : Value) (canonical : Text)
  | shape (fields : List (Label × Schema))
  | array (member : Schema)
  | tuple (members : List Schema)
  | union (members : List Schema)
  | intersection (members : List Schema)
  | taggedUnion (tag : Label) (variants : List (Label × List (Label × Schema)))
  | predicate (test : Test) (name : Value)
  | bare

/-- The function of a predicate.  What a function of the caller answers depends on the objects and on its
    argument alone, and it changes neither. -/
inductive Test where
  | plain (origin : Origin) (answer : Heap → Value → Except Fault Value)
  | validating (name : Option Text) (schema : Schema)

end

instance : Inhabited Schema := ⟨.bare⟩

instance : Inhabited Test := ⟨.validating none .bare⟩

namespace Schema

/-- The name of a node's class. -/
def className : Schema → String
  | .primitive _ => "Primitive"
  | .literal _ _ => "Literal"
  | .shape _ => "Shape"
  | .array _ => "Array"
  | .tuple _ => "Tuple"
  | .union _ => "Union"
  | .intersection _ => "Intersection"
  | .taggedUnion _ _ => "TaggedUnion"
  | .predicate _ _ => "Predicate"
  | .bare => "Validator"

end Schema

/-- What a call of the test is recorded as. -/
def Test.origin : Test → Origin
  | .plain origin _ => origin
  | .validating name _ => .caller name

end Conform
