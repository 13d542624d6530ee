import Conform.Code
import Conform.Number.Binary64

namespace Conform

/-!
# Values

A value under inspection may be anything.  Scalars are held as they are; everything with an identity of
its own (containers, functions, validators) stands behind an address, so that sharing and cycles are
exact.

* `Value` — scalars and addresses;
* `Label` — the values that name a field, a tag or a variant: strings and failure codes.
-/

/-- The address of an object. -/
abbrev Addr := Nat

/-- The types that occur as values. -/
inductive TypeName where
  | int
  | str
  | list
  | dict
  deriving DecidableEq, Inhabited

/-- The name of a type. -/
def TypeName.name : TypeName → String
  | .int => "int"
  | .str => "str"
  | .list => "list"
  | .dict => "dict"

/-- The built-in functions that occur as values. -/
inductive Builtin where
  | len
  | abs
  deriving DecidableEq, Inhabited

/-- The name of a built-in function. -/
def Builtin.name : Builtin → String
  | .len => "len"
  | .abs => "abs"

/-- A value of any type.  `undefined` marks what is not there at all, as opposed to `null`; a failure
    code is a string with a display of its own. -/
inductive Value where
  | undefined
  | null
  | bool (b : Bool)
  | int (n : Int)
  | float (x : Binary64)
  | str (s : Text)
  | code (c : FailureCode)
  | bytes (bytes : List UInt8)
  | type (t : TypeName)
  | builtin (f : Builtin)
  | ref (addr : Addr)
  deriving DecidableEq, Inhabited

/-- The name of a field, of a tag or of a variant. -/
inductive Label where
  | plain (s : Text)
  | code (c : FailureCode)
  deriving DecidableEq, Inhabited

namespace Label

/-- The text which the label is for look-up and serialisation. -/
def content : Label → Text
  | .plain s => s
  | .code c => c.name

/-- The label inside a sentence or a path. -/
def inline : Label → Text
  | .plain s => s
  | .code c => c.qualifiedName

/-- The label as a value. -/
def toValue : Label → Value
  | .plain s => .str s
  | .code c => .code c

end Label

namespace Value

/-- The label which a value is, if it is a string. -/
def label? : Value → Option Label
  | .str s => some (.plain s)
  | .code c => some (.code c)
  | _ => none

/-- The contents of a string. -/
def text? (v : Value) : Option Text := v.label?.map Label.content

/-- The address of an object. -/
def addr? : Value → Option Addr
  | .ref a => some a
  | _ => none

/-- The integer which a value counts as: a Boolean is 0 or 1. -/
def integer? : Value → Option Int
  | .bool b => some (if b then 1 else 0)
  | .int n => some n
  | _ => none

end Value

@[simp] theorem Label.label?_toValue (l : Label) : l.toValue.label? = some l := by
  cases l <;> rfl

@[simp] theorem Label.text_toValue (l : Label) : l.toValue.text? = some l.content := by
  cases l <;> rfl

end Conform
