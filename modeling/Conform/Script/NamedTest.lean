import Conform.Heap

namespace Conform.Script

/-!
# Named tests

Ready-made functions that a script may use as predicates.

* `NamedTest` — the tests;
* `NamedTest.answer` — what each answers to a value, or the fault it raises.
-/

/-- The ready-made tests. -/
inductive NamedTest where
  | isEven
  | positive
  | networkPort
  | itself
  | nonempty
  | xPositive
  | reciprocal
  deriving DecidableEq, Inhabited

namespace NamedTest

/-- The key which `xPositive` looks up. -/
def xKey : String := "x"

/-- The complaint about a key that is no index. -/
def indexFault (kind : String) : Fault :=
  .typeMismatch (kind ++ " indices must be integers or slices, not str")

/-- The value stored under `xKey`; sequences and whatever has no items refuse the key. -/
def lookUpX (h : Heap) (v : Value) : Except Fault Value :=
  match h.mapping? v, h.cellOf? v, v with
  | some m, _, _ => m.read xKey
  | _, some (.list _), _ => .error (indexFault "list")
  | _, some (.tuple _), _ => .error (indexFault "tuple")
  | _, _, .bytes _ => .error (indexFault "byte")
  | _, _, .type t =>
    if t = .list ∨ t = .dict then
      .error (.typeMismatch
        "'>' not supported between instances of 'types.GenericAlias' and 'int'")
    else .error (.typeMismatch ("type '" ++ t.name ++ "' is not subscriptable"))
  | _, _, _ =>
    if v.label?.isSome then .error (.typeMismatch "string indices must be integers, not 'str'")
    else .error (.typeMismatch ("'" ++ h.operandTypeName v ++ "' object is not subscriptable"))

/-- The name of a value's type inside a complaint about a comparison.  A read-only mapping is compared as
    the dictionary behind it. -/
def comparedTypeName (h : Heap) (v : Value) : String :=
  match h.cellOf? v with
  | some (.view _) => "dict"
  | _ => h.operandTypeName v

/-- Whether a number is above zero. -/
def exceedsZero (h : Heap) (v : Value) : Except Fault Bool :=
  match v.integer?, v with
  | some n, _ => .ok (decide (0 < n))
  | none, .float x => .ok x.isPositive
  | none, _ =>
    .error (.typeMismatch
      ("'>' not supported between instances of '" ++ comparedTypeName h v ++ "' and 'int'"))

/-- Whether the reciprocal of a number, as a float, differs from zero.  That of an infinity does not, nor
    that of an integer so large that its reciprocal is rounded to zero. -/
def hasReciprocal (h : Heap) (v : Value) : Except Fault Bool :=
  match v.integer?, v with
  | some n, _ =>
    if n = 0 then .error (.divisionByZero "division by zero")
    else .ok (n.natAbs < 2 * Binary64.unitsPerOne)
  | none, .float x =>
    if x.isZero then .error (.divisionByZero "float division by zero") else .ok !x.isInfinite
  | none, _ =>
    .error (.typeMismatch
      ("unsupported operand type(s) for /: 'int' and '" ++ h.operandTypeName v ++ "'"))

/-- Whether a value has items; a value that cannot have any is a fault. -/
def hasItems (h : Heap) (v : Value) : Except Fault Bool :=
  match h.size? v with
  | some n => .ok (n != 0)
  | none => .error (.typeMismatch ("object of type '" ++ h.operandTypeName v ++ "' has no len()"))

/-- Whether the value is an integer with a property; a Boolean counts as an integer. -/
def integerWith (p : Int → Bool) (v : Value) : Value := .bool ((v.integer?.map p).getD false)

/-- What a test answers. -/
def answer (test : NamedTest) (h : Heap) (v : Value) : Except Fault Value :=
  match test with
  | .isEven => .ok (integerWith (· % 2 == 0) v)
  | .positive => .ok (integerWith (decide <| 0 < ·) v)
  | .networkPort => .ok (integerWith (fun n => 0 < n && n < 65536) v)
  | .itself => .ok v
  | .nonempty => (hasItems h v).map .bool
  | .xPositive => do return .bool (← exceedsZero h (← lookUpX h v))
  | .reciprocal => (hasReciprocal h v).map .bool

end NamedTest

end Conform.Script
