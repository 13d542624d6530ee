namespace Conform

/-!
# Binary floating point by its bits

A 64-bit floating-point number kept as its word, so that two numbers are the same exactly when their
words are.  Every finite magnitude is a whole multiple of the least one, `2 ^ (-1074)`:

* `Binary64.units` — that multiple, without its sign;
* `Binary64.signedUnits` — the same with the sign, the order key of the finite numbers;
* `Binary64.integral?` — the integer which a finite number equals, if there is one.
-/

/-- A binary floating-point number of 64 bits: one sign bit, eleven exponent bits, 52 fraction
    bits. -/
structure Binary64 where
  bits : UInt64
  deriving DecidableEq, Inhabited

namespace Binary64

/-! ### The three fields -/

/-- How many fractions there are: the weight of the lowest exponent bit. -/
def fractionSpan : Nat := Nat.pow 2 52

/-- How many exponents there are. -/
def exponentSpan : Nat := Nat.pow 2 11

/-- The exponent field, between 0 and 2047. -/
def exponentField (x : Binary64) : Nat := x.bits.toNat / fractionSpan % exponentSpan

/-- The fraction field. -/
def fractionField (x : Binary64) : Nat := x.bits.toNat % fractionSpan

/-- Whether the sign bit, which lies above the two fields, is set. -/
def isNegative (x : Binary64) : Bool := fractionSpan * exponentSpan ≤ x.bits.toNat

/-! ### Classes -/

/-- The exponent field of ones is kept for the infinities and for what is not a number. -/
def isFinite (x : Binary64) : Bool := x.exponentField != 2047

/-- Not a number: the top exponent with a fraction. -/
def isNaN (x : Binary64) : Bool := !x.isFinite && x.fractionField != 0

/-- An infinity: the top exponent without a fraction. -/
def isInfinite (x : Binary64) : Bool := !x.isFinite && x.fractionField == 0

/-! ### Exact magnitude -/

/-- The significand: the fraction, with the leading one that normal numbers leave out. -/
def significand (x : Binary64) : Nat :=
  if x.exponentField = 0 then x.fractionField else fractionSpan + x.fractionField

/-- How many times the significand is doubled; subnormal and least normal numbers share 0. -/
def doublings (x : Binary64) : Nat := x.exponentField - 1

/-- The distance to the next greater magnitude, counted in units of `2 ^ (-1074)`. -/
def step (x : Binary64) : Nat := Nat.pow 2 x.doublings

/-- The magnitude of a finite number counted in units of `2 ^ (-1074)`. -/
def units (x : Binary64) : Nat := x.significand * x.step

/-- How many units make one. -/
def unitsPerOne : Nat := Nat.pow 2 1074

/-- The value of a finite number counted in units of `2 ^ (-1074)`. -/
def signedUnits (x : Binary64) : Int := if x.isNegative then -(x.units : Int) else x.units

/-- Either of the two zeros. -/
def isZero (x : Binary64) : Bool := x.isFinite && x.units == 0

/-- The integer which a finite number equals. -/
def integral? (x : Binary64) : Option Int :=
  if x.isFinite ∧ x.units % unitsPerOne = 0 then
    let whole : Nat := x.units / unitsPerOne
    some (if x.isNegative then -(whole : Int) else whole)
  else
    none

/-- Equality as numbers: the two zeros agree, and what is not a number differs from itself. -/
def sameNumber (x y : Binary64) : Bool :=
  if x.isFinite && y.isFinite then x.signedUnits == y.signedUnits
  else x.isInfinite && y.isInfinite && x.isNegative == y.isNegative

/-- Equality of a float and an integer as numbers, without rounding. -/
def sameInt (x : Binary64) (n : Int) : Bool := x.integral? == some n

/-- Strictly above zero; false of what is not a number. -/
def isPositive (x : Binary64) : Bool :=
  !x.isNegative && !x.isNaN && !x.isZero

end Binary64

end Conform
