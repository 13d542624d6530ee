import Conform.Number.Binary64

namespace Conform

/-!
# The shortest decimal that reads back

A finite number is written with the fewest significant digits that lie in its rounding interval, the
reals nearer to it than to any other number of the format.  Of the points of that decimal grid the one
nearest to the number is taken, and the even digit on a tie.

* `Binary64.roundsTo` — membership of a decimal in the rounding interval, in exact integer arithmetic;
* `Binary64.shortest` — the digits and the power of ten of the last one;
* `FloatLayout` — where positional notation ends, and how an exponent is written;
* `Binary64.finiteText` — the text of a finite number under a layout.
-/

/-- A decimal `coefficient · 10 ^ exponent`. -/
structure Decimal where
  coefficient : Nat
  exponent : Int
  deriving DecidableEq, Inhabited

namespace Decimal

/-- Ten to the exponent as a fraction, one side of which is 1. -/
def scale (exponent : Int) : Nat × Nat :=
  if 0 ≤ exponent then (Nat.pow 10 exponent.toNat, 1) else (1, Nat.pow 10 (-exponent).toNat)

/-- Drop the zeros at the end of the coefficient, at most `fuel` of them. -/
def trimWithin : Nat → Decimal → Decimal
  | 0, d => d
  | fuel + 1, d =>
    if d.coefficient % 10 = 0 then trimWithin fuel ⟨d.coefficient / 10, d.exponent + 1⟩ else d

/-- Drop the zeros at the end of a nonzero coefficient; there are fewer of them than the coefficient is
    large. -/
def trim (d : Decimal) : Decimal := trimWithin d.coefficient d

end Decimal

namespace Binary64

/-! ### The rounding interval -/

/-- Quarter units in one.  The ends of a rounding interval are whole numbers of quarter units. -/
def quartersPerOne : Nat := 4 * unitsPerOne

/-- The upper end of the rounding interval: half a step above. -/
def upperQuarters (x : Binary64) : Nat := 4 * x.units + 2 * x.step

/-- The lower end of the rounding interval: half a step below, a quarter of one where the step size
    changes at a power of two. -/
def lowerQuarters (x : Binary64) : Nat :=
  if x.fractionField = 0 ∧ 1 < x.exponentField then 4 * x.units - x.step
  else 4 * x.units - 2 * x.step

/-- Whether the decimal lies in the rounding interval of `x`; the ends belong to it when the
    significand is even. -/
def roundsTo (x : Binary64) (d : Decimal) : Bool :=
  let (up, down) := Decimal.scale d.exponent
  let point := d.coefficient * up * quartersPerOne
  let low := x.lowerQuarters * down
  let high := x.upperQuarters * down
  if x.significand % 2 = 0 then low ≤ point && point ≤ high else low < point && point < high

/-! ### The nearest point of the coarsest grid -/

/-- The least `e ≥ start` with `x < 10 ^ e`, sought for `fuel` steps. -/
def magnitudeFrom (x : Binary64) : Nat → Int → Int
  | 0, e => e
  | fuel + 1, e =>
    let (up, down) := Decimal.scale e
    if x.units * down < up * unitsPerOne then e else magnitudeFrom x fuel (e + 1)

/-- The least `e` with `x < 10 ^ e`: the place in front of the first digit. -/
def magnitude (x : Binary64) : Int := magnitudeFrom x 640 (-330)

/-- The point nearest to `x`, the even one of two, among the neighbours of `x` on the grid of multiples
    of `10 ^ exponent` that round to `x`. -/
def nearestOn (x : Binary64) (exponent : Int) : Option Decimal :=
  let (up, down) := Decimal.scale exponent
  let value := 4 * x.units * down
  let step := up * quartersPerOne
  let below : Decimal := ⟨value / step, exponent⟩
  let above : Decimal := ⟨value / step + 1, exponent⟩
  let rest := value % step
  match x.roundsTo below, x.roundsTo above with
  | true, true =>
    if 2 * rest < step then some below
    else if step < 2 * rest then some above
    else if below.coefficient % 2 = 0 then some below else some above
  | true, false => some below
  | false, true => some above
  | false, false => none

/-- The magnitude as a decimal without rounding: a unit is `5 ^ 1074 · 10 ^ (-1074)`. -/
def exactDecimal (x : Binary64) : Decimal := ⟨x.units * Nat.pow 5 1074, -1074⟩

/-- Try grids with `digits`, `digits + 1`, … significant digits, as many as `fuel` says. -/
def shortestFrom (x : Binary64) (magnitude : Int) : Nat → Nat → Decimal
  | 0, _ => x.exactDecimal
  | fuel + 1, digits =>
    match x.nearestOn (magnitude - digits) with
    | some d => d
    | none => shortestFrom x magnitude fuel (digits + 1)

/-- The decimal with the fewest digits, 17 or fewer, that reads back as the nonzero finite magnitude of
    `x`. -/
def shortest (x : Binary64) : Decimal := (shortestFrom x x.magnitude 17 1).trim

end Binary64

/-! ### Layout -/

/-- How the digits of a float are set: positional while the exponent of the first digit lies in
    `positionalFrom ≤ e < positionalBelow`, else with an exponent of at least `exponentDigits` digits
    behind `mark`. -/
structure FloatLayout where
  positionalFrom : Int
  positionalBelow : Int
  mark : String
  exponentDigits : Nat

namespace FloatLayout

/-- Positional from `0.0001` up to below `1e+16`; a point is always written there, and an exponent has a
    sign and two digits or more. -/
def usual : FloatLayout := ⟨-4, 16, "e", 2⟩

/-- `n` zeros. -/
def zeros (n : Nat) : String := "".pushn '0' n

/-- The exponent part. -/
def exponentText (layout : FloatLayout) (e : Int) : String :=
  let digits := toString e.natAbs
  layout.mark ++ (if e < 0 then "-" else "+") ++ zeros (layout.exponentDigits - digits.length) ++ digits

/-- The text of a decimal whose coefficient does not end in zero. -/
def text (layout : FloatLayout) (d : Decimal) : String :=
  let digits := toString d.coefficient
  let place : Int := digits.length + d.exponent
  if layout.positionalFrom < place ∧ place ≤ layout.positionalBelow then
    if place ≤ 0 then "0." ++ zeros (-place).toNat ++ digits
    else if digits.length ≤ place.toNat then digits ++ zeros (place.toNat - digits.length) ++ ".0"
    else
      String.ofList (digits.toList.take place.toNat) ++ "." ++ String.ofList (digits.toList.drop place.toNat)
  else
    let first := String.ofList (digits.toList.take 1)
    let rest := String.ofList (digits.toList.drop 1)
    first ++ (if rest.isEmpty then "" else "." ++ rest) ++ layout.exponentText (place - 1)

end FloatLayout

/-- The text of a finite number. -/
def Binary64.finiteText (layout : FloatLayout) (x : Binary64) : String :=
  (if x.isNegative then "-" else "") ++ (if x.isZero then "0.0" else layout.text x.shortest)

/-- The spellings of the three numbers that are not finite. -/
structure SpecialNames where
  nan : String
  infinity : String

/-- The text of any number: its digits, or the given name. -/
def Binary64.text (names : SpecialNames) (x : Binary64) : String :=
  if x.isFinite then x.finiteText .usual
  else if x.isNaN then names.nan
  else (if x.isNegative then "-" else "") ++ names.infinity

end Conform
