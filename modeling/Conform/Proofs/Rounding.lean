import Conform.Number.Shortest
import Mathlib.Algebra.Order.Field.Basic
import Mathlib.Data.Rat.Cast.Order
import Mathlib.Order.Monotone.Basic
import Mathlib.Tactic.FieldSimp
import Mathlib.Tactic.Linarith
import Mathlib.Tactic.Positivity
import Mathlib.Tactic.Ring

namespace Conform

/-!
# Rounding intervals

The shortest decimal of a magnitude lies in its rounding interval, and no decimal lies in the
intervals of two magnitudes: neighbouring intervals share an end, but the end belongs to the one
whose significand is even.

* `Binary64.code` — the exponent and the fraction in one number, the position of a magnitude among
  all magnitudes;
* `Binary64.boundary` — the common end of the rounding intervals of two neighbours;
* `Binary64.InInterval` — a rational number lies in the rounding interval of a magnitude;
* `Binary64.code_eq_of_inInterval` — it lies in one of them only;
* `Binary64.inInterval_shortest` — the shortest decimal lies in the interval of its magnitude.
-/

namespace Binary64

/-! ### Magnitudes in order -/

theorem fractionSpan_eq : fractionSpan = 4503599627370496 := rfl

/-- The two fields below the sign as one number.  Greater magnitudes have greater codes, without
    gaps. -/
def code (x : Binary64) : Nat := x.exponentField * fractionSpan + x.fractionField

/-- The distance of the magnitude at a code to the next one. -/
def stepAt (n : Nat) : Nat := 2 ^ (n / fractionSpan - 1)

/-- The magnitude at a code, counted in units.  The codes do not end with those of the finite
    numbers. -/
def unitsAt (n : Nat) : Nat :=
  (if n / fractionSpan = 0 then n % fractionSpan else fractionSpan + n % fractionSpan) * stepAt n

theorem fractionField_lt (x : Binary64) : x.fractionField < fractionSpan :=
  Nat.mod_lt _ (by rw [fractionSpan_eq]; omega)

theorem code_div (x : Binary64) : x.code / fractionSpan = x.exponentField := by
  have hlt := x.fractionField_lt
  rw [fractionSpan_eq] at hlt
  rw [code, fractionSpan_eq]
  omega

theorem code_mod (x : Binary64) : x.code % fractionSpan = x.fractionField := by
  have hlt := x.fractionField_lt
  rw [fractionSpan_eq] at hlt
  rw [code, fractionSpan_eq]
  omega

theorem step_eq (x : Binary64) : x.step = stepAt x.code := by
  rw [stepAt, code_div]
  rfl

theorem units_eq (x : Binary64) : x.units = unitsAt x.code := by
  rw [unitsAt, code_div, code_mod, units, significand, step_eq]

/-- A significand is even when the code is: the leading one weighs an even number. -/
theorem significand_mod_two (x : Binary64) : x.significand % 2 = x.code % 2 := by
  have hmod := x.code_mod
  rw [fractionSpan_eq] at hmod
  rw [significand, fractionSpan_eq]
  split <;> omega

theorem stepAt_pos (n : Nat) : 0 < stepAt n := Nat.two_pow_pos _

/-- The magnitude at the next code is one step greater, also where the exponent changes. -/
theorem unitsAt_succ (n : Nat) : unitsAt (n + 1) = unitsAt n + stepAt n := by
  rw [unitsAt, unitsAt, stepAt, stepAt, fractionSpan_eq]
  by_cases hcarry : n % 4503599627370496 + 1 < 4503599627370496
  · have hdiv : (n + 1) / 4503599627370496 = n / 4503599627370496 := by omega
    have hmod : (n + 1) % 4503599627370496 = n % 4503599627370496 + 1 := by omega
    rw [hdiv, hmod]
    split <;> ring
  · have hdiv : (n + 1) / 4503599627370496 = n / 4503599627370496 + 1 := by omega
    have hmod : (n + 1) % 4503599627370496 = 0 := by omega
    have hfull : n % 4503599627370496 = 4503599627370495 := by omega
    rw [hdiv, hmod, hfull, if_neg (Nat.succ_ne_zero _)]
    cases n / 4503599627370496 with
    | zero => rfl
    | succ e =>
      rw [if_neg (Nat.succ_ne_zero _), Nat.add_sub_cancel, Nat.add_sub_cancel, pow_succ]
      ring

theorem unitsAt_strictMono : StrictMono unitsAt :=
  strictMono_nat_of_lt_succ fun n => by
    rw [unitsAt_succ]
    exact Nat.lt_add_of_pos_right (stepAt_pos n)

/-- Two numbers of one magnitude have one code. -/
theorem code_eq_of_units {x y : Binary64} (h : x.units = y.units) : x.code = y.code := by
  rw [units_eq, units_eq] at h
  exact unitsAt_strictMono.injective h

/-- A number is its sign and its code. -/
theorem eq_of_code {x y : Binary64} (hsign : x.isNegative = y.isNegative)
    (hcode : x.code = y.code) : x = y := by
  have bits_eq (z : Binary64) :
      z.bits.toNat = (if z.isNegative then 2 ^ 63 else 0) + z.code := by
    have hlt := z.bits.toNat_lt
    have hexponents : exponentSpan = 2048 := rfl
    simp only [isNegative, code, exponentField, fractionField, hexponents, fractionSpan_eq,
      decide_eq_true_eq]
    split <;> omega
  obtain ⟨x⟩ := x
  obtain ⟨y⟩ := y
  have hbits : x.toNat = y.toNat := by
    rw [bits_eq ⟨x⟩, bits_eq ⟨y⟩, hsign, hcode]
  rw [UInt64.toNat_inj.mp hbits]

/-! ### The ends of the intervals -/

/-- The common end, in quarter units, of the intervals at a code and at the next one. -/
def boundary (n : Nat) : Nat := 2 * (unitsAt n + unitsAt (n + 1))

theorem boundary_strictMono : StrictMono boundary :=
  strictMono_nat_of_lt_succ fun n => by
    have hlow := unitsAt_strictMono (lt_add_one n)
    have hhigh := unitsAt_strictMono (lt_add_one (n + 1))
    rw [boundary, boundary]
    omega

theorem upperQuarters_eq (x : Binary64) : x.upperQuarters = boundary x.code := by
  rw [upperQuarters, boundary, unitsAt_succ, units_eq, step_eq]
  ring

/-- The step below a code is half of the step above it where the exponent has just changed, and
    the same elsewhere. -/
theorem stepAt_pred (n : Nat) :
    stepAt (n + 1) =
      if (n + 1) % fractionSpan = 0 ∧ 1 < (n + 1) / fractionSpan then 2 * stepAt n
      else stepAt n := by
  rw [stepAt, stepAt, fractionSpan_eq]
  split
  · next h =>
    have hdiv : (n + 1) / 4503599627370496 - 1 = n / 4503599627370496 - 1 + 1 := by omega
    rw [hdiv, pow_succ, mul_comm]
  · next h =>
    have hdiv : (n + 1) / 4503599627370496 - 1 = n / 4503599627370496 - 1 := by omega
    rw [hdiv]

theorem lowerQuarters_eq {x : Binary64} {n : Nat} (h : x.code = n + 1) :
    x.lowerQuarters = boundary n := by
  have hstep := stepAt_pred n
  have hunits := unitsAt_succ n
  rw [lowerQuarters, boundary, ← x.code_div, ← x.code_mod, units_eq, step_eq, h]
  by_cases hcarry : (n + 1) % fractionSpan = 0 ∧ 1 < (n + 1) / fractionSpan
  · rw [if_pos hcarry] at hstep ⊢
    omega
  · rw [if_neg hcarry] at hstep ⊢
    omega

end Binary64

/-! ### Decimals as rational numbers -/

namespace Decimal

/-- The rational number which a decimal denotes. -/
def value (d : Decimal) : ℚ := d.coefficient * 10 ^ d.exponent

/-- The scale as a fraction is the power of ten. -/
theorem scale_spec (exponent : Int) :
    0 < (scale exponent).2 ∧
      ((scale exponent).1 : ℚ) = 10 ^ exponent * ((scale exponent).2 : ℚ) := by
  rw [scale]
  split
  · next h =>
    obtain ⟨n, rfl⟩ := Int.eq_ofNat_of_zero_le h
    simp
  · next h =>
    obtain ⟨n, rfl⟩ := Int.exists_eq_neg_ofNat (Int.le_of_lt (Int.not_le.mp h))
    simp

theorem value_trimWithin (fuel : Nat) (d : Decimal) : (trimWithin fuel d).value = d.value := by
  induction fuel generalizing d with
  | zero => rfl
  | succ fuel ih =>
    rw [trimWithin]
    split
    · next h =>
      -- a zero at the end of the coefficient is one more in the exponent
      obtain ⟨k, hk⟩ := Nat.dvd_of_mod_eq_zero h
      rw [ih, value, value, hk, Nat.mul_div_cancel_left k (by decide)]
      simp only [Nat.cast_mul, Nat.cast_ofNat]
      rw [zpow_add_one₀ (by norm_num)]
      ring
    · rfl

theorem value_trim (d : Decimal) : d.trim.value = d.value := value_trimWithin _ d

end Decimal

namespace Binary64

/-! ### Decimals in an interval -/

/-- A rational number lies in the rounding interval: between its ends, and off them when the
    significand is odd. -/
def InInterval (x : Binary64) (q : ℚ) : Prop :=
  (x.lowerQuarters : ℚ) ≤ q * quartersPerOne ∧ q * quartersPerOne ≤ x.upperQuarters ∧
    (x.code % 2 = 1 → (x.lowerQuarters : ℚ) < q * quartersPerOne ∧
      q * quartersPerOne < x.upperQuarters)

/-- The comparisons with a decimal, free of its scale. -/
theorem compare_point (n : Nat) (d : Decimal) :
    let up := (Decimal.scale d.exponent).1
    let down := (Decimal.scale d.exponent).2
    (n * down ≤ d.coefficient * up * quartersPerOne ↔ (n : ℚ) ≤ d.value * quartersPerOne) ∧
      (d.coefficient * up * quartersPerOne ≤ n * down ↔ d.value * quartersPerOne ≤ (n : ℚ)) := by
  obtain ⟨hpos, hscale⟩ := Decimal.scale_spec d.exponent
  have hdown : (0 : ℚ) < (Decimal.scale d.exponent).2 := by exact_mod_cast hpos
  have hpoint : ((d.coefficient * (Decimal.scale d.exponent).1 * quartersPerOne : Nat) : ℚ) =
      d.value * quartersPerOne * (Decimal.scale d.exponent).2 := by
    push_cast
    rw [hscale, Decimal.value]
    ring
  constructor
  · rw [← mul_le_mul_iff_left₀ hdown, ← hpoint]
    exact_mod_cast Iff.rfl
  · rw [← mul_le_mul_iff_left₀ hdown, ← hpoint]
    exact_mod_cast Iff.rfl

theorem inInterval_of_roundsTo {x : Binary64} {d : Decimal} (h : x.roundsTo d = true) :
    x.InInterval d.value := by
  obtain ⟨hlow, hlow'⟩ := compare_point x.lowerQuarters d
  obtain ⟨hhigh', hhigh⟩ := compare_point x.upperQuarters d
  simp only [roundsTo, significand_mod_two] at h
  split at h
  · next heven =>
    simp only [Bool.and_eq_true, decide_eq_true_eq] at h
    exact ⟨hlow.mp h.1, hhigh.mp h.2, fun hodd => absurd hodd (by omega)⟩
  · simp only [Bool.and_eq_true, decide_eq_true_eq] at h
    have hstrict : (x.lowerQuarters : ℚ) < d.value * quartersPerOne ∧
        d.value * quartersPerOne < x.upperQuarters :=
      ⟨lt_of_not_ge fun hle => absurd (hlow'.mpr hle) (Nat.not_le.mpr h.1),
        lt_of_not_ge fun hle => absurd (hhigh'.mpr hle) (Nat.not_le.mpr h.2)⟩
    exact ⟨hstrict.1.le, hstrict.2.le, fun _ => hstrict⟩

/-- No rational number lies in the intervals of two magnitudes: only neighbours share an end, and
    one of two neighbours is odd. -/
theorem code_eq_of_inInterval {x y : Binary64} {q : ℚ} (hx : x.InInterval q)
    (hy : y.InInterval q) : x.code = y.code := by
  have not_lt {x y : Binary64} (hx : x.InInterval q) (hy : y.InInterval q) :
      ¬ x.code < y.code := by
    intro hlt
    obtain ⟨-, hhigh, hxodd⟩ := hx
    obtain ⟨hlow, -, hyodd⟩ := hy
    obtain ⟨n, hn⟩ := Nat.exists_eq_add_one_of_ne_zero (Nat.ne_zero_of_lt hlt)
    rw [x.upperQuarters_eq] at hhigh hxodd
    rw [lowerQuarters_eq hn] at hlow hyodd
    -- the number is above one end and below the other, so that the two ends are one
    have hle : boundary n ≤ boundary x.code := by exact_mod_cast hlow.trans hhigh
    have hcode : x.code = n := by
      have := boundary_strictMono.le_iff_le.mp hle
      omega
    rw [hcode] at hhigh hxodd
    rcases Nat.mod_two_eq_zero_or_one n with heven | hodd
    · exact absurd hhigh (not_le.mpr (hyodd (by omega)).1)
    · exact absurd hlow (not_le.mpr (hxodd hodd).2)
  have := not_lt hx hy
  have := not_lt hy hx
  omega

/-! ### The shortest decimal -/

theorem roundsTo_of_nearestOn {x : Binary64} {exponent : Int} {d : Decimal}
    (h : x.nearestOn exponent = some d) : x.roundsTo d = true := by
  simp only [nearestOn] at h
  generalize (Decimal.scale exponent).1 * quartersPerOne = step at h
  generalize 4 * x.units * (Decimal.scale exponent).2 = value at h
  have hd {d' : Decimal} (hd' : x.roundsTo d' = true) (h : some d' = some d) :
      x.roundsTo d = true := by
    rw [← Option.some.inj h]
    exact hd'
  -- whichever point is taken, it was found to lie in the interval
  cases hbelow : x.roundsTo ⟨value / step, exponent⟩ <;>
    cases habove : x.roundsTo ⟨value / step + 1, exponent⟩ <;>
    simp only [hbelow, habove] at h
  · cases h
  · exact hd habove h
  · exact hd hbelow h
  · split at h
    · exact hd hbelow h
    · split at h
      · exact hd habove h
      · split at h
        · exact hd hbelow h
        · exact hd habove h

theorem value_exactDecimal (x : Binary64) :
    x.exactDecimal.value * quartersPerOne = (4 * x.units : Nat) := by
  -- a unit is a power of one half, which five to the same power makes a power of one tenth
  have cancel (n k : Nat) :
      (Decimal.mk (n * Nat.pow 5 k) (-(k : Int))).value * ((4 * Nat.pow 2 k : Nat) : ℚ) =
        (4 * n : Nat) := by
    have hten : (10 : ℚ) ^ k = 5 ^ k * 2 ^ k := by
      rw [← mul_pow]
      norm_num
    simp only [Decimal.value, Nat.pow_eq, Nat.cast_mul, Nat.cast_pow, zpow_neg, zpow_natCast, hten]
    field_simp
    norm_num
  have hexponent : (-1074 : Int) = -((1074 : Nat) : Int) := rfl
  unfold exactDecimal quartersPerOne unitsPerOne
  rw [hexponent]
  generalize 1074 = k
  exact cancel x.units k

theorem inInterval_exactDecimal {x : Binary64} (h : 0 < x.units) :
    x.InInterval x.exactDecimal.value := by
  have hstep : 0 < x.step := by
    rw [step_eq]
    exact stepAt_pos _
  have hlow : x.lowerQuarters < 4 * x.units := by
    rw [lowerQuarters]
    split <;> omega
  have hhigh : 4 * x.units < x.upperQuarters := by
    rw [upperQuarters]
    omega
  rw [InInterval, value_exactDecimal]
  have hlow' : (x.lowerQuarters : ℚ) < (4 * x.units : Nat) := by exact_mod_cast hlow
  have hhigh' : ((4 * x.units : Nat) : ℚ) < x.upperQuarters := by exact_mod_cast hhigh
  exact ⟨hlow'.le, hhigh'.le, fun _ => ⟨hlow', hhigh'⟩⟩

theorem inInterval_shortestFrom {x : Binary64} (h : 0 < x.units) (magnitude : Int)
    (fuel digits : Nat) : x.InInterval (x.shortestFrom magnitude fuel digits).value := by
  induction fuel generalizing digits with
  | zero => exact inInterval_exactDecimal h
  | succ fuel ih =>
    rw [shortestFrom]
    split
    · next d hd => exact inInterval_of_roundsTo (roundsTo_of_nearestOn hd)
    · exact ih (digits + 1)

/-- The shortest decimal of a magnitude other than zero lies in the rounding interval. -/
theorem inInterval_shortest {x : Binary64} (h : 0 < x.units) : x.InInterval x.shortest.value := by
  rw [shortest, Decimal.value_trim]
  exact inInterval_shortestFrom h _ _ _

/-- Zero lies in the rounding interval of zero. -/
theorem inInterval_zero {x : Binary64} (h : x.units = 0) : x.InInterval 0 := by
  have hcode : x.code = 0 := by
    by_contra hne
    have hlt := unitsAt_strictMono (Nat.pos_of_ne_zero hne)
    rw [← units_eq, h] at hlt
    exact absurd hlt (Nat.not_lt_zero _)
  have hlow : x.lowerQuarters = 0 := by
    rw [lowerQuarters, h]
    split <;> omega
  rw [InInterval, hlow, hcode, zero_mul]
  exact ⟨le_of_eq Nat.cast_zero, Nat.cast_nonneg _, nofun⟩

end Binary64

end Conform
