import Conform.Proofs.Path
import Conform.Proofs.Rounding
import Mathlib.Data.List.TakeWhile

namespace Conform

/-!
# Decimal numerals

A numeral denotes a rational number, and the text of a finite float denotes that of its shortest
decimal, in every layout.  So the text tells the float.

* `Numeral.value` — the rational number that a numeral without a sign denotes;
* `FloatLayout.LaidOut` — the layouts of digits that are scaled by a power of ten;
* `FloatLayout.value_text` — a decimal is denoted by its text;
* `Numeral.isNumeric` — the characters of numerals;
* `Numeral.finiteText_injective` — the text of a finite float tells the float;
* `Numeral.integer_injective` — and that of an integer the integer.
-/

/-! ### The meaning of numerals -/

namespace Numeral

/-- The natural number that digits denote. -/
def natural (digits : List Char) : Nat := Nat.ofDigitChars 10 digits 0

/-- The integer that digits behind a sign denote. -/
def signed : List Char → Int
  | '-' :: digits => -(natural digits : Int)
  | '+' :: digits => natural digits
  | digits => natural digits

/-- The rational number that digits with a point among them, or with none, denote. -/
def mantissa (chars : List Char) : ℚ :=
  let fraction := (chars.dropWhile (· ≠ '.')).tail
  natural (chars.takeWhile (· ≠ '.') ++ fraction) * 10 ^ (-(fraction.length : Int))

/-- The rational number that a numeral without a sign denotes: its mantissa, scaled by the exponent
    behind the mark. -/
def value (chars : List Char) : ℚ :=
  mantissa (chars.takeWhile (· ≠ 'e')) * 10 ^ signed (chars.dropWhile (· ≠ 'e')).tail

/-- A text is split at the first occurrence of a character. -/
theorem split_at {c : Char} {front : List Char} (h : c ∉ front) (rest : List Char) :
    (front ++ c :: rest).takeWhile (· ≠ c) = front ∧
      (front ++ c :: rest).dropWhile (· ≠ c) = c :: rest := by
  have hfront : ∀ a ∈ front, decide (a ≠ c) = true := fun a ha =>
    decide_eq_true fun hac => h (hac ▸ ha)
  rw [List.takeWhile_append_of_pos hfront, List.dropWhile_append_of_pos hfront]
  simp

/-- A text in which a character does not occur is not split. -/
theorem split_none {c : Char} {chars : List Char} (h : c ∉ chars) :
    chars.takeWhile (· ≠ c) = chars ∧ chars.dropWhile (· ≠ c) = [] := by
  have hchars : ∀ a ∈ chars, decide (a ≠ c) = true := fun a ha =>
    decide_eq_true fun hac => h (hac ▸ ha)
  exact ⟨List.takeWhile_eq_self_iff.mpr hchars, List.dropWhile_eq_nil_iff.mpr hchars⟩

theorem mantissa_of_point {whole : List Char} (h : '.' ∉ whole) (fraction : List Char) :
    mantissa (whole ++ '.' :: fraction) =
      natural (whole ++ fraction) * 10 ^ (-(fraction.length : Int)) := by
  obtain ⟨htake, hdrop⟩ := split_at h fraction
  rw [mantissa, htake, hdrop, List.tail_cons]

theorem mantissa_of_whole {whole : List Char} (h : '.' ∉ whole) :
    mantissa whole = natural whole := by
  obtain ⟨htake, hdrop⟩ := split_none h
  rw [mantissa, htake, hdrop]
  simp

theorem value_of_positional {chars : List Char} (h : 'e' ∉ chars) :
    value chars = mantissa chars := by
  obtain ⟨htake, hdrop⟩ := split_none h
  rw [value, htake, hdrop]
  simp [signed, natural]

theorem value_of_exponent {front : List Char} (h : 'e' ∉ front) (rest : List Char) :
    value (front ++ 'e' :: rest) = mantissa front * 10 ^ signed rest := by
  obtain ⟨htake, hdrop⟩ := split_at h rest
  rw [value, htake, hdrop, List.tail_cons]

/-! ### Digits -/

theorem natural_toDigits (n : Nat) : natural (Nat.toDigits 10 n) = n :=
  Nat.ofDigitChars_ten_toDigits

/-- Zeros in front do not count. -/
theorem natural_zeros_append (k : Nat) (digits : List Char) :
    natural (List.replicate k '0' ++ digits) = natural digits := by
  rw [natural, Nat.ofDigitChars_append, Nat.ofDigitChars_replicate_zero, mul_zero]
  rfl

/-- Zeros at the end are powers of ten. -/
theorem natural_append_zeros (digits : List Char) (k : Nat) :
    natural (digits ++ List.replicate k '0') = 10 ^ k * natural digits := by
  rw [natural, Nat.ofDigitChars_append, Nat.ofDigitChars_replicate_zero]
  rfl

theorem isDigit_of_mem_toDigits {n : Nat} {c : Char} (h : c ∈ Nat.toDigits 10 n) :
    c.isDigit = true :=
  Nat.isDigit_of_mem_toDigits (by decide) (by decide) h

/-- A text that starts with a digit. -/
def StartsWithDigit (chars : List Char) : Prop := ∃ c rest, chars = c :: rest ∧ c.isDigit = true

/-- A character that is no digit does not occur among digits. -/
theorem notMem_of_digits {c : Char} {chars : List Char} (h : ∀ a ∈ chars, a.isDigit = true)
    (hc : c.isDigit = false) : c ∉ chars := fun hmem => by
  rw [h c hmem] at hc
  cases hc

/-! ### The characters of numerals -/

/-- Digits, the point, the mark of an exponent, and signs. -/
def isNumeric (c : Char) : Bool := c.isDigit || c == '.' || c == 'e' || c == '+' || c == '-'

/-- A text without other characters than those of numerals. -/
def Numeric (s : String) : Prop := ∀ c ∈ s.toList, isNumeric c = true

instance (s : String) : Decidable (Numeric s) :=
  decidable_of_iff (s.toList.all isNumeric = true) List.all_eq_true

theorem Numeric.append {s t : String} (hs : Numeric s) (ht : Numeric t) : Numeric (s ++ t) := by
  intro c hc
  rw [String.toList_append] at hc
  exact (List.mem_append.mp hc).elim (hs c) (ht c)

theorem Numeric.ofList {s : String} {chars : List Char} (hs : Numeric s)
    (hchars : chars ⊆ s.toList) : Numeric (String.ofList chars) := by
  intro c hc
  rw [String.toList_ofList] at hc
  exact hs c (hchars hc)

theorem numeric_natural (n : Nat) : Numeric (toString n) := by
  have hdigits : (toString n).toList = Nat.toDigits 10 n := Segment.toString_toList _
  intro c hc
  rw [hdigits] at hc
  rw [isNumeric, isDigit_of_mem_toDigits hc]
  rfl

end Numeral

/-! ### Texts of decimals -/

namespace FloatLayout

open Numeral

theorem toList_zeros (n : Nat) : (zeros n).toList = List.replicate n '0' := by
  have push_zeros (s : String) : (s.pushn '0' n).toList = s.toList ++ List.replicate n '0' := by
    rw [String.pushn_eq_repeat_push]
    induction n with
    | zero => simp [Nat.repeat]
    | succ n ih =>
      rw [Nat.repeat, String.toList_push, ih, List.append_assoc, ← List.replicate_succ']
  exact push_zeros ""

/-- The exponent is denoted by what follows the mark. -/
theorem exponentText_usual (e : Int) :
    ∃ rest, (usual.exponentText e).toList = 'e' :: rest ∧ signed rest = e := by
  have hmark : usual.mark.toList = ['e'] := rfl
  have hdigits (k : Nat) :
      natural (List.replicate k '0' ++ Nat.toDigits 10 e.natAbs) = e.natAbs := by
    rw [natural_zeros_append, natural_toDigits]
  simp only [exponentText, String.toList_append, hmark, toList_zeros, Segment.toString_toList,
    List.append_assoc, List.singleton_append]
  refine ⟨_, rfl, ?_⟩
  by_cases he : e < 0
  · rw [if_pos he]
    show -(natural (List.replicate _ '0' ++ Nat.toDigits 10 e.natAbs) : Int) = e
    rw [hdigits]
    omega
  · rw [if_neg he]
    show (natural (List.replicate _ '0' ++ Nat.toDigits 10 e.natAbs) : Int) = e
    rw [hdigits]
    omega

/-- How digits scaled by a power of ten are laid out: with a point in front of zeros and digits,
    behind digits and zeros, or among the digits, or with an exponent, in front of which a single
    digit has no point. -/
inductive LaidOut : List Char → Int → List Char → Prop where
  | front {digits : List Char} {exponent : Int} (k : Nat)
    (h : (k : Int) + digits.length = -exponent) :
    LaidOut digits exponent ('0' :: '.' :: (List.replicate k '0' ++ digits))
  | behind {digits : List Char} {exponent : Int} (k : Nat) (h : (k : Int) = exponent) :
    LaidOut digits exponent (digits ++ List.replicate k '0' ++ ['.', '0'])
  | among {digits : List Char} {exponent : Int} (n : Nat) (hpos : 0 < n) (hn : n < digits.length)
    (h : (n : Int) = digits.length + exponent) :
    LaidOut digits exponent (digits.take n ++ '.' :: digits.drop n)
  | single {digit : Char} {exponent : Int} {rest : List Char} (h : signed rest = exponent) :
    LaidOut [digit] exponent (digit :: 'e' :: rest)
  | scientific {digit : Char} {digits : List Char} {exponent : Int} {rest : List Char}
    (h : signed rest = digits.length + exponent) :
    LaidOut (digit :: digits) exponent (digit :: '.' :: digits ++ 'e' :: rest)

/-- The digits of the coefficient are laid out in one of these ways. -/
theorem laidOut_text (d : Decimal) :
    LaidOut (Nat.toDigits 10 d.coefficient) d.exponent (usual.text d).toList := by
  have hpos : 0 < (Nat.toDigits 10 d.coefficient).length := Nat.length_toDigits_pos
  have hdigits : (toString d.coefficient).toList = Nat.toDigits 10 d.coefficient :=
    Segment.toString_toList _
  simp only [text, ← String.length_toList, hdigits]
  generalize Nat.toDigits 10 d.coefficient = digits at *
  -- positional notation in three forms, by the place of the point, or scientific notation
  split
  · split
    · next hplace =>
      simp only [String.toList_append, hdigits, toList_zeros]
      exact .front _ (by omega)
    · split
      · next hplace =>
        simp only [String.toList_append, hdigits, toList_zeros]
        exact .behind _ (by omega)
      · next hplace _ =>
        simp only [String.toList_append, String.toList_ofList, List.append_assoc]
        exact .among _ (by omega) (by omega) (by omega)
  · obtain ⟨rest, htext, hrest⟩ := exponentText_usual (digits.length + d.exponent - 1)
    cases digits with
    | nil => exact absurd hpos (Nat.lt_irrefl 0)
    | cons digit others =>
      simp only [String.toList_append, String.toList_ofList, htext, List.take_succ_cons,
        List.take_zero, List.drop_succ_cons, List.drop_zero]
      cases others with
      | nil => exact .single (by rw [hrest, List.length_singleton]; omega)
      | cons digit' others =>
        have hne : (String.ofList (digit' :: others)).isEmpty = false := by simp
        simp only [hne, Bool.false_eq_true, if_false, String.toList_append, String.toList_ofList]
        refine .scientific ?_
        rw [hrest, List.length_cons]
        omega

theorem numeric_zeros (n : Nat) : Numeric (zeros n) := by
  intro c hc
  rw [toList_zeros] at hc
  rw [List.eq_of_mem_replicate hc]
  rfl

theorem numeric_exponentText (e : Int) : Numeric (usual.exponentText e) := by
  have hmark : Numeric usual.mark := by decide
  have hsign : Numeric (if e < 0 then "-" else "+") := by split <;> decide
  exact ((hmark.append hsign).append (numeric_zeros _)).append (numeric_natural _)

/-- Whatever the layout is, it takes no other characters than those of numerals. -/
theorem numeric_text (d : Decimal) : Numeric (usual.text d) := by
  have hdigits := numeric_natural d.coefficient
  have hfront (n : Nat) := hdigits.ofList (List.take_subset n _)
  have hback (n : Nat) := hdigits.ofList (List.drop_subset n _)
  have hpoint : Numeric "." := by decide
  rw [text]
  split
  · split
    · have hzero : Numeric "0." := by decide
      exact (hzero.append (numeric_zeros _)).append hdigits
    · split
      · have hzero : Numeric ".0" := by decide
        exact (hdigits.append (numeric_zeros _)).append hzero
      · exact ((hfront _).append hpoint).append (hback _)
  · refine ((hfront 1).append ?_).append (numeric_exponentText _)
    split
    · decide
    · exact hpoint.append (hback 1)

section Texts

variable {digits chars : List Char} {exponent : Int} (h : LaidOut digits exponent chars)
include h

/-- A layout denotes the digits scaled by the power of ten. -/
theorem LaidOut.value (hdigits : ∀ c ∈ digits, c.isDigit = true) :
    Numeral.value chars = natural digits * 10 ^ exponent := by
  have hpoint : '.' ∉ digits := notMem_of_digits hdigits rfl
  have hmark : 'e' ∉ digits := notMem_of_digits hdigits rfl
  cases h with
  | front k h =>
    -- zeros between the point and the digits count as decimals, and not as digits
    have hlength : -((List.replicate k '0' ++ digits).length : Int) = exponent := by
      rw [List.length_append, List.length_replicate]
      omega
    have hwhole : '.' ∉ List.replicate 1 '0' := by decide
    rw [value_of_positional (by simp [hmark, List.mem_replicate])]
    show mantissa (List.replicate 1 '0' ++ '.' :: (List.replicate k '0' ++ digits)) = _
    rw [mantissa_of_point hwhole, natural_zeros_append, natural_zeros_append, hlength]
  | behind k h =>
    have hwhole : '.' ∉ digits ++ List.replicate k '0' := by simp [hpoint, List.mem_replicate]
    have hzero : ['0'] = List.replicate 1 '0' := rfl
    rw [value_of_positional (by simp [hmark, List.mem_replicate]), mantissa_of_point hwhole, hzero,
      natural_append_zeros, natural_append_zeros, ← h]
    simp
    ring
  | among n hpos hn h =>
    have hlength : -((digits.drop n).length : Int) = exponent := by
      rw [List.length_drop]
      omega
    have hfront {c : Char} (hc : c ∉ digits) : c ∉ digits.take n := fun h =>
      hc (List.mem_of_mem_take h)
    have hback {c : Char} (hc : c ∉ digits) : c ∉ digits.drop n := fun h =>
      hc (List.mem_of_mem_drop h)
    rw [value_of_positional (by simp [hfront hmark, hback hmark]),
      mantissa_of_point (hfront hpoint), List.take_append_drop, hlength]
  | single h =>
    rw [← List.singleton_append, value_of_exponent hmark, mantissa_of_whole hpoint, h]
  | @scientific digit others _ _ h =>
    have hfront : 'e' ∉ digit :: '.' :: others := by simpa using hmark
    have hwhole : '.' ∉ [digit] := fun h => hpoint (by simp_all)
    have hmantissa := mantissa_of_point hwhole others
    rw [List.singleton_append, List.singleton_append] at hmantissa
    -- the decimals of the mantissa and the mark of the exponent come to one power of ten
    rw [value_of_exponent hfront, hmantissa, h, mul_assoc, ← zpow_add₀ (by norm_num)]
    congr 2
    omega

/-- A layout starts with a digit. -/
theorem LaidOut.startsWithDigit (hdigits : ∀ c ∈ digits, c.isDigit = true) (hne : digits ≠ []) :
    StartsWithDigit chars := by
  cases digits with
  | nil => exact absurd rfl hne
  | cons digit others =>
    have hdigit := hdigits digit List.mem_cons_self
    cases h with
    | front k h => exact ⟨_, _, rfl, rfl⟩
    | behind k h => exact ⟨digit, _, rfl, hdigit⟩
    | among n hpos hn h =>
      obtain ⟨n, rfl⟩ := Nat.exists_eq_add_one_of_ne_zero (Nat.ne_of_gt hpos)
      exact ⟨digit, _, rfl, hdigit⟩
    | single h => exact ⟨digit, _, rfl, hdigit⟩
    | scientific h => exact ⟨digit, _, rfl, hdigit⟩

/-- A layout has a point or an exponent. -/
theorem LaidOut.marked : '.' ∈ chars ∨ 'e' ∈ chars := by
  cases h <;> simp

end Texts

/-- A decimal is denoted by its text. -/
theorem value_text (d : Decimal) : Numeral.value (usual.text d).toList = d.value := by
  rw [(laidOut_text d).value fun c hc => isDigit_of_mem_toDigits hc, natural_toDigits]
  rfl

end FloatLayout

/-! ### Texts of numbers -/

namespace Numeral

open FloatLayout

/-- The sign in front of a numeral. -/
def sign (negative : Bool) : List Char := if negative then ['-'] else []

theorem sign_injective : ∀ {negative negative' : Bool},
    sign negative = sign negative' → negative = negative' := by decide

theorem toList_sign (negative : Bool) :
    (if negative then "-" else "").toList = sign negative := by cases negative <;> rfl

theorem startsWithDigit_toDigits (n : Nat) : StartsWithDigit (Nat.toDigits 10 n) := by
  cases hdigits : Nat.toDigits 10 n with
  | nil =>
    have hpos : 0 < (Nat.toDigits 10 n).length := Nat.length_toDigits_pos
    rw [hdigits] at hpos
    exact absurd hpos (Nat.lt_irrefl 0)
  | cons digit others =>
    exact ⟨digit, others, rfl, isDigit_of_mem_toDigits (by rw [hdigits]; exact List.mem_cons_self)⟩

theorem startsWithDigit_text (d : Decimal) : StartsWithDigit (usual.text d).toList := by
  obtain ⟨digit, others, hdigits, -⟩ := startsWithDigit_toDigits d.coefficient
  have hne : Nat.toDigits 10 d.coefficient ≠ [] := by simp [hdigits]
  exact (laidOut_text d).startsWithDigit (fun c hc => isDigit_of_mem_toDigits hc) hne

/-- The sign can be told from what follows it. -/
theorem sign_append_injective {negative negative' : Bool} {chars chars' : List Char}
    (hchars : StartsWithDigit chars) (hchars' : StartsWithDigit chars')
    (h : sign negative ++ chars = sign negative' ++ chars') :
    negative = negative' ∧ chars = chars' := by
  obtain ⟨c, rest, rfl, hc⟩ := hchars
  obtain ⟨c', rest', rfl, hc'⟩ := hchars'
  cases negative <;> cases negative' <;> simp only [sign, Bool.false_eq_true, if_false, if_true,
    List.nil_append, List.singleton_append, List.cons.injEq] at h
  · exact ⟨rfl, by rw [h.1, h.2]⟩
  · rw [h.1] at hc
    exact absurd hc (by decide)
  · rw [← h.1] at hc'
    exact absurd hc' (by decide)
  · exact ⟨rfl, by rw [h.2.1, h.2.2]⟩

/-- The text of an integer: the digits of its magnitude behind its sign. -/
theorem toList_integer (n : Int) :
    (toString n).toList = sign (decide (n < 0)) ++ Nat.toDigits 10 n.natAbs := by
  rw [Int.toString_eq_repr, Int.repr_eq_if]
  by_cases hn : n < 0
  · have hnat : (-n).toNat = n.natAbs := by omega
    rw [if_neg (Int.not_le.mpr hn), decide_eq_true hn, String.toList_append, Nat.toList_repr, hnat]
    rfl
  · have hnat : n.toNat = n.natAbs := by omega
    rw [if_pos (Int.not_lt.mp hn), decide_eq_false hn, Nat.toList_repr, hnat]
    rfl

/-- The text of an integer tells the integer. -/
theorem integer_injective {m n : Int} (h : toString m = toString n) : m = n := by
  have hchars := congrArg String.toList h
  rw [toList_integer, toList_integer] at hchars
  obtain ⟨hsign, hdigits⟩ := sign_append_injective (startsWithDigit_toDigits _)
    (startsWithDigit_toDigits _) hchars
  have habs : m.natAbs = n.natAbs := by
    rw [← natural_toDigits m.natAbs, hdigits, natural_toDigits]
  have hneg : m < 0 ↔ n < 0 := decide_eq_decide.mp hsign
  omega

theorem numeric_integer (n : Int) : Numeric (toString n) := by
  intro c hc
  rw [toList_integer] at hc
  rcases List.mem_append.mp hc with hc | hc
  · rw [sign] at hc
    split at hc
    · rw [List.mem_singleton.mp hc]
      rfl
    · cases hc
  · rw [isNumeric, isDigit_of_mem_toDigits hc]
    rfl

/-- The text of a finite float: a numeral behind its sign, which denotes a number in the rounding
    interval of the float. -/
theorem exists_finiteText {x : Binary64} (hx : x.isFinite = true) :
    ∃ numeral : String, x.finiteText .usual = (if x.isNegative then "-" else "") ++ numeral ∧
      StartsWithDigit numeral.toList ∧ ('.' ∈ numeral.toList ∨ 'e' ∈ numeral.toList) ∧
      Numeric numeral ∧ x.InInterval (value numeral.toList) := by
  -- zero has no shortest decimal, and a text of its own
  rcases Nat.eq_zero_or_pos x.units with hunits | hunits
  · have hzero : x.isZero = true := by
      rw [Binary64.isZero, hx, hunits]
      rfl
    have hvalue : value "0.0".toList = 0 := by
      have hwhole : '.' ∉ ['0'] := by decide
      have hdigits : natural (['0'] ++ ['0']) = 0 := by decide
      have hmantissa := mantissa_of_point hwhole ['0']
      rw [hdigits, Nat.cast_zero, zero_mul] at hmantissa
      rw [value_of_positional (by decide)]
      exact hmantissa
    refine ⟨"0.0", ?_, ⟨'0', _, rfl, rfl⟩, .inl (by decide), by decide, ?_⟩
    · rw [Binary64.finiteText, if_pos hzero]
    · rw [hvalue]
      exact Binary64.inInterval_zero hunits
  · have hnonzero : ¬ x.isZero = true := by
      simp [Binary64.isZero, Nat.ne_of_gt hunits]
    refine ⟨_, ?_, startsWithDigit_text x.shortest, (laidOut_text x.shortest).marked,
      numeric_text x.shortest, ?_⟩
    · rw [Binary64.finiteText, if_neg hnonzero]
    · rw [value_text]
      exact Binary64.inInterval_shortest hunits

/-- The text of a finite float tells the float. -/
theorem finiteText_injective {x y : Binary64} (hx : x.isFinite = true) (hy : y.isFinite = true)
    (h : x.finiteText .usual = y.finiteText .usual) : x = y := by
  obtain ⟨numeral, htext, hdigit, -, -, hinside⟩ := exists_finiteText hx
  obtain ⟨numeral', htext', hdigit', -, -, hinside'⟩ := exists_finiteText hy
  rw [htext, htext'] at h
  have hchars := congrArg String.toList h
  rw [String.toList_append, String.toList_append, toList_sign, toList_sign] at hchars
  obtain ⟨hsign, hnumeral⟩ := sign_append_injective hdigit hdigit' hchars
  -- one text denotes one number, which lies in the rounding interval of one magnitude
  rw [← hnumeral] at hinside'
  exact Binary64.eq_of_code hsign (Binary64.code_eq_of_inInterval hinside hinside')

end Numeral

end Conform
