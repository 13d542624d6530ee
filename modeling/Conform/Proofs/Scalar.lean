import Conform.Json
import Conform.Proofs.Numeral
import Conform.Proofs.Unescaping

namespace Conform

/-!
# Scalars and their canonical forms

Two scalars have one canonical form exactly when they are equal as far as UTF-16 tells: null, Booleans
of one truth, strings of one list of units, and numbers of one exact quantity, be they integers or
floats.  Nothing else has the canonical form of a scalar.  Where no string has surrogates that look like
a pair, this is equality.

* `Quantity`, `Value.quantity?` — what a number amounts to, without rounding;
* `Value.Same` — equality of scalars, and `Value.SameUnits` — as far as the units of texts tell;
* `Value.sameUnits_iff` — the two agree on texts without pairs of surrogates;
* `TextKind`, `TextKind.of` — the kind of a canonical form, told by its code points;
* `Scribed` — the canonical forms of scalars, by kind;
* `Heap.canonical?_isSome_iff` — which scalars have a canonical form;
* `Heap.canonical?_eq_iff` — a value has the canonical form of a scalar if and only if it is the
  same scalar, as far as units tell.
-/

/-! ### Quantities -/

/-- What a number amounts to: nothing, an infinity, or a rational number. -/
inductive Quantity where
  | nan
  | infinite (negative : Bool)
  | exact (q : ℚ)

namespace Binary64

/-- What a float amounts to. -/
def quantity (x : Binary64) : Quantity :=
  if x.isFinite then .exact (x.signedUnits / unitsPerOne)
  else if x.isNaN then .nan
  else .infinite x.isNegative

theorem unitsPerOne_pos : 0 < unitsPerOne := by
  unfold unitsPerOne
  generalize 1074 = k
  exact Nat.two_pow_pos k

theorem quantity_eq_exact_iff {x : Binary64} {q : ℚ} :
    x.quantity = .exact q ↔ x.isFinite = true ∧ (x.signedUnits : ℚ) = q * unitsPerOne := by
  have hpos : (unitsPerOne : ℚ) ≠ 0 := by exact_mod_cast Nat.ne_of_gt unitsPerOne_pos
  rw [quantity]
  split
  · next h => rw [Quantity.exact.injEq, div_eq_iff hpos, and_iff_right h]
  · next h =>
    split
    · exact ⟨nofun, fun hq => absurd hq.1 h⟩
    · exact ⟨nofun, fun hq => absurd hq.1 h⟩

theorem text_of_nan {x : Binary64} (h : x.quantity = .nan) (names : SpecialNames) :
    x.text names = names.nan := by
  rw [quantity] at h
  rw [text]
  split at h
  · cases h
  · next hfinite =>
    split at h
    · next hnan => rw [if_neg hfinite, if_pos hnan]
    · cases h

theorem text_of_infinite {x : Binary64} {negative : Bool} (h : x.quantity = .infinite negative)
    (names : SpecialNames) : x.text names = (if negative then "-" else "") ++ names.infinity := by
  rw [quantity] at h
  rw [text]
  split at h
  · cases h
  · next hfinite =>
    split at h
    · cases h
    · next hnan => rw [if_neg hfinite, if_neg hnan, Quantity.infinite.inj h]

/-- A signed number is a multiple of another one exactly when its magnitude is. -/
theorem signed_eq_mul_iff (negative : Bool) (u k : Nat) (hk : 0 < k) (n : Int) :
    (if negative then -(u : Int) else u) = n * k ↔
      u % k = 0 ∧ (if negative then -((u / k : Nat) : Int) else (u / k : Nat)) = n := by
  constructor
  · intro h
    have hu : u = n.natAbs * k := by
      have habs := congrArg Int.natAbs h
      rw [Int.natAbs_mul, Int.natAbs_natCast] at habs
      rw [← habs]
      cases negative <;> simp
    -- the sign is the same on both sides, as the factor is positive
    have hdiv : u / k = n.natAbs := by rw [hu, Nat.mul_div_cancel _ hk]
    refine ⟨by rw [hu, Nat.mul_mod_left], ?_⟩
    rw [hdiv]
    have hk' : (0 : Int) < k := by exact_mod_cast hk
    cases negative <;> simp only [Bool.false_eq_true, if_false, if_true] at h ⊢
    · have hn : 0 ≤ n := nonneg_of_mul_nonneg_left (by omega) hk'
      omega
    · have hn : 0 ≤ -n := nonneg_of_mul_nonneg_left (by rw [neg_mul]; omega) hk'
      omega
  · rintro ⟨hdvd, rfl⟩
    have hu : (u : Int) = (u / k : Nat) * k := by
      exact_mod_cast (Nat.div_mul_cancel (Nat.dvd_of_mod_eq_zero hdvd)).symm
    cases negative <;> simp only [Bool.false_eq_true, if_false, if_true]
    · exact hu
    · rw [neg_mul, ← hu]

/-- The integer which a float equals is the one that it amounts to. -/
theorem integral?_eq_some_iff {x : Binary64} {n : Int} :
    x.integral? = some n ↔ x.quantity = .exact n := by
  have hcast : (x.signedUnits : ℚ) = n * unitsPerOne ↔ x.signedUnits = n * unitsPerOne := by
    exact_mod_cast Iff.rfl
  rw [quantity_eq_exact_iff, hcast, signedUnits, signed_eq_mul_iff _ _ _ unitsPerOne_pos,
    integral?]
  split
  · next h => exact ⟨fun hn => ⟨h.1, h.2, Option.some.inj hn⟩, fun hn => congrArg some hn.2.2⟩
  · next h =>
    constructor
    · exact nofun
    · rintro ⟨hfinite, hdvd, -⟩
      exact absurd ⟨hfinite, hdvd⟩ h

/-- A float that equals no integer is not zero. -/
theorem units_pos_of_integral?_eq_none {x : Binary64} (hfinite : x.isFinite = true)
    (h : x.integral? = none) : 0 < x.units := by
  rcases Nat.eq_zero_or_pos x.units with hzero | hpos
  · rw [integral?, hzero, if_pos ⟨hfinite, Nat.zero_mod _⟩] at h
    cases h
  · exact hpos

/-- A number that is doubled has no more new digits than there are doublings. -/
theorem mul_two_pow_lt {a k e bound : Nat} (ha : a < 2 ^ k) (h : k + e ≤ bound) :
    a * 2 ^ e < 10 ^ bound :=
  calc a * 2 ^ e < 2 ^ k * 2 ^ e := Nat.mul_lt_mul_of_pos_right ha (Nat.two_pow_pos e)
    _ = 2 ^ (k + e) := (Nat.pow_add 2 k e).symm
    _ ≤ 10 ^ (k + e) := Nat.pow_le_pow_left (by decide) _
    _ ≤ 10 ^ bound := Nat.pow_le_pow_right (by decide) h

/-- A magnitude has fewer digits than the bound on digits allows, even when counted in units. -/
theorem units_lt_digitBound (x : Binary64) : x.units < digitBound := by
  have hsignificand : x.significand < 2 ^ 53 := by
    have hlt := x.fractionField_lt
    rw [significand]
    rw [fractionSpan_eq] at hlt ⊢
    split <;> omega
  have hfield : x.exponentField < 2048 := Nat.mod_lt _ (by decide)
  have hroom : 53 + x.doublings ≤ Fault.maxDigits := by
    rw [doublings, Fault.maxDigits]
    omega
  unfold digitBound
  generalize Fault.maxDigits = bound at hroom ⊢
  exact mul_two_pow_lt hsignificand hroom

/-- The integer which a float equals has a numeral. -/
theorem natAbs_lt_of_integral? {x : Binary64} {n : Int} (h : x.integral? = some n) :
    n.natAbs < digitBound := by
  rw [integral?] at h
  split at h
  · have hunits : n.natAbs = x.units / unitsPerOne := by
      rw [← Option.some.inj h]
      split
      · rw [Int.natAbs_neg, Int.natAbs_natCast]
      · rw [Int.natAbs_natCast]
    rw [hunits]
    exact Nat.lt_of_le_of_lt (Nat.div_le_self _ _) x.units_lt_digitBound
  · cases h

/-- Floats other than zero that amount to the same are the same. -/
theorem eq_of_signedUnits {x y : Binary64} (h : x.signedUnits = y.signedUnits)
    (hpos : 0 < x.units) : x = y := by
  have hunits : x.units = y.units := by
    rw [signedUnits, signedUnits] at h
    split at h <;> split at h <;> omega
  refine eq_of_code ?_ (code_eq_of_units hunits)
  rw [signedUnits, signedUnits, ← hunits] at h
  cases hx : x.isNegative <;> cases hy : y.isNegative <;>
    simp only [hx, hy, Bool.false_eq_true, if_false, if_true] at h ⊢ <;> omega

end Binary64

/-- What a value amounts to, if it is a number. -/
def Value.quantity? : Value → Option Quantity
  | .int n => some (.exact n)
  | .float x => some x.quantity
  | _ => none

/-! ### Equality of scalars -/

namespace Value

/-- Null, Booleans, numbers and strings. -/
def isScalar : Value → Bool
  | .null | .bool _ | .int _ | .float _ | .str _ | .code _ => true
  | _ => false

theorem isScalar_toValue (l : Label) : l.toValue.isScalar = true := by cases l <;> rfl

/-- Two values are scalars of one kind and equal, with texts compared by `alike`.  Numbers are equal when
    they amount to the same, and what is not a number equals itself. -/
inductive SameUpTo (alike : Text → Text → Prop) : Value → Value → Prop where
  | null : SameUpTo alike .null .null
  | bool (b : Bool) : SameUpTo alike (.bool b) (.bool b)
  | text {v w : Value} {s t : Text} (hv : v.text? = some s) (hw : w.text? = some t) (h : alike s t) :
    SameUpTo alike v w
  | number {v w : Value} {q : Quantity} (hv : v.quantity? = some q) (hw : w.quantity? = some q) :
    SameUpTo alike v w

/-- Equality of scalars. -/
abbrev Same : Value → Value → Prop := SameUpTo (· = ·)

/-- Equality of scalars, as far as the UTF-16 units of texts tell. -/
abbrev SameUnits : Value → Value → Prop := SameUpTo Text.SameUnits

/-- The value is no string in which surrogates look like a pair. -/
def Unpaired (v : Value) : Prop := ∀ s, v.text? = some s → s.Unpaired

theorem unpaired_ofString (s : String) : (Value.str s).Unpaired := by
  intro text htext
  obtain rfl := Option.some.inj htext
  exact Text.unpaired_ofString s

/-- Without such strings, units tell all about a scalar. -/
theorem sameUnits_iff {v w : Value} (hv : v.Unpaired) (hw : w.Unpaired) :
    v.SameUnits w ↔ v.Same w := by
  constructor
  · rintro (_ | b | ⟨hs, ht, h⟩ | ⟨hq, hq'⟩)
    · exact .null
    · exact .bool b
    · exact .text hs ht (Text.SameUnits.eq (hv _ hs) (hw _ ht) h)
    · exact .number hq hq'
  · rintro (_ | b | ⟨hs, ht, h⟩ | ⟨hq, hq'⟩)
    · exact .null
    · exact .bool b
    · exact .text hs ht (congrArg Text.units h)
    · exact .number hq hq'

end Value

/-! ### Kinds of texts -/

/-- The kinds of canonical forms. -/
inductive TextKind where
  | null
  | bool
  | text
  | container
  | nan
  | infinite
  | whole
  | broken

/-- The kinds that are told by a first code point. -/
def TextKind.firsts : List (CodePoint × TextKind) :=
  [('n', .null), ('t', .bool), ('f', .bool), ('"', .text), ('[', .container), ('\x7b', .container),
    ('N', .nan), ('I', .infinite)]

/-- The kind of a canonical form without its sign.  All but numerals are told by their first code
    points, and among the numerals those of numbers that are not whole by a point or an exponent. -/
def TextKind.ofUnsigned : Text → TextKind
  | [] => .whole
  | c :: rest =>
    (firsts.lookup c).getD
      (if ('.' : CodePoint) ∈ c :: rest ∨ ('e' : CodePoint) ∈ c :: rest then .broken else .whole)

/-- The kind of a canonical form. -/
def TextKind.of (text : Text) : TextKind :=
  ofUnsigned (if text.head? = some ('-' : CodePoint) then text.tail else text)

namespace CodePoint

theorem val_of_isDigit {c : Char} (h : c.isDigit = true) : 48 ≤ (ofChar c).val ∧ (ofChar c).val ≤ 57 := by
  simp only [Char.isDigit, Bool.and_eq_true, decide_eq_true_eq, ge_iff_le, UInt32.le_iff_toNat_le] at h
  exact h

end CodePoint

theorem Text.mem_ofChars {c : Char} {chars : List Char} :
    (c : CodePoint) ∈ Text.ofChars chars ↔ c ∈ chars :=
  List.mem_map_of_injective fun _ _ => CodePoint.ofChar_injective

/-- A numeral is told by its point or its exponent, whatever its sign. -/
theorem TextKind.of_numeral {chars : List Char} (negative : Bool)
    (h : Numeral.StartsWithDigit chars) :
    TextKind.of (Text.ofChars (Numeral.sign negative ++ chars)) =
      if '.' ∈ chars ∨ 'e' ∈ chars then .broken else .whole := by
  obtain ⟨c, rest, rfl, hc⟩ := h
  have hdigit := CodePoint.val_of_isDigit hc
  have hfirst : firsts.lookup (CodePoint.ofChar c) = none := by
    have hfirsts : ∀ first ∈ firsts, first.1.val < 48 ∨ 57 < first.1.val := by decide
    refine List.lookup_eq_none_iff.mpr fun first hmem => bne_iff_ne.mpr fun heq => ?_
    have hrange := hfirsts first hmem
    rw [← heq] at hrange
    omega
  have hunsigned : ofUnsigned (Text.ofChars (c :: rest)) =
      if '.' ∈ c :: rest ∨ 'e' ∈ c :: rest then .broken else .whole := by
    show (firsts.lookup (CodePoint.ofChar c)).getD
      (if _ ∈ Text.ofChars (c :: rest) ∨ _ ∈ Text.ofChars (c :: rest) then _ else _) = _
    simp only [hfirst, Text.mem_ofChars, Option.getD_none]
  cases negative with
  | false =>
    have hplus : (Text.ofChars (c :: rest)).head? ≠ some ('-' : CodePoint) := by
      intro hminus
      obtain rfl := CodePoint.ofChar_injective (Option.some.inj hminus)
      cases hc
    show TextKind.of (Text.ofChars (c :: rest)) = _
    rw [TextKind.of, if_neg hplus, hunsigned]
  | true => exact hunsigned

/-! ### The canonical forms of scalars -/

/-- The canonical forms of scalars, by kind. -/
inductive Scribed : TextKind → Value → Text → Prop where
  | null : Scribed .null .null "null"
  | bool (b : Bool) : Scribed .bool (.bool b) (if b then "true" else "false")
  | text {v : Value} {s : Text} (h : v.text? = some s) : Scribed .text v (Text.escaped .ascii s)
  | nan {v : Value} (h : v.quantity? = some .nan) : Scribed .nan v "NaN"
  | infinite {v : Value} {negative : Bool} (h : v.quantity? = some (.infinite negative)) :
    Scribed .infinite v (Text.ofString ((if negative then "-" else "") ++ "Infinity"))
  | whole {v : Value} {n : Int} (h : v.quantity? = some (.exact n)) : Scribed .whole v (toString n)
  | broken {x : Binary64} (hfinite : x.isFinite = true) (h : x.integral? = none) :
    Scribed .broken (.float x) (x.finiteText .usual)

namespace Scribed

variable {kind kind' : TextKind} {v w : Value} {t : Text}

theorem kind_eq (h : Scribed kind v t) : TextKind.of t = kind := by
  cases h with
  | null => rfl
  | bool b => cases b <;> rfl
  | text h => rfl
  | nan h => rfl
  | @infinite _ negative h => cases negative <;> rfl
  | whole h =>
    -- the numeral of an integer has neither a point nor an exponent
    have hunmarked {n : Nat} {c : Char} (hc : c.isDigit = false) : c ∉ Nat.toDigits 10 n :=
      Numeral.notMem_of_digits (fun a ha => Numeral.isDigit_of_mem_toDigits ha) hc
    rw [Text.ofString, Numeral.toList_integer,
      TextKind.of_numeral _ (Numeral.startsWithDigit_toDigits _), if_neg]
    rintro (hdot | hmark)
    · exact hunmarked rfl hdot
    · exact hunmarked rfl hmark
  | broken hfinite h =>
    obtain ⟨numeral, htext, hdigit, hmarked, -⟩ := Numeral.exists_finiteText hfinite
    rw [Text.ofString, htext, String.toList_append, Numeral.toList_sign, TextKind.of_numeral _ hdigit,
      if_pos hmarked]

/-- Scalars with one canonical form are the same, as far as units tell. -/
theorem same (h : Scribed kind v t) (h' : Scribed kind' w t) : v.SameUnits w := by
  -- the text tells the kind, so that only scribed texts of one kind have to be compared
  obtain rfl : kind = kind' := h.kind_eq.symm.trans h'.kind_eq
  generalize ht : t = t' at h'
  cases h with
  | null =>
    cases h'
    exact .null
  | bool b =>
    cases h' with
    | bool b' =>
      obtain rfl : b = b' := by cases b <;> cases b' <;> first | rfl | exact absurd ht (by decide)
      exact .bool b
  | text h =>
    cases h' with
    | text h' => exact .text h h' (Text.escaped_eq_iff.mp ht)
  | nan h =>
    cases h' with
    | nan h' => exact .number h h'
  | @infinite _ negative h =>
    cases h' with
    | @infinite _ negative' h' =>
      obtain rfl : negative = negative' := by
        cases negative <;> cases negative' <;> first | rfl | exact absurd ht (by decide)
      exact .number h h'
  | whole h =>
    cases h' with
    | whole h' =>
      obtain rfl := Numeral.integer_injective (Text.ofString_injective ht)
      exact .number h h'
  | broken hfinite h =>
    cases h' with
    | broken hfinite' h' =>
      obtain rfl := Numeral.finiteText_injective hfinite hfinite' (Text.ofString_injective ht)
      exact .number rfl rfl

end Scribed

namespace Heap

variable {h h' : Heap} {v w : Value} {t : Text}

theorem canonical?_int (h : Heap) (n : Int) : h.canonical? (.int n) = (integerText n).toOption := rfl

theorem canonical?_float (h : Heap) (x : Binary64) :
    h.canonical? (.float x) =
      match x.integral? with
      | some n => (integerText n).toOption
      | none => some (x.text jsonNames) := rfl

theorem canonical?_text (h : Heap) {s : Text} (hv : v.text? = some s) :
    h.canonical? v = some (Text.escaped .ascii s) := by
  cases v with
  | str s' | code c =>
    obtain rfl := Option.some.inj hv
    rfl
  | _ => cases hv

/-- Numbers that amount to an integer have the text of the integer. -/
theorem canonical?_whole (h : Heap) {n : Int} (hv : v.quantity? = some (.exact n)) :
    h.canonical? v = (integerText n).toOption := by
  cases v with
  | int m =>
    have hmn : m = n := by
      have hexact := Quantity.exact.inj (Option.some.inj hv)
      exact_mod_cast hexact
    rw [hmn, canonical?_int]
  | float x => rw [canonical?_float, Binary64.integral?_eq_some_iff.mpr (Option.some.inj hv)]
  | _ => cases hv

theorem eq_toString_of_integerText {n : Int} (hn : (integerText n).toOption = some t) :
    t = toString n := by
  rw [integerText] at hn
  split at hn
  · exact (Option.some.inj hn).symm
  · cases hn

theorem integerText_toOption_isSome_iff (n : Int) :
    (integerText n).toOption.isSome = true ↔ n.natAbs < digitBound := by
  rw [integerText]
  split
  · next h => exact iff_of_true rfl h
  · next h => exact iff_of_false Bool.false_ne_true h

/-- All scalars have a canonical form, but for integers of too many digits. -/
theorem canonical?_isSome_iff (hscalar : v.isScalar = true) :
    (h.canonical? v).isSome = true ↔ ∀ n, v = .int n → n.natAbs < digitBound := by
  cases v with
  | int n =>
    rw [canonical?_int, integerText_toOption_isSome_iff]
    exact ⟨fun hn m hm => Value.int.inj hm ▸ hn, fun hn => hn n rfl⟩
  | float x =>
    refine iff_of_true ?_ nofun
    rw [canonical?_float]
    cases hintegral : x.integral? with
    | some n =>
      exact (integerText_toOption_isSome_iff n).mpr (Binary64.natAbs_lt_of_integral? hintegral)
    | none => rfl
  | null | bool _ | str _ | code _ => exact iff_of_true rfl nofun
  | _ => cases hscalar

/-- The canonical form of a scalar is one of those of its kind. -/
theorem exists_scribed (hscalar : v.isScalar = true) (hv : h.canonical? v = some t) :
    ∃ kind, Scribed kind v t := by
  cases v with
  | null =>
    obtain rfl := Option.some.inj hv
    exact ⟨_, .null⟩
  | bool b =>
    obtain rfl := Option.some.inj hv
    exact ⟨_, .bool b⟩
  | int n =>
    rw [canonical?_int] at hv
    obtain rfl := eq_toString_of_integerText hv
    exact ⟨_, .whole rfl⟩
  | float x =>
    rw [canonical?_float] at hv
    -- an integral float is written as the integer
    cases hintegral : x.integral? with
    | some n =>
      rw [hintegral] at hv
      obtain rfl := eq_toString_of_integerText hv
      exact ⟨_, .whole (congrArg some (Binary64.integral?_eq_some_iff.mp hintegral))⟩
    | none =>
      rw [hintegral] at hv
      obtain rfl := Option.some.inj hv
      rw [Binary64.text]
      split
      · next hfinite => exact ⟨_, .broken hfinite hintegral⟩
      · next hfinite =>
        split
        · next hnan =>
          refine ⟨_, .nan (congrArg some ?_)⟩
          rw [Binary64.quantity, if_neg hfinite, if_pos hnan]
        · next hnan =>
          refine ⟨_, .infinite (congrArg some ?_)⟩
          rw [Binary64.quantity, if_neg hfinite, if_neg hnan]
  | str s | code c =>
    obtain rfl := Option.some.inj hv
    exact ⟨_, .text rfl⟩
  | _ => cases hscalar

theorem kind_of_jsonArray? {style : JsonStyle} {inner : Value → Option Text} {items : List Value}
    (ht : jsonArray? style inner items = some t) : TextKind.of t = .container := by
  obtain ⟨parts, -, htext⟩ := Option.bind_eq_some_iff.mp ht
  rw [← Option.some.inj htext]
  rfl

theorem kind_of_jsonObject? {style : JsonStyle} {inner : Value → Option Text}
    {entries : List (Value × Value)} (ht : jsonObject? style inner entries = some t) :
    TextKind.of t = .container := by
  obtain ⟨parts, -, htext⟩ := Option.bind_eq_some_iff.mp ht
  rw [← Option.some.inj htext]
  rfl

/-- What is no scalar has the canonical form of a container, or none. -/
theorem container_of_canonical? (hscalar : v.isScalar = false) (hv : h.canonical? v = some t) :
    TextKind.of t = .container := by
  -- a container without items has a text of its own, and one inside itself has none
  have nested {empty enclosed : Bool} {brackets : Text} {text : Option Text}
      (hbrackets : TextKind.of brackets = .container)
      (htext : text = some t → TextKind.of t = .container)
      (h : (if empty then some brackets else if enclosed then none else text) = some t) :
      TextKind.of t = .container := by
    split at h
    · rw [← Option.some.inj h]
      exact hbrackets
    · split at h
      · cases h
      · exact htext h
  cases v with
  | ref a =>
    have hunfold : h.canonical? (.ref a) = h.jsonWithin? canonicalStyle (999 + 1) [] (.ref a) := rfl
    rw [hunfold, jsonWithin?] at hv
    split at hv
    · exact nested rfl kind_of_jsonArray? hv
    · exact nested rfl kind_of_jsonArray? hv
    · exact nested rfl kind_of_jsonObject? hv
    · exact nested rfl kind_of_jsonObject? hv
    · cases hv
  | undefined | bytes bytes | type t | builtin f => cases hv
  | _ => cases hscalar

/-- Numbers that amount to the same have one canonical form. -/
theorem canonical?_congr_quantity (h h' : Heap) {q : Quantity} (hv : v.quantity? = some q)
    (hw : w.quantity? = some q) : h.canonical? v = h'.canonical? w := by
  by_cases hwhole : ∃ n : Int, q = .exact n
  · obtain ⟨n, rfl⟩ := hwhole
    rw [canonical?_whole h hv, canonical?_whole h' hw]
  · -- both are floats, and those that are finite are one and the same
    have exists_float {u : Value} (hu : u.quantity? = some q) :
        ∃ x, u = .float x ∧ x.quantity = q ∧ x.integral? = none := by
      cases u with
      | int n => exact absurd ⟨n, (Option.some.inj hu).symm⟩ hwhole
      | float x =>
        refine ⟨x, rfl, Option.some.inj hu, Option.eq_none_iff_forall_ne_some.mpr fun n hn => ?_⟩
        exact hwhole ⟨n, (Option.some.inj hu).symm.trans (Binary64.integral?_eq_some_iff.mp hn)⟩
      | _ => cases hu
    obtain ⟨x, rfl, hx, hxnone⟩ := exists_float hv
    obtain ⟨y, rfl, hy, hynone⟩ := exists_float hw
    rw [canonical?_float, canonical?_float, hxnone, hynone]
    refine congrArg some ?_
    cases q with
    | nan => rw [Binary64.text_of_nan hx, Binary64.text_of_nan hy]
    | infinite negative => rw [Binary64.text_of_infinite hx, Binary64.text_of_infinite hy]
    | exact q =>
      obtain ⟨hxfinite, hxunits⟩ := Binary64.quantity_eq_exact_iff.mp hx
      obtain ⟨hyfinite, hyunits⟩ := Binary64.quantity_eq_exact_iff.mp hy
      have hunits : x.signedUnits = y.signedUnits := by exact_mod_cast hxunits.trans hyunits.symm
      rw [Binary64.eq_of_signedUnits hunits
        (Binary64.units_pos_of_integral?_eq_none hxfinite hxnone)]

/-- A value has the canonical form of a scalar if and only if it is the same scalar, as far as units
    tell. -/
theorem canonical?_eq_iff {c : Value} (hscalar : c.isScalar = true) (hc : h'.canonical? c = some t) :
    h.canonical? v = some t ↔ v.SameUnits c := by
  constructor
  · intro hv
    obtain ⟨kind, hscribed⟩ := exists_scribed hscalar hc
    cases hvscalar : v.isScalar with
    | true =>
      obtain ⟨kind', hscribed'⟩ := exists_scribed hvscalar hv
      exact hscribed'.same hscribed
    | false =>
      -- the text of a container starts with a bracket, which is none of the kinds of scalars
      have hkind := hscribed.kind_eq
      rw [container_of_canonical? hvscalar hv] at hkind
      subst hkind
      cases hscribed
  · intro hsame
    rw [← hc]
    cases hsame with
    | null => rfl
    | bool b => rfl
    | text hv hw hunits => rw [canonical?_text h hv, canonical?_text h' hw, Text.escaped_eq_iff.mpr hunits]
    | number hv hw => exact canonical?_congr_quantity h h' hv hw

end Heap

end Conform
