import Mathlib.Data.List.Chain
import Conform.Text.Escaped

namespace Conform

/-!
# JSON strings read back

A JSON string in printable ASCII tells the UTF-16 units of the text that it was written for: they can be
read off one by one.  The units tell the text, as long as no two surrogates in it look like a pair.

* `Text.SameUnits` — two texts have the same units;
* `Text.Unpaired` — a text in which no surrogate is followed by one that makes a pair of them;
* `Text.unpaired_ofString` — such are the texts of characters;
* `Text.SameUnits.eq` — such texts are known by their units;
* `Text.hexNumber_hexPadded` — a hexadecimal numeral denotes its number;
* `Text.readUnit_escapedUnit` — a unit is read back from its escape;
* `Text.escaped_append_injective` — a JSON string in front of a text can be read off the text;
* `Text.escaped_eq_iff` — two texts have one JSON string exactly if they have the same units.
-/

/-! ### Units of UTF-16 -/

namespace CodePoint

theorem units_of_lt {c : CodePoint} (h : c.val < 0x10000) : c.units = [c.val] := if_pos h

theorem units_of_ge {c : CodePoint} (h : 0x10000 ≤ c.val) :
    c.units = [0xd800 + (c.val - 0x10000) / 0x400, 0xdc00 + (c.val - 0x10000) % 0x400] :=
  if_neg (Nat.not_lt.mpr h)

/-- No character is a surrogate. -/
theorem isHigh_ofChar (c : Char) : (ofChar c).isHigh = false := by
  have hvalid : c.toNat < 0xd800 ∨ 0xdfff < c.toNat ∧ c.toNat < 0x110000 := c.valid
  show (decide (0xd800 ≤ c.toNat) && decide (c.toNat < 0xdc00)) = false
  rw [Bool.and_eq_false_iff, decide_eq_false_iff_not, decide_eq_false_iff_not]
  omega

theorem lt_of_mem_units {c : CodePoint} {u : Nat} (h : u ∈ c.units) : u < 0x10000 := by
  have hc := c.isLt
  rcases Nat.lt_or_ge c.val 0x10000 with hlt | hge
  · rw [units_of_lt hlt, List.mem_singleton] at h
    omega
  · rw [units_of_ge hge, List.mem_pair] at h
    omega

end CodePoint

namespace Text

/-- Two texts have the same UTF-16 units. -/
def SameUnits (s t : Text) : Prop := s.units = t.units

/-- No surrogate for the first half of a pair stands directly in front of one for the second half. -/
def Unpaired (text : Text) : Prop := text.IsChain fun c d => ¬ (c.isHigh = true ∧ d.isLow = true)

instance (text : Text) : Decidable text.Unpaired :=
  inferInstanceAs (Decidable (text.IsChain fun c d => ¬ (c.isHigh = true ∧ d.isLow = true)))

/-- Without surrogates there is no pair of them. -/
theorem Unpaired.of_forall {text : Text} (h : ∀ c ∈ text, c.isHigh = false) : text.Unpaired := by
  refine List.isChain_iff_getElem.mpr fun i hi => ?_
  rw [h _ (List.getElem_mem _)]
  exact fun hpair => Bool.false_ne_true hpair.1

theorem unpaired_ofString (s : String) : (ofString s).Unpaired := by
  refine .of_forall fun c hc => ?_
  obtain ⟨char, -, rfl⟩ := List.mem_map.mp hc
  exact CodePoint.isHigh_ofChar char

theorem units_cons (c : CodePoint) (text : Text) : units (c :: text) = c.units ++ units text :=
  List.flatMap_cons

theorem lt_of_mem_units {text : Text} {u : Nat} (h : u ∈ text.units) : u < 0x10000 := by
  obtain ⟨c, -, hu⟩ := List.mem_flatMap.mp h
  exact CodePoint.lt_of_mem_units hu

/-- The first code point that units stand for, as its number, and the units behind it. -/
def firstPoint : List Nat → Option (Nat × List Nat)
  | [] => none
  | [u] => some (u, [])
  | u :: w :: rest =>
    if (0xd800 ≤ u ∧ u < 0xdc00) ∧ 0xdc00 ≤ w ∧ w < 0xe000 then
      some (0x10000 + (u - 0xd800) * 0x400 + (w - 0xdc00), rest)
    else some (u, w :: rest)

/-- A unit that does not look like the first half of a pair stands for itself. -/
theorem firstPoint_cons {u : Nat} {rest : List Nat}
    (h : ∀ w rest', rest = w :: rest' → ¬ ((0xd800 ≤ u ∧ u < 0xdc00) ∧ 0xdc00 ≤ w ∧ w < 0xe000)) :
    firstPoint (u :: rest) = some (u, rest) := by
  cases rest with
  | nil => rfl
  | cons w rest' => rw [firstPoint, if_neg (h w rest' rfl)]

/-- The first unit of a code point is no second half of a pair, unless the code point is one. -/
theorem first_unit_of_not_isLow {d : CodePoint} {text : Text} (h : ¬ d.isLow = true) {w : Nat}
    {rest : List Nat} (hunits : units (d :: text) = w :: rest) : ¬ (0xdc00 ≤ w ∧ w < 0xe000) := by
  have hd := d.isLt
  rw [units_cons] at hunits
  rcases Nat.lt_or_ge d.val 0x10000 with hlt | hge
  · rw [CodePoint.units_of_lt hlt] at hunits
    obtain rfl := (List.cons.inj hunits).1
    simpa [CodePoint.isLow] using h
  · rw [CodePoint.units_of_ge hge] at hunits
    obtain rfl := (List.cons.inj hunits).1
    omega

/-- The first code point of a text without pairs is read from its units. -/
theorem firstPoint_units {c : CodePoint} {text : Text} (h : Unpaired (c :: text)) :
    firstPoint (units (c :: text)) = some (c.val, units text) := by
  have hc := c.isLt
  rw [units_cons]
  rcases Nat.lt_or_ge c.val 0x10000 with hlt | hge
  · rw [CodePoint.units_of_lt hlt, List.singleton_append]
    apply firstPoint_cons
    rintro w rest hunits ⟨hhigh, hlow⟩
    cases text with
    | nil => cases hunits
    | cons d text =>
      -- the surrogate is followed by none that would make a pair of them
      have hnot : ¬ d.isLow = true := fun hd =>
        (List.isChain_cons_cons.mp h).1 ⟨by simpa [CodePoint.isHigh] using hhigh, hd⟩
      exact first_unit_of_not_isLow hnot hunits hlow
  · rw [CodePoint.units_of_ge hge]
    show firstPoint (_ :: _ :: units text) = _
    have hback : 0x10000 + (0xd800 + (c.val - 0x10000) / 0x400 - 0xd800) * 0x400 +
        (0xdc00 + (c.val - 0x10000) % 0x400 - 0xdc00) = c.val := by omega
    rw [firstPoint, if_pos (by omega), hback]

/-- Texts without pairs are known by their units. -/
theorem SameUnits.eq {s t : Text} (hs : s.Unpaired) (ht : t.Unpaired) (h : s.SameUnits t) :
    s = t := by
  rw [SameUnits] at h
  -- the first unit of a text tells its first code point, or that there is none
  induction s generalizing t with
  | nil =>
    cases t with
    | nil => rfl
    | cons d t =>
      have hread := firstPoint_units ht
      rw [← h] at hread
      cases hread
  | cons c s ih =>
    have hread := firstPoint_units hs
    cases t with
    | nil =>
      rw [h] at hread
      cases hread
    | cons d t =>
      rw [h, firstPoint_units ht, Option.some.injEq, Prod.mk.injEq] at hread
      obtain ⟨hval, hrest⟩ := hread
      have htail : s = t := ih hs.tail ht.tail hrest.symm
      rw [Fin.ext hval, htail]

/-! ### Hexadecimal numerals -/

/-- The number that a hexadecimal digit denotes. -/
def hexDigit (c : CodePoint) : Nat := if c.val ≤ 0x39 then c.val - 0x30 else c.val - 0x61 + 10

/-- The number that hexadecimal digits denote. -/
def hexNumber (digits : Text) : Nat := digits.foldl (fun n c => 16 * n + hexDigit c) 0

theorem hexNumber_append_singleton (digits : Text) (c : CodePoint) :
    hexNumber (digits ++ [c]) = 16 * hexNumber digits + hexDigit c := by
  rw [hexNumber, List.foldl_append]
  rfl

theorem hexDigit_digitChar {n : Nat} (h : n < 16) : hexDigit n.digitChar = n := by
  revert n
  decide

theorem hexNumber_toDigits (n : Nat) : hexNumber (ofChars (Nat.toDigits 16 n)) = n := by
  induction n using Nat.strongRecOn with
  | ind n ih =>
    rcases Nat.lt_or_ge n 16 with hn | hn
    · rw [Nat.toDigits_of_lt_base hn]
      show 16 * 0 + hexDigit n.digitChar = n
      rw [hexDigit_digitChar hn]
      omega
    · have hfront := ih (n / 16) (Nat.div_lt_self (by omega) (by decide))
      rw [Nat.toDigits_of_base_le (by decide) hn, ofChars, List.map_append, List.map_singleton,
        hexNumber_append_singleton, hexDigit_digitChar (Nat.mod_lt _ (by decide))]
      rw [ofChars] at hfront
      rw [hfront]
      omega

/-- Zeros in front do not count. -/
theorem hexNumber_hexPadded (width n : Nat) : hexNumber (hexPadded width n) = n := by
  have hzeros (k : Nat) : hexNumber (ofChars (List.replicate k '0')) = 0 := by
    induction k with
    | zero => rfl
    | succ k ih =>
      rw [ofChars] at ih
      rw [List.replicate_succ', ofChars, List.map_append, List.map_singleton,
        hexNumber_append_singleton, ih]
      rfl
  have hfront := hzeros (width - (Nat.toDigits 16 n).length)
  rw [hexNumber] at hfront
  rw [hexPadded, ofChars, List.map_append, hexNumber, List.foldl_append]
  rw [ofChars] at hfront
  rw [hfront]
  exact hexNumber_toDigits n

theorem length_hexPadded {width n : Nat} (hwidth : 0 < width) (hn : n < Nat.pow 16 width) :
    (hexPadded width n).length = width := by
  have hle := (Nat.length_toDigits_le_iff (by decide) hwidth).mpr hn
  rw [hexPadded, ofChars, List.length_map, List.length_append, List.length_replicate]
  omega

/-! ### Escapes of units -/

/-- The code point with the number of a unit. -/
def pointOfUnit (u : Nat) : CodePoint := ⟨u % 0x110000, Nat.mod_lt u (by decide)⟩

theorem val_pointOfUnit {u : Nat} (h : u < 0x10000) : (pointOfUnit u).val = u :=
  Nat.mod_eq_of_lt (Nat.lt_trans h (by decide))

theorem pointOfUnit_val (c : CodePoint) : pointOfUnit c.val = c := Fin.ext (Nat.mod_eq_of_lt c.isLt)

/-- The escape of a unit: that of the code point with its number. -/
def escapedUnit (u : Nat) : Text := escapedPoint .ascii (pointOfUnit u)

/-- Short escapes are for ASCII alone. -/
theorem lookup_shortEscapes_of_ge {c : CodePoint} (h : 0x80 ≤ c.val) :
    shortEscapes.lookup c = none := by
  have hascii : shortEscapes.all (fun escape => escape.1.val < 0x80) = true := by decide
  refine List.lookup_eq_none_iff.mpr fun escape hescape => ?_
  have hlt : escape.1.val < 0x80 := by simpa using List.all_eq_true.mp hascii escape hescape
  apply bne_iff_ne.mpr
  rintro rfl
  omega

theorem escapedPoint_of_ge {c : CodePoint} (h : 0x80 ≤ c.val) :
    escapedPoint .ascii c = c.units.flatMap unitEscape := by
  have hcovers : EscapeRange.ascii.covers c = true := by
    simp only [EscapeRange.covers, Bool.or_eq_true, decide_eq_true_eq]
    omega
  simp only [escapedPoint, lookup_shortEscapes_of_ge h, hcovers, if_true]

theorem escapedUnit_of_ge {u : Nat} (h : 0x80 ≤ u) (hu : u < 0x10000) :
    escapedUnit u = unitEscape u := by
  have hval : (pointOfUnit u).val = u := val_pointOfUnit hu
  rw [escapedUnit, escapedPoint_of_ge (hval.symm ▸ h), CodePoint.units_of_lt (hval.symm ▸ hu), hval,
    List.flatMap_singleton]

/-- A code point is escaped unit by unit. -/
theorem escapedPoint_ascii (c : CodePoint) : escapedPoint .ascii c = c.units.flatMap escapedUnit := by
  have hc := c.isLt
  rcases Nat.lt_or_ge c.val 0x10000 with hlt | hge
  · rw [CodePoint.units_of_lt hlt, List.flatMap_singleton, escapedUnit, pointOfUnit_val]
  · rw [escapedPoint_of_ge (by omega), CodePoint.units_of_ge hge]
    simp only [List.flatMap_cons, List.flatMap_nil]
    rw [escapedUnit_of_ge (by omega) (by omega), escapedUnit_of_ge (by omega) (by omega)]

/-- So is a text. -/
theorem escaped_eq_between (text : Text) :
    escaped .ascii text = between '"' (text.units.flatMap escapedUnit) := by
  rw [escaped, units, List.flatMap_assoc]
  congr 2
  funext c
  exact escapedPoint_ascii c

/-! ### Units read back -/

/-- The first unit of the inside of a JSON string, and what follows it.  Behind `\u` stand four
    digits. -/
def readUnit (text : Text) : Option (Nat × Text) :=
  match text with
  | [] => none
  | c :: rest =>
    if c = '\\' then
      match rest with
      | [] => none
      | letter :: rest =>
        if letter = 'u' then some (hexNumber (rest.take 4), rest.drop 4)
        else (shortEscapes.find? fun escape => escape.2 = letter).map fun escape => (escape.1.val, rest)
    else some (c.val, rest)

/-- Four digits are read from the escape of a unit. -/
theorem readUnit_unitEscape {u : Nat} (h : u < 0x10000) (rest : Text) :
    readUnit (unitEscape u ++ rest) = some (u, rest) := by
  have hlength : (hexPadded 4 u).length = 4 := length_hexPadded (by decide) h
  show some (hexNumber ((hexPadded 4 u ++ rest).take 4), (hexPadded 4 u ++ rest).drop 4) = _
  rw [List.take_left' hlength, List.drop_left' hlength, hexNumber_hexPadded]

/-- A code point with a short escape is read from it. -/
theorem readUnit_short {c letter : CodePoint} (h : shortEscapes.lookup c = some letter)
    (rest : Text) : readUnit ('\\' :: letter :: rest) = some (c.val, rest) := by
  obtain ⟨before, after, hescapes, -⟩ := List.lookup_eq_some_iff.mp h
  have hmem : (c, letter) ∈ shortEscapes := by
    rw [hescapes]
    exact List.mem_append_right _ List.mem_cons_self
  -- no two of the escapes have one letter, and the letter of none starts four digits
  have hletters : shortEscapes.all (fun escape => escape.2 ≠ 'u' ∧
      shortEscapes.find? (fun other => other.2 = escape.2) = some escape) = true := by decide
  obtain ⟨hdigits, hfind⟩ : letter ≠ 'u' ∧
      shortEscapes.find? (fun other => other.2 = letter) = some (c, letter) := by
    simpa using List.all_eq_true.mp hletters _ hmem
  show (if letter = 'u' then _ else _) = _
  rw [if_neg hdigits, hfind]
  rfl

theorem readUnit_plain {c : CodePoint} (h : c ≠ '\\') (rest : Text) :
    readUnit (c :: rest) = some (c.val, rest) := by
  simp only [readUnit, h, if_false]

/-- A unit is read back from its escape, whatever follows. -/
theorem readUnit_escapedUnit {u : Nat} (h : u < 0x10000) (rest : Text) :
    readUnit (escapedUnit u ++ rest) = some (u, rest) := by
  have hval : (pointOfUnit u).val = u := val_pointOfUnit h
  rw [escapedUnit, escapedPoint]
  cases hshort : shortEscapes.lookup (pointOfUnit u) with
  | some letter =>
    have hread := readUnit_short hshort rest
    rwa [hval] at hread
  | none =>
    by_cases hcovers : EscapeRange.ascii.covers (pointOfUnit u) = true
    · simp only [hcovers, if_true]
      rw [CodePoint.units_of_lt (hval.symm ▸ h), List.flatMap_singleton, hval]
      exact readUnit_unitEscape h rest
    · simp only [hcovers]
      have hplain : pointOfUnit u ≠ '\\' := by
        intro heq
        rw [heq] at hshort
        cases hshort
      have hread := readUnit_plain hplain rest
      rwa [hval] at hread

/-- No escape starts with a quote, not even that of a quote. -/
theorem exists_escapedUnit (u : Nat) :
    ∃ first rest, escapedUnit u = first :: rest ∧ first ≠ '"' := by
  rw [escapedUnit, escapedPoint]
  cases hshort : shortEscapes.lookup (pointOfUnit u) with
  | some letter => exact ⟨'\\', [letter], rfl, by decide⟩
  | none =>
    by_cases hcovers : EscapeRange.ascii.covers (pointOfUnit u) = true
    · obtain ⟨n, others, hunits⟩ :
          ∃ n others, CodePoint.units (pointOfUnit u) = n :: others := by
        rw [CodePoint.units]
        split <;> exact ⟨_, _, rfl⟩
      simp only [hcovers, if_true, hunits]
      exact ⟨'\\', _, rfl, by decide⟩
    · simp only [hcovers]
      refine ⟨_, [], rfl, fun heq => ?_⟩
      rw [heq] at hshort
      cases hshort

/-! ### Texts read back -/

/-- Units can be told from their escapes up to the quote at the end, whatever follows. -/
theorem flatMap_escapedUnit_append_injective {l l' : List Nat} {rest rest' : Text}
    (hl : ∀ u ∈ l, u < 0x10000) (hl' : ∀ u ∈ l', u < 0x10000)
    (h : l.flatMap escapedUnit ++ ('"' : CodePoint) :: rest =
      l'.flatMap escapedUnit ++ ('"' : CodePoint) :: rest') :
    l = l' ∧ rest = rest' := by
  -- the quote at the end stands for no unit, so that neither side ends first
  have not_quote {u : Nat} {units : List Nat} {rest rest' : Text} :
      ('"' : CodePoint) :: rest ≠ (u :: units).flatMap escapedUnit ++ rest' := by
    obtain ⟨first, others, hescape, hfirst⟩ := exists_escapedUnit u
    rw [List.flatMap_cons, hescape]
    exact fun h => hfirst (List.cons.inj h).1.symm
  have read_cons {u : Nat} (hu : u < 0x10000) (units : List Nat) (rest : Text) :
      readUnit ((u :: units).flatMap escapedUnit ++ rest) =
        some (u, units.flatMap escapedUnit ++ rest) := by
    rw [List.flatMap_cons, List.append_assoc, readUnit_escapedUnit hu]
  induction l generalizing l' with
  | nil =>
    cases l' with
    | nil => exact ⟨rfl, (List.cons.inj h).2⟩
    | cons u' units' => exact absurd h not_quote
  | cons u units ih =>
    cases l' with
    | nil => exact absurd h.symm not_quote
    | cons u' units' =>
      obtain ⟨hu, hunits⟩ := List.forall_mem_cons.mp hl
      obtain ⟨hu', hunits'⟩ := List.forall_mem_cons.mp hl'
      have hread := read_cons hu units (('"' : CodePoint) :: rest)
      rw [h, read_cons hu'] at hread
      obtain ⟨rfl, hothers⟩ := Prod.mk.inj (Option.some.inj hread)
      obtain ⟨rfl, hrest⟩ := ih hunits hunits' hothers.symm
      exact ⟨rfl, hrest⟩

/-- A JSON string in front of a text can be read off the text. -/
theorem escaped_append_injective {s t rest rest' : Text}
    (h : escaped .ascii s ++ rest = escaped .ascii t ++ rest') :
    s.SameUnits t ∧ rest = rest' := by
  rw [escaped_eq_between, escaped_eq_between, between, between, List.cons_append, List.cons_append,
    List.append_assoc, List.append_assoc] at h
  exact flatMap_escapedUnit_append_injective (fun _ => lt_of_mem_units) (fun _ => lt_of_mem_units)
    (List.cons.inj h).2

/-- Two texts have one JSON string exactly if they have the same units. -/
theorem escaped_eq_iff {s t : Text} : escaped .ascii s = escaped .ascii t ↔ s.SameUnits t := by
  constructor
  · intro h
    have happend : escaped .ascii s ++ [] = escaped .ascii t ++ [] := by rw [h]
    exact (escaped_append_injective happend).1
  · intro h
    rw [escaped_eq_between, escaped_eq_between, show s.units = t.units from h]

end Text

end Conform
