namespace Conform

/-!
# Texts

A text is a list of code points.  Any code point may stand in it: also a surrogate, which UTF-16 keeps
for one half of a pair, and which a `String` cannot hold.

* `CodePoint`, `Text` — code points, and texts of them;
* `Text.ofString` — the text of a `String`; literals are taken as texts where one is expected;
* `CodePoint.isHigh`, `CodePoint.isLow` — the surrogates for the two halves of a pair;
* `Text.units` — the units of UTF-16 that stand for a text.
-/

/-- A code point of Unicode. -/
abbrev CodePoint := Fin 0x110000

namespace CodePoint

/-- The code point of a character. -/
def ofChar (c : Char) : CodePoint :=
  ⟨c.toNat, by
    rcases c.valid with h | h
    · exact Nat.lt_trans h (by decide)
    · exact h.2⟩

instance : Coe Char CodePoint := ⟨ofChar⟩

/-- The code point of a byte, as its number. -/
def ofByte (b : UInt8) : CodePoint := ⟨b.toNat, Nat.lt_trans b.toNat_lt (by decide)⟩

/-- Whether the code point is the surrogate for the first half of a pair. -/
def isHigh (c : CodePoint) : Bool := 0xd800 ≤ c.val && c.val < 0xdc00

/-- Whether the code point is the surrogate for the second half of a pair. -/
def isLow (c : CodePoint) : Bool := 0xdc00 ≤ c.val && c.val < 0xe000

/-- Whether the code point is a surrogate. -/
def isSurrogate (c : CodePoint) : Bool := c.isHigh || c.isLow

/-- An ASCII capital as a small letter; any other code point is kept. -/
def toLower (c : CodePoint) : CodePoint := if 0x41 ≤ c.val ∧ c.val ≤ 0x5a then c + 0x20 else c

/-- The UTF-16 units of a code point: itself, or a pair of surrogates. -/
def units (c : CodePoint) : List Nat :=
  if c.val < 0x10000 then [c.val]
  else [0xd800 + (c.val - 0x10000) / 0x400, 0xdc00 + (c.val - 0x10000) % 0x400]

theorem ofChar_injective {c d : Char} (h : ofChar c = ofChar d) : c = d :=
  Char.ext (UInt32.toNat_inj.mp (Fin.mk.inj h))

end CodePoint

/-- A text: its code points in order. -/
abbrev Text := List CodePoint

namespace Text

/-- The text of characters. -/
def ofChars (chars : List Char) : Text := chars.map CodePoint.ofChar

/-- The text of a string. -/
def ofString (s : String) : Text := ofChars s.toList

instance : Coe String Text := ⟨ofString⟩

/-- The UTF-16 units of a text.  A pair of units does not tell whether it comes from one code point, or
    from two surrogates that stand side by side. -/
def units (text : Text) : List Nat := text.flatMap CodePoint.units

/-- A text with the same quote before and behind it. -/
def between (quote : CodePoint) (text : Text) : Text := quote :: (text ++ [quote])

theorem ofChars_injective {l l' : List Char} (h : ofChars l = ofChars l') : l = l' :=
  (List.map_inj_right fun _ _ => CodePoint.ofChar_injective).mp h

theorem ofString_injective {s t : String} (h : ofString s = ofString t) : s = t :=
  String.toList_injective (ofChars_injective h)

end Text

end Conform
