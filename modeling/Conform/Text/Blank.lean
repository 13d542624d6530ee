namespace Conform.Text

/-!
# Blank characters

* `isSpace` — white space of Unicode;
* `isBlank` — white space of Unicode, with the four separators of ASCII counted in;
* `trim`, `trimEnd` — a list of characters without the ones at its ends.
-/

/-- Whether a code point lies in one of a list of closed ranges. -/
def inRanges (ranges : List (Nat × Nat)) (n : Nat) : Bool :=
  ranges.any fun (low, high) => low ≤ n && n ≤ high

/-- The white space of Unicode, as ascending closed ranges. -/
def spaces : List (Nat × Nat) :=
  [(0x09, 0x0d), (0x20, 0x20), (0x85, 0x85), (0xa0, 0xa0), (0x1680, 0x1680), (0x2000, 0x200a),
    (0x2028, 0x2029), (0x202f, 0x202f), (0x205f, 0x205f), (0x3000, 0x3000)]

/-- The separators of files, groups, records and units, as a closed range. -/
def separators : Nat × Nat := (0x1c, 0x1f)

/-- Whether a character is white space. -/
def isSpace (c : Char) : Bool := inRanges spaces c.toNat

/-- Whether a character is white space or a separator. -/
def isBlank (c : Char) : Bool := inRanges (separators :: spaces) c.toNat

/-- A blank is white space or a separator. -/
theorem isBlank_iff {c : Char} :
    isBlank c = true ↔ (0x1c ≤ c.toNat ∧ c.toNat ≤ 0x1f) ∨ isSpace c = true := by
  simp [isBlank, isSpace, inRanges, separators]

/-- White space is blank. -/
theorem isBlank_of_isSpace {c : Char} (h : isSpace c = true) : isBlank c = true :=
  isBlank_iff.2 (.inr h)

/-- A list of characters without the ones at both ends that are `blank`. -/
def trim (blank : Char → Bool) (chars : List Char) : List Char :=
  ((chars.dropWhile blank).reverse.dropWhile blank).reverse

/-- A list of characters without the ones at its end that are `blank`. -/
def trimEnd (blank : Char → Bool) (chars : List Char) : List Char :=
  (chars.reverse.dropWhile blank).reverse

end Conform.Text
