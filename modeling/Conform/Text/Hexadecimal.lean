import Conform.Text

namespace Conform.Text

/-!
# Hexadecimal numerals

* `hexPadded` — lower-case hexadecimal digits, filled up with zeros to a width.
-/

/-- The lower-case hexadecimal digits of `n`, with zeros in front up to `width` digits. -/
def hexPadded (width n : Nat) : Text :=
  let digits := Nat.toDigits 16 n
  ofChars (List.replicate (width - digits.length) '0' ++ digits)

end Conform.Text
