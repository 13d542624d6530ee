import Conform.Text.Hexadecimal

namespace Conform.Text

/-!
# JSON strings

A text between double quotes with the escapes of JSON.  What is escaped beyond the quote, the backslash
and the controls is a choice:

* `EscapeRange.ascii` — everything outside printable ASCII, in units of UTF-16;
* `EscapeRange.controls` — nothing more;
* `escaped` — the JSON string of a text.
-/

/-- Which code points of a JSON string are written as `\u` escapes. -/
inductive EscapeRange where
  | ascii
  | controls
  deriving DecidableEq

/-- Whether the range escapes a code point that has no short escape. -/
def EscapeRange.covers : EscapeRange → CodePoint → Bool
  | .ascii, c => c.val < 0x20 || 0x7e < c.val
  | .controls, c => c.val < 0x20

/-- The escapes of JSON that are one letter behind a backslash. -/
def shortEscapes : List (CodePoint × CodePoint) :=
  [('"', '"'), ('\\', '\\'), ('\n', 'n'), ('\r', 'r'), ('\t', 't'), ('\x0c', 'f'), ('\x08', 'b')]

/-- A unit of UTF-16 as an escape of four digits. -/
def unitEscape (n : Nat) : Text := '\\' :: 'u' :: hexPadded 4 n

/-- One code point of a JSON string.  A surrogate is its own unit, so that two of them side by side are
    written like the code point for which they are the pair. -/
def escapedPoint (range : EscapeRange) (c : CodePoint) : Text :=
  match shortEscapes.lookup c with
  | some letter => ['\\', letter]
  | none => if range.covers c then c.units.flatMap unitEscape else [c]

/-- The JSON string of a text. -/
def escaped (range : EscapeRange) (text : Text) : Text :=
  between '"' (text.flatMap (escapedPoint range))

end Conform.Text
