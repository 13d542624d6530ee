import Conform.Text.Hexadecimal
import Conform.Text.Printable

namespace Conform.Text

/-!
# Quoted texts and byte strings

The form in which a text is shown inside a message: between quotes, with everything that could not be
read back escaped.  A single quote is used unless the text holds single quotes and no double ones.

* `quoted` — a text;
* `quotedBytes` — a string of bytes, marked by a `b` in front.
-/

/-- The quote for contents of which one is asked whether they hold a given quote. -/
def quoteFor (holds : CodePoint → Bool) : CodePoint :=
  if holds '\'' && !holds '"' then '"' else '\''

/-- The short escapes that both forms share. -/
def shortEscape? (quote c : CodePoint) : Option Text :=
  if c = quote ∨ c = ('\\' : CodePoint) then some ['\\', c]
  else if c = ('\t' : CodePoint) then some ['\\', 't']
  else if c = ('\n' : CodePoint) then some ['\\', 'n']
  else if c = ('\r' : CodePoint) then some ['\\', 'r']
  else none

/-- A code point by its number, in two, four or eight digits, whichever is the first to hold it. -/
def numericEscape (n : Nat) : Text :=
  if n < 0x100 then '\\' :: 'x' :: hexPadded 2 n
  else if n < 0x10000 then '\\' :: 'u' :: hexPadded 4 n
  else '\\' :: 'U' :: hexPadded 8 n

/-- One code point of a quoted text. -/
def quotedPoint (quote c : CodePoint) : Text :=
  match shortEscape? quote c with
  | some escape => escape
  | none => if isPrintable c then [c] else numericEscape c.val

/-- One byte of a quoted byte string. -/
def quotedByte (quote : CodePoint) (b : UInt8) : Text :=
  let c := CodePoint.ofByte b
  match shortEscape? quote c with
  | some escape => escape
  | none => if 0x20 ≤ b.toNat ∧ b.toNat < 0x7f then [c] else numericEscape b.toNat

/-- A text between quotes. -/
def quoted (text : Text) : Text :=
  let quote := quoteFor (text.contains ·)
  between quote (text.flatMap (quotedPoint quote))

/-- A byte string between quotes. -/
def quotedBytes (bytes : List UInt8) : Text :=
  let quote := quoteFor fun c => bytes.any (·.toNat == c.val)
  'b' :: between quote (bytes.flatMap (quotedByte quote))

end Conform.Text
