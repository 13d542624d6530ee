import Conform.Text.Blank

namespace Conform.Settings

/-!
# Integers in the environment

An integer is written as a plain numeral: a minus sign or none, and digits of which the first is no zero
unless it stands alone, all in all at most 4300 characters.  A text that is no plain numeral may become
one when it is tidied: a plus sign, leading zeros with underscores between them, single underscores
between digits, and a fraction of zeros alone are left out.

* `plainNumeral` — the value of a plain numeral;
* `tidied?` — a text without what may be left out;
* `integer` — the value of a text, tidied if need be.
-/

/-- Why a text is no integer. -/
inductive IntegerFault where
  | malformed
  | tooLong
  deriving DecidableEq, Inhabited

/-! ### Plain numerals -/

/-- Whether a character is a digit of ASCII. -/
def isDigit (c : Char) : Bool := '0' ≤ c && c ≤ '9'

/-- The value of digits, the most significant one first. -/
def digitsValue (digits : List Char) : Nat := digits.foldl (fun n c => 10 * n + (c.toNat - '0'.toNat)) 0

/-- How many characters a plain numeral has at most. -/
def numeralLimit : Nat := 4300

/-- The value of a plain numeral behind its sign, of `signs` characters.  Too many digits are too many,
    whatever stands behind them. -/
def unsignedNumeral (signs : Nat) (chars : List Char) : Except IntegerFault Nat :=
  match chars.span isDigit with
  | ([], _) => .error .malformed
  | (['0'], []) => .ok 0
  | ('0' :: _, _) => .error .malformed
  | (digits, rest) =>
    if numeralLimit < signs + digits.length then .error .tooLong
    else if rest.isEmpty then .ok (digitsValue digits)
    else .error .malformed

/-- The value of a plain numeral. -/
def plainNumeral : List Char → Except IntegerFault Int
  | '-' :: rest => (unsignedNumeral 1 rest).map fun n => -(n : Int)
  | chars => (unsignedNumeral 0 chars).map fun n => (n : Int)

/-! ### Tidying -/

/-- What is left behind a zero, which is `last`, without further zeros and underscores.  The last of them
    stays in front of a fraction and at the end. -/
def behindZero? (last : Char) : List Char → Option (List Char)
  | [] => some [last]
  | c :: rest =>
    if c = '0' ∨ c = '_' then behindZero? c rest
    else if c = '.' then some (last :: c :: rest)
    else if isDigit c ∨ c = '-' then some (c :: rest)
    else none

/-- A text that starts with a digit, without its leading zeros. -/
def withoutZeros? : List Char → Option (List Char)
  | [] => none
  | c :: rest =>
    if c = '0' then behindZero? c rest
    else if isDigit c then some (c :: rest)
    else none

/-- A text without a fraction of one or more zeros. -/
def withoutFraction (chars : List Char) : List Char :=
  match chars.span (· ≠ '.') with
  | (whole, _ :: digit :: digits) => if (digit :: digits).all (· = '0') then whole else chars
  | _ => chars

/-- Whether two underscores stand side by side. -/
def hasDoubleUnderscore : List Char → Bool
  | '_' :: '_' :: _ => true
  | _ :: rest => hasDoubleUnderscore rest
  | [] => false

/-- A text without its underscores, if each stands alone between two other characters. -/
def withoutUnderscores (chars : List Char) : List Char :=
  if chars.head? = some '_' ∨ chars.getLast? = some '_' ∨ hasDoubleUnderscore chars then chars
  else chars.filter (· ≠ '_')

/-- A text without what may be left out behind its sign. -/
def tidiedBehindSign? (chars : List Char) : Option (List Char) :=
  (withoutZeros? chars).map fun rest => withoutUnderscores (withoutFraction rest)

/-- A text without what may be left out; `none` where no digit follows the sign. -/
def tidied? : List Char → Option (List Char)
  | '+' :: rest => tidiedBehindSign? rest
  | '-' :: rest => (tidiedBehindSign? rest).map ('-' :: ·)
  | chars => tidiedBehindSign? chars

/-! ### Integers -/

/-- The value of a text that is a plain numeral, or becomes one when it is tidied.  White space around it
    does not count. -/
def integer (text : String) : Except IntegerFault Int :=
  let chars := Text.trim Text.isSpace text.toList
  match plainNumeral chars with
  | .error .malformed =>
    match tidied? chars with
    | some chars => plainNumeral chars
    | none => .error .malformed
  | result => result

end Conform.Settings
