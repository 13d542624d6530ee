import Conform.Text.Blank

namespace Conform.Settings

/-!
# Environment files

A file of lines `KEY=VALUE`.  Blanks may stand around the equality sign and the word `export` in front of
the key; a value stands in single or double quotes or ends at a comment, which is `#` behind a blank; a
line that starts with `#` is a comment.  A line that fits no rule is skipped.

* `binding` — the first line of a text, and what is left of the text;
* `bindings` — all of them, a key without an equality sign having no value.
-/

/-- A blank inside a line. -/
def isLineBlank (c : Char) : Bool := Text.isBlank c && c ≠ '\r' && c ≠ '\n'

/-- A character inside a line. -/
def isInLine (c : Char) : Bool := c ≠ '\r' && c ≠ '\n'

/-- What is left behind the end of the present line; `none` if something is left of the line. -/
def endOfLine? (text : List Char) : Option (List Char) :=
  match text.dropWhile isLineBlank with
  | [] => some []
  | '\r' :: '\n' :: rest => some rest
  | '\r' :: rest => some rest
  | '\n' :: rest => some rest
  | _ => none

/-- What is left behind the present line, whatever it holds. -/
def skipLine (text : List Char) : List Char :=
  match text.dropWhile isInLine with
  | '\r' :: rest => rest
  | '\n' :: rest => rest
  | rest => rest

/-- What is left behind a comment that may stand here. -/
def skipComment (text : List Char) : List Char :=
  match text.dropWhile isLineBlank with
  | '#' :: rest => rest.dropWhile isInLine
  | _ => text

/-- What is left behind the word `export` and blanks. -/
def skipExport (text : List Char) : List Char :=
  let word := "export".toList
  let rest := text.drop word.length
  if word.isPrefixOf text && (rest.head?.map isLineBlank).getD false then rest.dropWhile isLineBlank
  else text

/-! ### Values -/

/-- The characters up to the closing quote, and what is left behind it.  A character behind a backslash
    does not close, and the backslash stays with it. -/
def upToQuote (quote : Char) : List Char → Option (List Char × List Char)
  | [] => none
  | ['\\'] => none
  | '\\' :: c :: rest => (upToQuote quote rest).map fun (value, left) => ('\\' :: c :: value, left)
  | c :: rest =>
    if c = quote then some ([], rest)
    else (upToQuote quote rest).map fun (value, left) => (c :: value, left)

/-- The escapes of a value in double quotes. -/
def doubleQuoteEscapes : List (Char × Char) :=
  [('\\', '\\'), ('\'', '\''), ('"', '"'), ('a', '\x07'), ('b', '\x08'), ('f', '\x0c'), ('n', '\n'),
    ('r', '\r'), ('t', '\t'), ('v', '\x0b')]

/-- The escapes of a value in single quotes. -/
def singleQuoteEscapes : List (Char × Char) := [('\\', '\\'), ('\'', '\'')]

/-- Replace the escapes of a quoted value. -/
def unescape (escapes : List (Char × Char)) : List Char → List Char
  | [] => []
  | [c] => [c]
  | c :: d :: rest =>
    match (if c = '\\' then escapes.lookup d else none) with
    | some e => e :: unescape escapes rest
    | none => c :: unescape escapes (d :: rest)

/-- A value without quotes: up to a `#` behind a blank. -/
def plainValue (previous : Option Char) : List Char → List Char
  | [] => []
  | c :: rest =>
    if c = '#' ∧ (previous.map Text.isBlank).getD false then [] else c :: plainValue (some c) rest

/-- The value behind an equality sign, and what is left. -/
def value? (text : List Char) : Option (List Char × List Char) :=
  match text with
  | '\'' :: rest =>
    (upToQuote '\'' rest).map fun (value, left) => (unescape singleQuoteEscapes value, left)
  | '"' :: rest =>
    (upToQuote '"' rest).map fun (value, left) => (unescape doubleQuoteEscapes value, left)
  | _ =>
    let (line, left) := text.span isInLine
    some (Text.trimEnd Text.isBlank (plainValue none line), left)

/-! ### Lines -/

/-- The key at the start of a line, `some none` where a comment stands instead, and what is left. -/
def key? (text : List Char) : Option (Option (List Char) × List Char) :=
  match text with
  | '#' :: _ => some (none, text)
  | '\'' :: rest =>
    match rest.span (· ≠ '\'') with
    | (key, _ :: left) => if key.isEmpty then none else some (some key, left)
    | (_, []) => none
  | _ =>
    match text.span fun c => c ≠ '=' && c ≠ '#' && !Text.isBlank c with
    | ([], _) => none
    | (key, left) => some (some key, left)

/-- What a line binds: nothing, or a key to a value or to none. -/
abbrev Binding := Option (String × Option String)

/-- Bind a key at the end of its line; if something else is left there, nothing is bound. -/
def finishLine (key value : Option (List Char)) (text : List Char) : Binding × List Char :=
  let rest := skipComment text
  match endOfLine? rest with
  | some left => (key.map fun key => (String.ofList key, value.map String.ofList), left)
  | none => (none, skipLine rest)

/-- The rest of a line behind its key. -/
def bindingOf (key : Option (List Char)) (text : List Char) : Binding × List Char :=
  match text.dropWhile isLineBlank with
  | '=' :: rest =>
    let rest := rest.dropWhile isLineBlank
    match value? rest with
    | some (value, left) => finishLine key (some value) left
    | none => (none, skipLine rest)
  | rest => finishLine key none rest

/-- What the first line of a text binds, and what is left of the text; empty lines are passed over. -/
def binding (text : List Char) : Binding × List Char :=
  match text.dropWhile Text.isBlank with
  | [] => (none, [])
  | line =>
    let line := skipExport line
    match key? line with
    | some (key, rest) => bindingOf key rest
    | none => (none, skipLine line)

/-- The bindings of a text in order, of at most `fuel` lines. -/
def bindingsWithin : Nat → List Char → List (String × Option String)
  | 0, _ => []
  | _, [] => []
  | fuel + 1, text =>
    let (found, rest) := binding text
    found.toList ++ bindingsWithin fuel rest

/-- The mark of the byte order, which may stand in front of a text. -/
def byteOrderMark : Char := '\ufeff'

/-- A text without the mark of the byte order. -/
def withoutMark (text : List Char) : List Char :=
  match text with
  | c :: rest => if c = byteOrderMark then rest else text
  | [] => []

/-- The bindings of a text in order; a line takes at least one character. -/
def bindings (text : String) : List (String × Option String) :=
  bindingsWithin (text.length + 1) (withoutMark text.toList)

end Conform.Settings
