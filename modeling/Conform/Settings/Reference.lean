namespace Conform.Settings

/-!
# References in values

A value of an environment file may refer to variables: `${NAME}` stands for the value of `NAME`, and
`${NAME:-TEXT}` for `TEXT` where `NAME` is not set.  A dollar sign that starts no reference stands for
itself.

* `Reference` — a name with the text that stands in for it;
* `reference?` — the reference at the start of a text, and what is left of the text;
* `expand` — a text with its references replaced.
-/

/-- The name of a variable, and the text that takes its place where it is not set. -/
structure Reference where
  name : List Char
  fallback : List Char
  deriving DecidableEq, Inhabited

/-- The text up to the brace that closes a reference, and what is left behind the brace. -/
def upToBrace? (chars : List Char) : Option (List Char × List Char) :=
  match chars.span (· ≠ '}') with
  | (inner, _ :: left) => some (inner, left)
  | (_, []) => none

/-- The reference at the start of a text, and what is left of the text.  Names hold neither a colon nor a
    closing brace. -/
def reference? : List Char → Option (Reference × List Char)
  | '$' :: '{' :: rest =>
    match rest.span fun c => c ≠ '}' && c ≠ ':' with
    | (name, '}' :: left) => some (⟨name, []⟩, left)
    | (name, ':' :: '-' :: fallback) =>
      (upToBrace? fallback).map fun (fallback, left) => (⟨name, fallback⟩, left)
    | _ => none
  | _ => none

/-- The text that a reference stands for. -/
def Reference.text (valueOf? : String → Option String) (r : Reference) : List Char :=
  match valueOf? (String.ofList r.name) with
  | some value => value.toList
  | none => r.fallback

/-- A text of at most `fuel` characters with its references replaced. -/
def expandWithin (valueOf? : String → Option String) : Nat → List Char → List Char
  | 0, _ => []
  | _, [] => []
  | fuel + 1, c :: rest =>
    match reference? (c :: rest) with
    | some (r, left) => r.text valueOf? ++ expandWithin valueOf? fuel left
    | none => c :: expandWithin valueOf? fuel rest

/-- A text with its references replaced; what replaces them is not looked at again. -/
def expand (valueOf? : String → Option String) (text : String) : String :=
  String.ofList (expandWithin valueOf? text.length text.toList)

end Conform.Settings
