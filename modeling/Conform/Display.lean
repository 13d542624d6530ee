import Conform.Heap
import Conform.Number.Shortest
import Conform.Text.Quoted

namespace Conform

/-!
# The display of a value

The text by which a value is shown inside a message: scalars as they would be written in a program,
containers with their contents, validators with their attributes.  A container inside itself is shown by
an ellipsis.  The display fails for integers with too many digits, for foreign objects that refuse to be
shown, and for nesting beyond `nestingLimit`.

* `integerText` — the decimal numeral of an integer, within the digit limit;
* `Heap.display` — the display of a value;
* `Heap.safeDisplay` — the same, with the type name where the display fails;
* `Heap.inline` — a value inside a sentence, where a string stands without quotes;
* `Heap.faultText` — the sentence a fault carries.
-/

/-- How many levels of containers can be shown or serialised.  The levels are counted from the value
    itself, though the stack is shared with whoever asks: what is said of values that are nested less than
    300 levels deep does not depend on this number, and nothing is meant by the numbers around it. -/
def nestingLimit : Nat := 1000

/-- The least number with too many digits. -/
def digitBound : Nat := Nat.pow 10 Fault.maxDigits

/-- The decimal numeral of an integer of at most `Fault.maxDigits` digits. -/
def integerText (n : Int) : Except Fault Text :=
  if n.natAbs < digitBound then .ok (toString n) else .error .tooManyDigits

/-- The display of the numbers that are not finite. -/
def displayNames : SpecialNames := ⟨"nan", "inf"⟩

/-- Parts with commas between them. -/
def commaSeparated (parts : List Text) : Text := List.intercalate (", " : Text) parts

/-- The display of an object inside its own display. -/
def Cell.ellipsis : Cell → Text
  | .list _ => "[...]"
  | .tuple _ => "(...)"
  | .set _ => "set(...)"
  | .frozenSet _ => "frozenset(...)"
  | .dict _ => "\x7b...\x7d"
  | .view _ => "mappingproxy(\x7b...\x7d)"
  | _ => "..."

namespace Heap

/-- The displays of a mapping's entries, in braces. -/
def displayEntries (inner : Value → Except Fault Text) (entries : List (Value × Value)) :
    Except Fault Text := do
  let parts ← entries.mapM fun entry => return (← inner entry.1) ++ ": " ++ (← inner entry.2)
  return "\x7b" ++ commaSeparated parts ++ "\x7d"

/-- The display of an object, given that of its contents. -/
def displayCell (inner : Value → Except Fault Text) : Cell → Except Fault Text
  | .list items => return "[" ++ commaSeparated (← items.mapM inner) ++ "]"
  | .tuple [item] => return "(" ++ (← inner item) ++ ",)"
  | .tuple items => return "(" ++ commaSeparated (← items.mapM inner) ++ ")"
  | .set [] => return "set()"
  | .set items => return "\x7b" ++ commaSeparated (← items.mapM inner) ++ "\x7d"
  | .frozenSet [] => return "frozenset()"
  | .frozenSet items => return "frozenset(\x7b" ++ commaSeparated (← items.mapM inner) ++ "\x7d)"
  | .dict entries => displayEntries inner entries
  | .orderedDict [] => return "OrderedDict()"
  | .orderedDict entries => do
    let parts ← entries.mapM fun entry =>
      return "(" ++ (← inner entry.1) ++ ", " ++ (← inner entry.2) ++ ")"
    return "OrderedDict([" ++ commaSeparated parts ++ "])"
  | .view entries => return "mappingproxy(" ++ (← displayEntries inner entries) ++ ")"
  | .guarded _ _ => return "<trapmap>"
  | .stream _ => return "<generator>"
  | .foreign _ shown _ => shown.mapError Subtype.val
  | .function name => return "<fn " ++ name.getD "?" ++ ">"
  | .sink _ => return "<sink>"
  | .options logFailures sink =>
    return "ValidateOptions(log_failures=" ++ (← inner (.bool logFailures)) ++ ", sink=" ++
      (← inner sink) ++ ")"
  | .validator portrait => do
    let parts ← portrait.attributes.mapM fun (name, content) =>
      match content with
      | .text s => return name ++ "=" ++ s
      | .value v => return name ++ "=" ++ (← inner v)
    return portrait.title ++ "(" ++ commaSeparated parts ++ ")"

/-- The display of a value nested fewer than `fuel` levels, inside the objects `enclosing`. -/
def displayWithin (h : Heap) : Nat → List Addr → Value → Except Fault Text
  | 0, _, _ => .error .tooDeep
  | fuel + 1, enclosing, v =>
    match v with
    | .undefined => .ok "UNDEFINED"
    | .null => .ok "None"
    | .bool b => .ok (if b then "True" else "False")
    | .int n => integerText n
    | .float x => .ok (x.text displayNames)
    | .str s => .ok (Text.quoted s)
    | .code c => .ok ("<" ++ c.qualifiedName ++ ": " ++ Text.quoted c.name ++ ">")
    | .bytes bytes => .ok (Text.quotedBytes bytes)
    | .type t => .ok ("<class '" ++ t.name ++ "'>")
    | .builtin f => .ok ("<built-in function " ++ f.name ++ ">")
    | .ref a =>
      if enclosing.contains a then .ok (h.cell a).ellipsis
      else displayCell (displayWithin h fuel (a :: enclosing)) (h.cell a)

/-- The display of a value. -/
def display (h : Heap) (v : Value) : Except Fault Text := h.displayWithin nestingLimit [] v

/-- The display of a value, or its type name where the display fails. -/
def safeDisplay (h : Heap) (v : Value) : Text :=
  match h.display v with
  | .ok s => s
  | .error _ => "<" ++ h.typeName v ++ ">"

/-- A value inside a sentence. -/
def inline (h : Heap) (v : Value) : Except Fault Text :=
  match v.label?, h.cellOf? v with
  | some label, _ => .ok label.inline
  | none, some (.options logFailures sink) =>
    return "log_failures=" ++ (← h.display (.bool logFailures)) ++ " sink=" ++ (← h.display sink)
  | none, _ => h.display v

/-- The sentence a fault carries: the value it was raised with, which is displayed if it is a missing
    key. -/
def faultText (h : Heap) (fault : Fault) : Except Fault Text :=
  match fault.kind, fault.argument with
  | _, none => .ok ""
  | .missingKey, some key => h.display key
  | _, some v => h.inline v

end Heap

end Conform
