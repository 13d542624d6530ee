import Conform.Display
import Conform.Text.Escaped

namespace Conform

/-!
# Serialisation

Values as JSON texts.  Lists and tuples are arrays, mappings that are changed in place are objects, and
the keys of an object are strings, numbers, Booleans or null.  Anything else has no JSON text, unless a
fallback supplies a string for it; nor has a container inside itself.

* `Heap.json?` — the JSON text of a value in a given style;
* `Heap.canonical?` — the text by which a literal compares values;
* `Heap.render` — the text by which a failure quotes a value, cut to a limit.
-/

/-- How a JSON text is laid out, and what is written for a value that has none. -/
structure JsonStyle where
  comma : Text
  colon : Text
  range : Text.EscapeRange
  fallback : Value → Option Text

/-- The JSON spelling of the numbers that are not finite. -/
def jsonNames : SpecialNames := ⟨"NaN", "Infinity"⟩

/-- The text of an object's key. -/
def Value.jsonKey? (v : Value) : Option Text :=
  match v with
  | .str s => some s
  | .code c => some c.name
  | .float x => some (x.text jsonNames)
  | .bool b => some (if b then "true" else "false")
  | .null => some "null"
  | .int n => (integerText n).toOption
  | _ => none

namespace Heap

/-- The JSON array of items, given the texts of the items. -/
def jsonArray? (style : JsonStyle) (inner : Value → Option Text) (items : List Value) :
    Option Text := do
  let parts ← items.mapM inner
  return "[" ++ List.intercalate style.comma parts ++ "]"

/-- The JSON object of entries, given the texts of the values. -/
def jsonObject? (style : JsonStyle) (inner : Value → Option Text)
    (entries : List (Value × Value)) : Option Text := do
  let parts ← entries.mapM fun entry => do
    let key ← entry.1.jsonKey?
    return Text.escaped style.range key ++ style.colon ++ (← inner entry.2)
  return "\x7b" ++ List.intercalate style.comma parts ++ "\x7d"

/-- The JSON string which the fallback supplies. -/
def jsonFallback? (style : JsonStyle) (v : Value) : Option Text :=
  (style.fallback v).map (Text.escaped style.range)

/-- The JSON text of a value nested fewer than `fuel` levels, inside the containers `enclosing`. -/
def jsonWithin? (h : Heap) (style : JsonStyle) : Nat → List Addr → Value → Option Text
  | 0, _, _ => none
  | fuel + 1, enclosing, v =>
    match v with
    | .null => some "null"
    | .bool b => some (if b then "true" else "false")
    | .int n => (integerText n).toOption
    | .float x => some (x.text jsonNames)
    | .str s => some (Text.escaped style.range s)
    | .code c => some (Text.escaped style.range c.name)
    | .ref a =>
      match h.cell a with
      | .list items | .tuple items =>
        if items.isEmpty then some "[]"
        else if enclosing.contains a then none
        else jsonArray? style (jsonWithin? h style fuel (a :: enclosing)) items
      | .dict entries | .orderedDict entries =>
        if entries.isEmpty then some "\x7b\x7d"
        else if enclosing.contains a then none
        else jsonObject? style (jsonWithin? h style fuel (a :: enclosing)) entries
      | _ => jsonFallback? style v
    | _ => jsonFallback? style v

/-- The JSON text of a value. -/
def json? (h : Heap) (style : JsonStyle) (v : Value) : Option Text :=
  h.jsonWithin? style nestingLimit [] v

/-! ### The canonical form -/

/-- The canonical style: no blanks, printable ASCII alone, and no fallback. -/
def canonicalStyle : JsonStyle := ⟨",", ":", .ascii, fun _ => none⟩

/-- The text by which a literal compares values, if there is one.  A float that is a whole number has
    the text of the integer, but not inside a container. -/
def canonical? (h : Heap) (v : Value) : Option Text :=
  match v with
  | .undefined => none
  | .float x =>
    match x.integral? with
    | some n => (integerText n).toOption
    | none => h.json? canonicalStyle v
  | _ => h.json? canonicalStyle v

/-! ### Rendering -/

/-- The style of a rendered value: blanks behind commas and colons, escapes only where JSON demands
    them, and the display of whatever has no JSON text. -/
def renderStyle (h : Heap) : JsonStyle := ⟨", ", ": ", .controls, fun v => some (h.safeDisplay v)⟩

/-- The whole rendering of a value. -/
def rendering (h : Heap) (v : Value) : Text :=
  match v with
  | .undefined => "undefined"
  | _ =>
    match h.json? h.renderStyle v with
    | some text => text
    | none => h.safeDisplay v

end Heap

/-- The part of a text in front of an end that is counted from the start, or from the end when
    negative. -/
def sliceTo (bound : Int) (text : Text) : Text :=
  if 0 ≤ bound then text.take bound.toNat else text.take (text.length - bound.natAbs)

/-- A text of more than `limit` code points is cut three of them before the limit, and an ellipsis is
    put there. -/
def truncate (limit : Int) (text : Text) : Text :=
  if limit < text.length then sliceTo (limit - 3) text ++ "..." else text

/-- A text within the limit is kept. -/
theorem truncate_of_le {limit : Int} {text : Text} (h : text.length ≤ limit) :
    truncate limit text = text := by
  simp [truncate, Int.not_lt.mpr h]

/-- A limit that leaves room for the ellipsis is kept. -/
theorem length_truncate_le {limit : Int} (h : 3 ≤ limit) (text : Text) :
    (truncate limit text).length ≤ limit := by
  unfold truncate
  split
  · have hdots : (Text.ofString "...").length = 3 := rfl
    simp only [List.length_append, sliceTo, hdots]
    rw [if_pos (by omega), List.length_take]
    omega
  · omega

/-- The rendering of a value, cut to a limit. -/
def Heap.render (h : Heap) (limit : Int) (v : Value) : Text := truncate limit (h.rendering v)

end Conform
