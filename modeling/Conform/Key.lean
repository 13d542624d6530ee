import Conform.Heap

namespace Conform

/-!
# Keys of mappings and sets

A mapping holds at most one entry for equal keys.  Keys are equal across the number types (a Boolean
counts as 0 or 1) and, for strings, by their contents; tuples and frozen sets are compared by their
items, options by their fields, all other objects by their address.

* `Heap.sameKey` — equality of keys;
* `Heap.unhashable?` — the type name of the part that keeps a value from being a key;
* `Heap.insertEntry` — add an entry, or replace the value of an equal key;
* `Heap.readEntries` — every entry of a mapping, each value looked up in order.
-/

namespace Heap

/-- More levels than tuples, frozen sets and options can be nested: their parts are allocated before
    them. -/
def keyFuel (h : Heap) : Nat := h.next + 1

/-- Equality of keys that are nested fewer than `fuel` levels. -/
def sameKeyWithin (h : Heap) : Nat → Value → Value → Bool
  | 0, v, w => v == w
  | fuel + 1, v, w =>
    match v.integer?, w.integer?, v, w with
    | some m, some n, _, _ => m == n
    | some m, none, _, .float y => y.sameInt m
    | none, some n, .float x, _ => x.sameInt n
    | _, _, .float x, .float y => x.sameNumber y
    | _, _, .ref a, .ref b =>
      a == b ||
        match h.cell a, h.cell b with
        | .tuple xs, .tuple ys =>
          xs.length == ys.length && (xs.zip ys).all fun (x, y) => sameKeyWithin h fuel x y
        | .frozenSet xs, .frozenSet ys =>
          xs.length == ys.length && xs.all fun x => ys.any fun y => sameKeyWithin h fuel x y
        | .options log sink, .options log' sink' => log == log' && sameKeyWithin h fuel sink sink'
        | _, _ => false
    | _, _, _, _ =>
      match v.text?, w.text? with
      | some s, some t => s == t
      | _, _ => v == w

/-- Equality of keys. -/
def sameKey (h : Heap) (v w : Value) : Bool := h.sameKeyWithin h.keyFuel v w

/-- The first of `items` for which `search` answers. -/
def firstAnswer (search : Value → Option String) : List Value → Option String
  | [] => none
  | x :: xs =>
    match search x with
    | some answer => some answer
    | none => firstAnswer search xs

/-- The type name of the part that keeps a value, nested fewer than `fuel` levels, from being a key. -/
def unhashableWithin? (h : Heap) : Nat → Value → Option String
  | 0, _ => none
  | fuel + 1, v =>
    match h.cellOf? v with
    | some (.list _) | some (.set _) | some (.dict _) | some (.orderedDict _) | some (.view _)
    | some (.guarded _ _) => some (h.operandTypeName v)
    | some (.tuple items) => firstAnswer (unhashableWithin? h fuel) items
    | _ => none

/-- The type name of the part that keeps a value from being a key. -/
def unhashable? (h : Heap) (v : Value) : Option String := h.unhashableWithin? h.keyFuel v

/-- The fault of using a value as a key, if it cannot be one. -/
def keyFault? (h : Heap) (v : Value) : Option Fault :=
  (h.unhashable? v).map fun name => .typeMismatch ("unhashable type: '" ++ name ++ "'")

/-- Add an entry at the end; the value of an equal key is replaced, and that key stays. -/
def insertEntry (h : Heap) (entries : List (Value × Value)) (key value : Value) :
    List (Value × Value) :=
  if entries.any fun entry => h.sameKey entry.1 key then
    entries.map fun entry => if h.sameKey entry.1 key then (entry.1, value) else entry
  else
    entries ++ [(key, value)]

/-- Whether a mapping's guard refuses to read a key. -/
def readFault? (h : Heap) (m : Mapping) (key : Value) : Option Fault :=
  match m.guard with
  | some guard =>
    if guard.on = .read ∧ guard.keys.any (h.sameKey key ·) then some guard.fault else none
  | none => none

/-- Every entry of a mapping in order, or the fault of the first one that is refused. -/
def readEntries (h : Heap) (m : Mapping) : Except Fault (List (Value × Value)) :=
  m.entries.mapM fun entry =>
    match h.readFault? m entry.1 with
    | some fault => .error fault
    | none => .ok entry

end Heap

end Conform
