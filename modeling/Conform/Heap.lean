import Conform.Fault
import Conform.Value

namespace Conform

/-!
# Objects by address

The heap holds what a value's address stands for.  Objects are changed in place by item assignment and
by appending; nothing is ever removed.

* `Cell` — an object: its kind and its direct contents;
* `Heap.sequence?`, `Heap.mapping?` — the two views by which a validator looks into a value;
* `Mapping.has`, `Mapping.read` — look-ups, which a guarded mapping may refuse;
* `Heap.typeName`, `Heap.truth` — the name of a value's type, and whether the value counts as true.
-/

/-! ### Cells -/

/-- The two look-ups of a mapping. -/
inductive LookupKind where
  | read
  | has
  deriving DecidableEq, Inhabited

/-- A guard on a mapping: one kind of look-up raises a fault for some of the keys. -/
structure Guard where
  keys : List Value
  on : LookupKind
  fault : Fault
  deriving DecidableEq, Inhabited

/-- One attribute in the portrait of a validator: a fixed text, or a value. -/
inductive Attribute where
  | text (s : Text)
  | value (v : Value)
  deriving DecidableEq, Inhabited

/-- What a validator shows of itself: the name of its class, and its attributes by name. -/
structure Portrait where
  title : String
  attributes : List (String × Attribute)
  deriving DecidableEq, Inhabited

/-- An object.  `view` is a read-only mapping, `guarded` one whose look-ups may raise, `stream` gives
    its items once; a `foreign` object may refuse to be shown, and like a sink it may refuse to be tested
    for truth. -/
inductive Cell where
  | list (items : List Value)
  | tuple (items : List Value)
  | set (items : List Value)
  | frozenSet (items : List Value)
  | dict (entries : List (Value × Value))
  | orderedDict (entries : List (Value × Value))
  | view (entries : List (Value × Value))
  | guarded (entries : List (Value × Value)) (guard : Guard)
  | stream (items : List Value)
  | foreign (className : String) (shown : Except Refusal Text) (truth : Except Refusal Bool)
  | function (name : Option Text)
  | sink (truth : Except Refusal Bool)
  | options (logFailures : Bool) (sink : Value)
  | validator (portrait : Portrait)
  deriving Inhabited

namespace Cell

/-- The name of an object's type. -/
def typeName : Cell → String
  | .list _ => "list"
  | .tuple _ => "tuple"
  | .set _ => "set"
  | .frozenSet _ => "frozenset"
  | .dict _ => "dict"
  | .orderedDict _ => "OrderedDict"
  | .view _ => "mappingproxy"
  | .guarded _ _ => "TrapMap"
  | .stream _ => "generator"
  | .foreign className _ _ => className
  | .function _ => "Fn"
  | .sink _ => "Sink"
  | .options _ _ => "ValidateOptions"
  | .validator portrait => portrait.title

end Cell

/-! ### The heap -/

/-- The objects by address. -/
structure Heap where
  cells : Array Cell
  deriving Inhabited

namespace Heap

/-- The heap without objects. -/
def empty : Heap := ⟨#[]⟩

/-- The object at an address; where nothing was allocated, an object without properties. -/
def cell (h : Heap) (a : Addr) : Cell :=
  h.cells[a]?.getD (.foreign "object" (.ok "<object>") (.ok true))

/-- The address of the next object. -/
def next (h : Heap) : Addr := h.cells.size

/-- Add an object at the address `h.next`. -/
def push (h : Heap) (c : Cell) : Heap := ⟨h.cells.push c⟩

/-- Change an object in place. -/
def set (h : Heap) (a : Addr) (c : Cell) : Heap := ⟨h.cells.setIfInBounds a c⟩

@[simp] theorem next_push (h : Heap) (c : Cell) : (h.push c).next = h.next + 1 := by
  simp [next, push]

@[simp] theorem next_set (h : Heap) (a : Addr) (c : Cell) : (h.set a c).next = h.next := by
  simp [next, set]

/-- A new object is found at the address that was next. -/
@[simp] theorem cell_push_next (h : Heap) (c : Cell) : (h.push c).cell h.next = c := by
  simp [cell, push, next]

/-- A new object changes no other. -/
theorem cell_push_of_lt (h : Heap) (c : Cell) {a : Addr} (ha : a < h.next) :
    (h.push c).cell a = h.cell a := by
  simp only [cell, push, next] at *
  rw [Array.getElem?_push_lt ha, Array.getElem?_eq_getElem ha]

/-- A change in place is found at its address. -/
theorem cell_set_self (h : Heap) (c : Cell) {a : Addr} (ha : a < h.next) :
    (h.set a c).cell a = c := by
  simp only [cell, set, next] at *
  simp [ha]

/-- A change in place touches no other object. -/
theorem cell_set_of_ne (h : Heap) (c : Cell) {a b : Addr} (hab : a ≠ b) :
    (h.set a c).cell b = h.cell b := by
  simp [cell, set, hab]

/-- The object that a value refers to. -/
def cellOf? (h : Heap) (v : Value) : Option Cell := v.addr?.map h.cell

/-! ### Types and truth -/

/-- The name of a value's type. -/
def typeName (h : Heap) : Value → String
  | .undefined => "_Undefined"
  | .null => "NoneType"
  | .bool _ => "bool"
  | .int _ => "int"
  | .float _ => "float"
  | .str _ => "str"
  | .code _ => "FailureCode"
  | .bytes _ => "bytes"
  | .type _ => "type"
  | .builtin _ => "builtin_function_or_method"
  | .ref a => (h.cell a).typeName

/-- The name of a value's type inside a complaint about an operand: with its module where the type is
    not always at hand. -/
def operandTypeName (h : Heap) (v : Value) : String :=
  match h.cellOf? v with
  | some (.orderedDict _) => "collections.OrderedDict"
  | _ => h.typeName v

/-- The number of items of a value that has items. -/
def size? (h : Heap) : Value → Option Nat
  | .str s => some s.length
  | .code c => some c.name.length
  | .bytes bytes => some bytes.length
  | .ref a =>
    match h.cell a with
    | .list items | .tuple items | .set items | .frozenSet items => some items.length
    | .dict entries | .orderedDict entries | .view entries | .guarded entries _ => some entries.length
    | _ => none
  | _ => none

/-- Whether a value counts as true: not `undefined`, `null`, false, zero or empty, unless the object
    itself says so or refuses to answer. -/
def truth (h : Heap) (v : Value) : Except Fault Bool :=
  match v with
  | .undefined | .null => .ok false
  | .bool b => .ok b
  | .int n => .ok (n != 0)
  | .float x => .ok (!x.isZero)
  | .ref a =>
    match h.cell a with
    | .foreign _ _ answer | .sink answer => answer.mapError Subtype.val
    | _ => .ok (h.size? v != some 0)
  | _ => .ok (h.size? v != some 0)

/-! ### Sequences -/

/-- The items of a list or a tuple. -/
def sequence? (h : Heap) (v : Value) : Option (List Value) :=
  match h.cellOf? v with
  | some (.list items) | some (.tuple items) => some items
  | _ => none

end Heap

/-! ### Mappings -/

/-- A mapping: its entries in order, and the guard on its look-ups. -/
structure Mapping where
  entries : List (Value × Value)
  guard : Option Guard
  deriving DecidableEq, Inhabited

/-- The mapping which an object is. -/
def Cell.mapping? : Cell → Option Mapping
  | .dict entries | .orderedDict entries | .view entries => some ⟨entries, none⟩
  | .guarded entries guard => some ⟨entries, some guard⟩
  | _ => none

/-- The mapping which a value is. -/
def Heap.mapping? (h : Heap) (v : Value) : Option Mapping := (h.cellOf? v).bind Cell.mapping?

namespace Mapping

/-- The value stored under a string. -/
def find? (m : Mapping) (key : Text) : Option Value :=
  (m.entries.find? fun entry => entry.1.text? == some key).map Prod.snd

/-- The fault which a look-up of a string raises. -/
def refusal? (m : Mapping) (kind : LookupKind) (key : Text) : Option Fault :=
  match m.guard with
  | some guard =>
    if guard.on = kind ∧ guard.keys.any (·.text? == some key) then some guard.fault else none
  | none => none

/-- Whether the mapping holds a string as a key. -/
def has (m : Mapping) (key : Text) : Except Fault Bool :=
  match m.refusal? .has key with
  | some fault => .error fault
  | none => .ok (m.find? key).isSome

/-- The value stored under a string, which the mapping should hold. -/
def read (m : Mapping) (key : Text) : Except Fault Value :=
  match m.refusal? .read key with
  | some fault => .error fault
  | none =>
    match m.find? key with
    | some v => .ok v
    | none => .error (.absentKey key)

/-- The value stored under a string, with `undefined` for a key that is not there. -/
def readOrUndefined (m : Mapping) (key : Text) : Except Fault Value := do
  if ← m.has key then m.read key else return .undefined

end Mapping

/-! ### Sequences and mappings -/

namespace Heap

variable {heap : Heap} {v : Value}

/-- No object is both a sequence and a mapping. -/
theorem mapping?_of_sequence? {items : List Value} (h : heap.sequence? v = some items) :
    heap.mapping? v = none := by
  rw [sequence?] at h
  rw [mapping?]
  cases hcell : heap.cellOf? v with
  | none => rfl
  | some cell => cases cell <;> simp [hcell, Cell.mapping?] at h ⊢

theorem sequence?_of_mapping? {m : Mapping} (h : heap.mapping? v = some m) :
    heap.sequence? v = none := by
  cases hs : heap.sequence? v with
  | none => rfl
  | some items =>
    rw [mapping?_of_sequence? hs] at h
    cases h

/-- A sequence or a mapping stands behind an address. -/
theorem exists_ref_of_sequence? {items : List Value} (h : heap.sequence? v = some items) :
    ∃ a, v = .ref a := by
  cases v with
  | ref a => exact ⟨a, rfl⟩
  | _ => simp [sequence?, cellOf?, Value.addr?] at h

theorem exists_ref_of_mapping? {m : Mapping} (h : heap.mapping? v = some m) : ∃ a, v = .ref a := by
  cases v with
  | ref a => exact ⟨a, rfl⟩
  | _ => simp [mapping?, cellOf?, Value.addr?] at h

end Heap

end Conform
