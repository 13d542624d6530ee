import Conform.Display
import Conform.Problem
import Conform.Schema

namespace Conform

/-!
# The store

Objects together with what the validators and functions among them stand for.  A schema is a value of its
own: changing an object later changes no schema that was made from it.

* `Store` — the heap, the schemas of the validators and the tests of the functions, by address;
* `Build` — computations that add to the store and may end in a problem, keeping what was added.
-/

/-- Objects, and what the validators and functions among them stand for. -/
structure Store where
  heap : Heap
  schemas : List (Addr × Schema)
  tests : List (Addr × Test)
  deriving Inhabited

namespace Store

/-- The store without objects. -/
def empty : Store := ⟨.empty, [], []⟩

/-- The schema of a validator. -/
def schemaOf? (store : Store) (v : Value) : Option Schema := v.addr?.bind fun a => store.schemas.lookup a

/-- The number of items, or the complaint that there are none to count. -/
def lengthAnswer (h : Heap) (v : Value) : Except Fault Value :=
  match h.size? v with
  | some n => .ok (.int n)
  | none => .error (.typeMismatch ("object of type '" ++ h.operandTypeName v ++ "' has no len()"))

/-- The magnitude of a number, of which the sign bit of a float is all that changes. -/
def magnitudeAnswer (h : Heap) (v : Value) : Except Fault Value :=
  match v.integer?, v with
  | some n, _ => .ok (.int n.natAbs)
  | none, .float x => .ok (.float ⟨x.bits &&& 0x7fffffffffffffff⟩)
  | none, _ =>
    .error (.typeMismatch ("bad operand type for abs(): '" ++ h.operandTypeName v ++ "'"))

/-- The answer of a built-in function. -/
def builtinAnswer : Builtin → Heap → Value → Except Fault Value
  | .len => lengthAnswer
  | .abs => magnitudeAnswer

/-- The test which a value is, if it is a function that may serve as a predicate. -/
def testOf? (store : Store) (v : Value) : Option Test :=
  match v with
  | .builtin f => some (.plain (.builtin f) (builtinAnswer f))
  | _ => v.addr?.bind fun a => store.tests.lookup a

/-- The name of a function: its own, or that of its type. -/
def functionName (store : Store) (v : Value) : Text :=
  match v, store.heap.cellOf? v with
  | .builtin f, _ => f.name
  | _, some (.function (some name)) => name
  | _, _ => store.heap.typeName v

end Store

/-- A computation that adds to the store. -/
abbrev Build := EStateM Problem Store

namespace Build

/-- The computation that ends as a given result does. -/
def ofExcept {α : Type} (result : Except Problem α) : Build α := fun store =>
  match result with
  | .ok a => .ok a store
  | .error problem => .error problem store

/-- The display of a value. -/
def display (v : Value) : Build Text := do
  ofExcept (((← get).heap.display v).mapError .fault)

/-- End in a misuse. -/
def refuse {α : Type} (misuse : Misuse) : Build α := throw (.misuse misuse)

/-- Add an object. -/
def allocate (c : Cell) : Build Value :=
  modifyGet fun store => (.ref store.heap.next, { store with heap := store.heap.push c })

/-- Change an object in place. -/
def replace (a : Addr) (c : Cell) : Build Unit :=
  modify fun store => { store with heap := store.heap.set a c }

/-- Add a validator. -/
def addValidator (schema : Schema) (attributes : List (String × Attribute)) : Build Value := do
  let v ← allocate (.validator ⟨schema.className, attributes⟩)
  modify fun store => { store with schemas := (v.addr?.getD 0, schema) :: store.schemas }
  return v

/-- Add a function of the caller or a sink. -/
def addTest (c : Cell) (test : Addr → Test) : Build Value := do
  let v ← allocate c
  let a := v.addr?.getD 0
  modify fun store => { store with tests := (a, test a) :: store.tests }
  return v

end Build

end Conform
