import Conform.Script.Expression
import Conform.Session

namespace Conform.Script

/-!
# Evaluation of expressions

Parts are evaluated from left to right; the first problem ends the evaluation, and what was allocated or
bound before it stays.

* `Expression.eval` — the value of an expression.
-/

/-- Bind a name. -/
def bindName (id : String) (v : Value) : SessionM Unit :=
  modify fun s => { s with names := (id, v) :: s.names }

/-- The value of a name. -/
def valueOfName (id : String) : SessionM Value := do
  match (← get).names.lookup id with
  | some v => return v
  | none => throw (.fault (.absentKey id))

/-- Add an object. -/
def allocate (c : Cell) : SessionM Value := SessionM.ofBuild (Build.allocate c)

/-- Refuse a value that cannot be a key. -/
def requireKey (v : Value) : SessionM Unit := do
  match (← get).store.heap.keyFault? v with
  | some fault => throw (.fault fault)
  | none => pure ()

/-- The complaint that a value lacks an attribute. -/
def missingAttribute (heap : Heap) (v : Value) (name : String) : Misuse :=
  match v with
  | .type t => .noTypeAttribute t.name name
  | _ => .noAttribute (heap.operandTypeName v) name

/-- Append to a list. -/
def appendItem (list item : Value) : SessionM Unit := do
  let heap := (← get).store.heap
  match list, heap.cellOf? list with
  | .ref a, some (.list items) => SessionM.ofBuild (Build.replace a (.list (items ++ [item])))
  | _, _ => throw (.misuse (missingAttribute heap list "append"))

/-- The place of an index in a sequence; a negative one counts from the end. -/
def placeOf? (length : Nat) (index : Int) : Option Nat :=
  let place := if index < 0 then index + length else index
  if 0 ≤ place ∧ place < length then some place.toNat else none

/-- Assign to an index of a list. -/
def assignToIndex (a : Addr) (items : List Value) (key v : Value) : SessionM Unit := do
  match key.integer? with
  | none =>
    throw (.fault (.typeMismatch
      ("list indices must be integers or slices, not " ++ (← get).store.heap.operandTypeName key)))
  | some index =>
    match placeOf? items.length index with
    | some place => SessionM.ofBuild (Build.replace a (.list (items.set place v)))
    | none => throw (.fault (.badIndex "list assignment index out of range"))

/-- Assign to a key of a dictionary, or to an index of a list. -/
def assignItem (object key v : Value) : SessionM Unit := do
  let heap := (← get).store.heap
  match object, heap.cellOf? object with
  | .ref a, some (.dict entries) => do
    requireKey key
    SessionM.ofBuild (Build.replace a (.dict (heap.insertEntry entries key v)))
  | .ref a, some (.orderedDict entries) => do
    requireKey key
    SessionM.ofBuild (Build.replace a (.orderedDict (heap.insertEntry entries key v)))
  | .ref a, some (.list items) => assignToIndex a items key v
  | _, _ => throw (.misuse (.readOnly (heap.operandTypeName object)))

/-- The items of a set: keys, each held once. -/
def distinctItems (items : List Value) : SessionM (List Value) := do
  items.forM requireKey
  let heap := (← get).store.heap
  return (items.foldl (fun entries item => heap.insertEntry entries item item) []).map Prod.fst

/-- Make a container of items. -/
def makeItems (container : ItemContainer) (items : List Value) : SessionM Value := do
  match container with
  | .list => allocate (.list items)
  | .tuple => allocate (.tuple items)
  | .set => allocate (.set (← distinctItems items))
  | .frozenSet => allocate (.frozenSet (← distinctItems items))

/-- Make a container of entries. -/
def makeEntries (container : EntryContainer) (entries : List (Value × Value)) : SessionM Value :=
  match container with
  | .dict => allocate (.dict entries)
  | .orderedDict => allocate (.orderedDict entries)
  | .view => allocate (.view entries)

/-- Make a function of the caller. -/
def makeFunction (name : Option Text) (raises : Option Fault) (test : Option NamedTest)
    (validates answers : Option Value) : SessionM Value := do
  let origin := Origin.caller name
  let behaviour : Test ←
    match raises, test, validates with
    | some fault, _, _ => pure (.plain origin fun _ _ => .error fault)
    | none, some test, _ => pure (.plain origin test.answer)
    | none, none, some validator => do
      let store := (← get).store
      match store.schemaOf? validator with
      | some schema => pure (.validating name schema)
      | none =>
        let fault := Fault.typeMismatch
          (Misuse.notCallable (store.heap.operandTypeName validator)).message
        pure (.plain origin fun _ _ => .error fault)
    | none, none, none => pure (.plain origin fun _ _ => .ok (answers.getD (.bool true)))
  SessionM.ofBuild (Build.addTest (.function name) fun _ => behaviour)

/-- Make a trace sink.  As a predicate it takes its argument as a line, and answers nothing. -/
def makeSink (raisesAt : List Nat) (fault : Fault) (truth : Except Refusal Bool) : SessionM Value := do
  let v ← SessionM.ofBuild
    (Build.addTest (.sink truth) fun a => .plain (.sink a) fun _ _ => .ok .null)
  modify fun s => { s with sinks := (v.addr?.getD 0, ⟨raisesAt, fault, 0⟩) :: s.sinks }
  return v

/-- Make options of named values. -/
def makeOptions (fields : List (Value × Value)) : SessionM Value := do
  let options ← SessionM.ofExcept
    ((Options.ofFields (← get).store.heap ⟨fields, none⟩).mapError .invalid)
  allocate (.options options.logFailures (options.sink.getD .null))

/-- Apply a combinator. -/
def Combinator.build : Combinator → Value → Build Value
  | .literal => Build.literal
  | .literals => Build.literals
  | .shape => Build.shape
  | .array => Build.array
  | .tuple => Build.tuple
  | .unionMany => Build.unionMany
  | .intersectMany => Build.intersectMany
  | .optional => Build.optional
  | .nullable => Build.nullable

/-- Apply `step` to its own result, `count` times. -/
def iterate (step : Value → SessionM Value) : Nat → Value → SessionM Value
  | 0, v => return v
  | count + 1, v => do iterate step count (← step v)

mutual

/-- The value of an expression, with `hole` standing for a given value. -/
def Expression.eval (hole : Value) (e : Expression) : SessionM Value :=
  match e with
  | .value v => return v
  | .items container items => do makeItems container (← evalItems hole items)
  | .entries container entries => do makeEntries container (← evalEntries hole [] entries)
  | .guarded entries keys on fault => do
    let entries ← evalEntries hole [] entries
    allocate (.guarded entries ⟨← evalItems hole keys, on, fault⟩)
  | .stream items => do allocate (.stream (← evalItems hole items))
  | .foreign className shown truth => allocate (.foreign className shown truth)
  | .function name raises test validates answers => do
    let validates ← evalOption hole validates
    makeFunction name raises test validates (← evalOption hole answers)
  | .sink raisesAt fault truth => makeSink raisesAt fault truth
  | .options fields => do makeOptions (← evalFields hole [] fields)
  | .define id (.items .list items) => do
    let v ← allocate (.list [])
    bindName id v
    fillList hole v items
    return v
  | .define id (.entries .dict entries) => do
    let v ← allocate (.dict [])
    bindName id v
    fillDict hole v entries
    return v
  | .define id body => do
    let v ← body.eval hole
    bindName id v
    return v
  | .name id => valueOfName id
  | .nest count wrap inner => do iterate (fun v => wrap.eval v) count (← inner.eval hole)
  | .hole => return hole
  | .primitive kind => SessionM.ofBuild (Build.primitive kind)
  | .bare => SessionM.ofBuild Build.bare
  | .apply combinator argument => do
    SessionM.ofBuild (combinator.build (← argument.eval hole))
  | .union left right => do
    let left ← left.eval hole
    SessionM.ofBuild (Build.union left (← right.eval hole))
  | .intersection left right => do
    let left ← left.eval hole
    SessionM.ofBuild (Build.intersection left (← right.eval hole))
  | .taggedUnion tag variants => do
    let tag ← tag.eval hole
    SessionM.ofBuild (Build.taggedUnion tag (← variants.eval hole))
  | .predicate function name => do
    let function ← function.eval hole
    SessionM.ofBuild (Build.predicate function ((← evalOption hole name).getD .null))

/-- The values of expressions, in order. -/
def evalItems (hole : Value) (items : List Expression) : SessionM (List Value) :=
  match items with
  | [] => return []
  | item :: rest => do
    let v ← item.eval hole
    return v :: (← evalItems hole rest)

/-- The value of an expression that may be left out. -/
def evalOption (hole : Value) (e : Option Expression) : SessionM (Option Value) :=
  match e with
  | none => return none
  | some e => return some (← e.eval hole)

/-- Entries in order, added to those before them; a later value replaces that of an equal key. -/
def evalEntries (hole : Value) (done : List (Value × Value))
    (entries : List (Expression × Expression)) : SessionM (List (Value × Value)) :=
  match entries with
  | [] => return done
  | (key, value) :: rest => do
    let key ← key.eval hole
    let value ← value.eval hole
    requireKey key
    evalEntries hole ((← get).store.heap.insertEntry done key value) rest

/-- Named values in order, added to those before them. -/
def evalFields (hole : Value) (done : List (Value × Value)) (fields : List (String × Expression)) :
    SessionM (List (Value × Value)) :=
  match fields with
  | [] => return done
  | (name, value) :: rest => do
    let value ← value.eval hole
    evalFields hole ((← get).store.heap.insertEntry done (.str name) value) rest

/-- Append the values of expressions to a list, one by one. -/
def fillList (hole list : Value) (items : List Expression) : SessionM Unit :=
  match items with
  | [] => return ()
  | item :: rest => do
    appendItem list (← item.eval hole)
    fillList hole list rest

/-- Assign entries to a dictionary, one by one. -/
def fillDict (hole dict : Value) (entries : List (Expression × Expression)) : SessionM Unit :=
  match entries with
  | [] => return ()
  | (key, value) :: rest => do
    let key ← key.eval hole
    let value ← value.eval hole
    assignItem dict key value
    fillDict hole dict rest

end

end Conform.Script
