import Conform.Json
import Conform.Options
import Conform.Store

namespace Conform

/-!
# Construction

One function for every combinator.  It takes values of any kind, refuses those it has no use for, and
adds a validator to the store.  Children may be validators or plain functions, which become predicates.

* `Build.child` — a value as a child: the validator it is, or a new predicate around it;
* `Build.shape`, `Build.array`, `Build.tuple` — validators of structure;
* `Build.unionMany`, `Build.intersectMany` and what is built on them;
* `Build.taggedUnion` — variants by the value of a tag field, each of which must declare that field.
-/

namespace Build

/-! ### Leaves -/

/-- A validator of one primitive kind. -/
def primitive (kind : PrimitiveKind) : Build Value :=
  addValidator (.primitive kind)
    [("kind", .text ("<PrimitiveKind." ++ kind.capitalName ++ ": " ++ Text.quoted kind.name ++ ">"))]

/-- The node without a rule. -/
def bare : Build Value := addValidator .bare []

/-- Equality with a constant that has a canonical form. -/
def literal (constant : Value) : Build Value := do
  let heap := (← get).heap
  if heap.isCallable constant then refuse (.constant (← display constant))
  match heap.canonical? constant with
  | none => refuse (.unserialisable (← display constant))
  | some canonical => addValidator (.literal constant canonical) [("constant", .value constant)]

/-- A predicate; a name that counts as false is replaced by that of the function. -/
def predicate (function name : Value) : Build Value := do
  let store ← get
  let named ← ofExcept ((store.heap.truth name).mapError .fault)
  match store.testOf? function with
  | none => refuse (.test (← display function))
  | some test =>
    let name := if named then name else .str (store.functionName function)
    addValidator (.predicate test name) [("func", .value function), ("name", .value name)]

/-! ### Children -/

/-- A child with its schema: the validator itself, or a new predicate around a plain function.  `place`
    says where the child stands. -/
def child (place : Text) (v : Value) : Build (Value × Schema) := do
  let store ← get
  match store.schemaOf? v, store.testOf? v with
  | some schema, _ => return (v, schema)
  | none, some test =>
    let name := .str (store.functionName v)
    let made ← addValidator (.predicate test name) [("func", .value v), ("name", .value name)]
    return (made, .predicate test name)
  | none, none => refuse (.child place (← display v))

/-- Apply `step` to the entries of a mapping in order.  Each value is read when its turn comes; an end of
    iteration signalled by the reading would end the walk, and is replaced. -/
def forEntries {α : Type} (m : Mapping) (step : Value → Value → Build α) : Build (List α) :=
  m.entries.mapM fun (key, value) => do
    match (← get).heap.readFault? m key with
    | some fault => throw (.fault fault.throughIteration)
    | none => step key value

/-- Apply `step` to the items of a stream in order, taking each from the stream when its turn comes. -/
def forStream {α : Type} (a : Addr) (step : Nat → Value → Build α) :
    Nat → List Value → Build (List α)
  | _, [] => return []
  | i, item :: items => do
    replace a (.stream items)
    let first ← step i item
    return first :: (← forStream a step (i + 1) items)

/-- Apply `step` to items in order. -/
def forItems {α : Type} (step : Nat → Value → Build α) : Nat → List Value → Build (List α)
  | _, [] => return []
  | i, item :: items => do
    let first ← step i item
    return first :: (← forItems step (i + 1) items)

/-- Apply `step` to the items of a value that can be walked through once: a sequence, a set, a stream, or
    options, which are pairs of a name and a value. -/
def forEach {α : Type} (v : Value) (step : Nat → Value → Build α) : Build (List α) := do
  let heap := (← get).heap
  match v, heap.cellOf? v with
  | _, some (.list items) | _, some (.tuple items) | _, some (.set items)
  | _, some (.frozenSet items) => forItems step 0 items
  | .ref a, some (.stream items) => forStream a step 0 items
  | _, some (.options logFailures sink) => do
    let log ← allocate (.tuple [.str "log_failures", .bool logFailures])
    let sink ← allocate (.tuple [.str "sink", sink])
    forItems step 0 [log, sink]
  | _, _ => refuse (.notIterable (heap.typeName v))

/-! ### Structure -/

/-- The fields of a shape, by name and in order: the children as values and as schemas. -/
def fieldRules (owner : String) (fields : Value) : Build (List (Label × Value × Schema)) := do
  let heap := (← get).heap
  match heap.mapping? fields with
  | none => refuse (.fields owner (heap.typeName fields))
  | some m =>
    forEntries m fun key value => do
      match key.label? with
      | none => refuse (.fieldName owner (← display key))
      | some name =>
        let (made, schema) ← child (owner ++ " field '" ++ name.inline ++ "'") value
        return (name, made, schema)

/-- A read-only mapping of names to validators. -/
def namedView (entries : List (Label × Value)) : Build Value :=
  allocate (.view (entries.map fun (name, v) => (name.toValue, v)))

/-- A shape, with the list of its fields. -/
def shapeWithFields (fields : Value) : Build (Value × List (Label × Schema)) := do
  let rules ← fieldRules "shape" fields
  let view ← namedView (rules.map fun (name, v, _) => (name, v))
  let schemas := rules.map fun (name, _, schema) => (name, schema)
  return (← addValidator (.shape schemas) [("fields", .value view)], schemas)

/-- Mappings whose declared fields all validate. -/
def shape (fields : Value) : Build Value := return (← shapeWithFields fields).1

/-- Lists and tuples whose every element validates. -/
def array (member : Value) : Build Value := do
  let (made, schema) ← child "array member" member
  addValidator (.array schema) [("member", .value made)]

/-- Whether a value is refused as a list of members before its items are looked at: a string, a mapping,
    or a value that cannot be walked through.  Of the types, all but that of integers seem to allow
    it. -/
def refusesMembers (heap : Heap) (v : Value) : Bool :=
  match v, heap.cellOf? v with
  | .type t, _ => t = .int
  | _, some (.list _) | _, some (.tuple _) | _, some (.set _) | _, some (.frozenSet _)
  | _, some (.stream _) | _, some (.options _ _) => false
  | _, _ => true

/-- A member as a child.  It is an iteration that takes the members, and through which a problem passes. -/
def member (owner : String) (i : Nat) (v : Value) : Build (Value × Schema) :=
  (child (owner ++ " member " ++ toString i) v).adaptExcept Problem.throughIteration

/-- The members of a combinator, in order. -/
def members (owner : String) (v : Value) : Build (List (Value × Schema)) := do
  let heap := (← get).heap
  if refusesMembers heap v then refuse (.members owner (heap.typeName v))
  forEach v (member owner)

/-- Add a validator over members. -/
def addWithMembers (node : List Schema → Schema) (children : List (Value × Schema)) :
    Build Value := do
  let items ← allocate (.tuple (children.map Prod.fst))
  addValidator (node (children.map Prod.snd)) [("members", .value items)]

/-- Whether a value has items in an order of their own. -/
def isOrdered (heap : Heap) (v : Value) : Bool :=
  match v with
  | .bytes _ => true
  | _ => v.label?.isSome || (heap.sequence? v).isSome

/-- Lists and tuples of exactly as many items as there are members, checked position by position. -/
def tuple (v : Value) : Build Value := do
  let heap := (← get).heap
  if !isOrdered heap v then refuse (.unordered (heap.typeName v))
  addWithMembers .tuple (← members "tuple" v)

/-! ### Logic -/

/-- Accept if any member accepts. -/
def unionMany (v : Value) : Build Value := do addWithMembers .union (← members "union" v)

/-- Accept if every member accepts. -/
def intersectMany (v : Value) : Build Value := do
  addWithMembers .intersection (← members "intersection" v)

/-- Accept if either side accepts. -/
def union (left right : Value) : Build Value := do unionMany (← allocate (.tuple [left, right]))

/-- Accept if both sides accept. -/
def intersection (left right : Value) : Build Value := do
  intersectMany (← allocate (.tuple [left, right]))

/-- Accept also what is not there. -/
def optional (inner : Value) : Build Value := do union inner (← primitive .undefined)

/-- Accept also null. -/
def nullable (inner : Value) : Build Value := do union inner (← primitive .null)

/-- Whether a value is refused as a list of constants before its items are looked at. -/
def refusesConstants (store : Store) (v : Value) : Bool :=
  match v with
  | .bytes _ => true
  | _ => v.label?.isSome || (store.heap.mapping? v).isSome || (store.schemaOf? v).isSome

/-- Accept any one of several constants. -/
def literals (constants : Value) : Build Value := do
  if refusesConstants (← get) constants then refuse (.constants (← display constants))
  let nodes ← forEach constants fun _ constant => literal constant
  unionMany (← allocate (.list nodes))

/-! ### Dispatch by a tag -/

/-- The shape of a variant, with its fields: the definition itself, or a new shape with the fields that
    it lists. -/
def variantShape (definition : Value) : Build (Value × List (Label × Schema)) := do
  match (← get).schemaOf? definition with
  | some (.shape fields) => return (definition, fields)
  | _ => shapeWithFields definition

/-- A variant must declare the tag field, and a literal there must be the key. -/
def checkTagField (tag key : Label) (fields : List (Label × Schema)) : Build Unit :=
  match fields.find? fun field => field.1.content == tag.content with
  | none => refuse (.variantWithoutTag key.inline tag.inline)
  | some (_, .literal constant canonical) => do
    if (← get).heap.canonical? key.toValue != some canonical then
      refuse (.variantTag key.inline tag.inline (← display constant))
  | some _ => return

/-- The variant of a key. -/
def variant (tag key : Label) (definition : Value) : Build (Label × Value × List (Label × Schema)) := do
  let (made, fields) ← variantShape definition
  checkTagField tag key fields
  return (key, made, fields)

/-- Accept what the one variant selected by the tag accepts. -/
def taggedUnion (tag variants : Value) : Build Value := do
  let heap := (← get).heap
  match tag.label?, heap.mapping? variants with
  | none, _ => refuse (.tag (← display tag))
  | some _, none => refuse (.variants (heap.typeName variants))
  | some tag, some m =>
    let rules ← forEntries m fun key definition => do
      match key.label? with
      | none => refuse (.variantKey (← display key))
      | some key => variant tag key definition
    let view ← namedView (rules.map fun (key, v, _) => (key, v))
    addValidator (.taggedUnion tag (rules.map fun (key, _, fields) => (key, fields)))
      [("tag", .value tag.toValue), ("variants", .value view)]

end Build

end Conform
