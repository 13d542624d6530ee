import Conform.Context

namespace Conform

/-!
# Evaluation

The acceptance rule of every validator.  Rules are applied in the order of the declaration: a union stops
at the first member that accepts, fields, elements and positions at the first that rejects, and every
member of an intersection is evaluated, so that the trace does not depend on their order.

* `evaluate` — a schema on a value, in a context;
* `evaluateRoot` — a top-level call: the verdict or fault, and the context it leaves.
-/

/-! ### Reports of single rules -/

/-- Check the item at an index, and report its rejection. -/
def checkItem (scope : Scope) (rule : SequenceRule) (i : Nat) (item : Value) (check : Eval Bool) :
    Eval Bool :=
  within (.index i) do
    if ← check then return true else refuse scope (.element rule item)

/-- Check the items from index `i` on, up to the first rejection. -/
def checkItems (scope : Scope) (check : Value → Eval Bool) : Nat → List Value → Eval Bool
  | _, [] => return true
  | i, item :: items => do
    if ← checkItem scope .array i item (check item) then checkItems scope check (i + 1) items
    else return false

/-- Check the value of a field, and report its rejection. -/
def checkField (scope : Scope) (name : Label) (member : Value) (check : Eval Bool) : Eval Bool :=
  within (.field name) do
    if ← check then return true else refuse scope (.field name member)

/-- What a predicate with a given name has against a value on which its test raises a fault.  The name
    stands inside the sentence, and so does the text of the fault; to show either may fail in turn. -/
def Heap.raisedCause (heap : Heap) (name : Value) (fault : Fault) : Except Fault Cause := do
  return .raised (← heap.inline name) fault.kind.name (← heap.faultText fault)

/-- Report the fault of a test. -/
def refuseFault (scope : Scope) (name : Value) (fault : Fault) : Eval Bool := do
  if scope.collect then refuse scope (← Eval.ofExcept (scope.heap.raisedCause name fault))
  else return false

/-- Run the test of a predicate; a fault counts as rejection unless it is fatal. -/
def checkTest (scope : Scope) (name : Value) (check : Eval Bool) : Eval Bool :=
  recover check fun fault => if fault.isFatal then throw fault else refuseFault scope name fault

/-! ### The rules -/

mutual

/-- Evaluate a schema on a value. -/
def evaluate (scope : Scope) (schema : Schema) (v : Value) : Eval Bool :=
  guarded scope <|
    match schema with
    | .primitive kind => return kind.accepts v
    | .literal _ canonical => return scope.heap.canonical? v == some canonical
    | .shape fields =>
      match scope.heap.mapping? v with
      | none => refuse scope (.noObject v)
      | some m => evaluateFields scope fields m
    | .array member =>
      match scope.heap.sequence? v with
      | none => refuse scope (.noSequence .array v)
      | some items => checkItems scope (evaluate scope member) 0 items
    | .tuple members =>
      match scope.heap.sequence? v with
      | none => refuse scope (.noSequence .tuple v)
      | some items =>
        if items.length = members.length then evaluatePositions scope members 0 items
        else refuse scope (.wrongLength members.length items.length)
    | .union members => do
      let (found, rejections) ← scratch (mapFault Fault.throughIteration (evaluateAny scope members v))
      if found then return true
      else do
        addRejections rejections
        refuse scope (.noMember members.length v)
    | .intersection members => do
      let verdicts ← evaluateEach scope members v
      if verdicts.all id then return true else refuse scope (.someMember verdicts v)
    | .taggedUnion tag variants =>
      match scope.heap.mapping? v with
      | none => refuse scope (.noTag tag)
      | some m => do
        if ← Eval.ofExcept (m.has tag.content) then
          let tagValue ← Eval.ofExcept (m.read tag.content)
          match tagValue.label? with
          | none => refuse scope (.noVariant tag tagValue)
          | some key => evaluateVariant scope tag variants key m
        else refuse scope (.noTag tag)
    | .predicate test name => checkTest scope name (callTest scope test v)
    | .bare => throw (.typeMismatch "Unknown validator node: Validator")

/-- Check the declared fields of a mapping; a key that is not there is checked as `undefined`. -/
def evaluateFields (scope : Scope) (fields : List (Label × Schema)) (m : Mapping) : Eval Bool :=
  match fields with
  | [] => return true
  | (name, rule) :: rest => do
    let member ← Eval.ofExcept (m.readOrUndefined name.content)
    if ← checkField scope name member (evaluate scope rule member) then evaluateFields scope rest m
    else return false

/-- Check each item against the member at its position, from index `i` on. -/
def evaluatePositions (scope : Scope) (members : List Schema) (i : Nat) (items : List Value) :
    Eval Bool :=
  match members, items with
  | member :: members, item :: items => do
    if ← checkItem scope .tuple i item (evaluate scope member item) then
      evaluatePositions scope members (i + 1) items
    else return false
  | _, _ => return true

/-- Evaluate members up to the first that accepts. -/
def evaluateAny (scope : Scope) (members : List Schema) (v : Value) : Eval Bool :=
  match members with
  | [] => return false
  | member :: rest => do
    if ← evaluate scope member v then return true else evaluateAny scope rest v

/-- Evaluate every member. -/
def evaluateEach (scope : Scope) (members : List Schema) (v : Value) : Eval (List Bool) :=
  match members with
  | [] => return []
  | member :: rest => do
    let verdict ← evaluate scope member v
    return verdict :: (← evaluateEach scope rest v)

/-- Check the fields of the variant with a given key. -/
def evaluateVariant (scope : Scope) (tag : Label)
    (variants : List (Label × List (Label × Schema))) (key : Label) (m : Mapping) : Eval Bool :=
  match variants with
  | [] => refuse scope (.noVariant tag key.toValue)
  | (name, fields) :: rest =>
    if name.content = key.content then evaluateFields scope fields m
    else evaluateVariant scope tag rest key m

/-- Call a test, and ask whether its answer counts as true.  A validator is applied as a top-level call
    that collects nothing.  It inherits the limits of the caller instead of reading the settings: these
    limits are the settings that are kept, which no test can clear, as a test is given the heap and does
    not change it. -/
def callTest (scope : Scope) (test : Test) (v : Value) : Eval Bool :=
  match test with
  | .plain origin answer => do
    recordCall (.plain origin answer) v
    let result ← Eval.ofExcept (answer scope.heap v)
    Eval.ofExcept (scope.heap.truth result)
  | .validating name schema => do
    recordCall (.validating name schema) v
    afresh (fromRoot { scope with collect := false }
      (evaluate { scope with collect := false } schema v))

end

/-- A top-level call. -/
def evaluateRoot (scope : Scope) (schema : Schema) (v : Value) : EStateM.Result Fault Context Bool :=
  fromRoot scope (evaluate scope schema v) Context.initial

end Conform
