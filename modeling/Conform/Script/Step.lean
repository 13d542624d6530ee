import Conform.Script.Evaluate

namespace Conform.Script

/-!
# Steps

A script is a list of steps over one session.  A step that ends in a problem does not stop the rest, and
keeps what it changed.

* `Operation`, `Answer` — what a step asks for, and what it is answered;
* `perform` — the answer to one operation;
* `step`, `play` — one step, or all steps of a script, each with its journal.
-/

/-- What a step asks for.  A validator explains a value by a function of the library or, if `method`, by
    one of its own. -/
inductive Operation where
  | check (schema value : Expression) (opts : Option Expression)
  | explain (schema value : Expression) (method : Bool)
  | matrix (schemas values : List Expression)
  | build (schema : Expression)
  | canonicalize (value : Expression)
  | render (value : Expression) (limit : Int)
  | describe (path message code : Text)
  | emit (errors : List (Text × Text × Text)) (sink : Expression)
  | options (opts : Expression)
  | settings
  | undefined
  | bind (id : String) (value : Expression)
  | setVariable (name value : String)
  | removeVariable (name : String)
  | writeEnvFile (text : String)
  | clearSettings
  | setLogLevel (name : String)
  | setItem (id : String) (key value : Expression)
  | append (id : String) (value : Expression)
  | setField (id field : String) (value : Expression)
  | setFieldItem (id field : String) (key value : Expression)
  deriving Inhabited

/-- What a step is answered. -/
inductive Answer where
  | verdict (accepted : Bool)
  | explanation (e : Explanation)
  | rows (rows : List String)
  | node (schema : Schema) (shown : Text)
  | canonical (text : Option Text)
  | text (text : Text)
  | line (line : Text)
  | emitted
  | options (options : Options)
  | settings (settings : Settings) (cached : Bool)
  | undefined (shown : Text) (truth accepted : Bool)
  | done
  deriving Inhabited

/-- What a step leaves behind, with the objects of which its problem may speak. -/
structure Outcome where
  result : Except Problem Answer
  journal : Journal
  heap : Heap

/-! ### Parts of operations -/

/-- The schema of a value that is to be called as a validator. -/
def requireSchema (v : Value) : SessionM Schema := do
  let store := (← get).store
  match store.schemaOf? v with
  | some schema => return schema
  | none => throw (.misuse (.notCallable (store.heap.operandTypeName v)))

/-- A failure report with the name of its code. -/
def failureOf (path message code : Text) : SessionM Failure :=
  match FailureCode.ofName? code with
  | some code => return ⟨path, code, message⟩
  | none => throw (.misuse (.failureCode (Text.quoted code)))

/-- The explanation of a verdict.  What is no validator is noticed only after the settings were read. -/
def explainWith (validator v : Value) (method : Bool) : SessionM Explanation := do
  let store := (← get).store
  match store.schemaOf? validator with
  | some schema => explain schema v
  | none =>
    if method then throw (.misuse (missingAttribute store.heap validator "explain"))
    discard readSettings
    throw (.misuse (.unknownNode (store.heap.typeName validator)))

/-- The letter for the verdict of a validator on a value, or for a problem. -/
def cell (validator v : Value) : SessionM Char := do
  match ← SessionM.attempt (call validator v none) with
  | .ok true => return 'T'
  | .ok false => return 'F'
  | .error _ => return 'E'

/-- The letters of a validator for every value. -/
def row (values : List Value) (validator : Value) : SessionM String :=
  return String.ofList (← values.mapM (cell validator))

/-- Refuse what cannot be the name or the value of a variable. -/
def requireVariable (name value : String) : SessionM Unit := do
  if name.contains '\x00' || value.contains '\x00' then throw (.misuse .nulCharacter)
  if name.contains '=' then throw (.misuse .variableName)
  if name.isEmpty then throw (.misuse .emptyVariableName)

/-- Assign to a field of an object.  Validators and options are frozen, and scalars and most containers
    have no fields; where an assignment goes through, nothing looks at the field later. -/
def assignField (object : Value) (field : String) : SessionM Unit := do
  let heap := (← get).store.heap
  match object, heap.cellOf? object with
  | .undefined, _ | _, some (.function _) | _, some (.sink _) | _, some (.stream _)
  | _, some (.foreign _ _ _) | _, some (.guarded _ _) | _, some (.orderedDict _) => pure ()
  | .type t, _ => throw (.misuse (.fixedType t.name field))
  | _, some (.validator _) => throw (.frozen field)
  | _, some (.options _ _) => throw (.invalid [⟨field, .frozen⟩])
  | _, _ => throw (.misuse (missingAttribute heap object field))

/-- Assign to an item of a field of a validator.  What a validator keeps is read-only, but a constant is
    the object of the caller. -/
def assignFieldItem (object : Value) (field : String) (key v : Value) : SessionM Unit := do
  let store := (← get).store
  let missing : Problem := .misuse (missingAttribute store.heap object field)
  match store.heap.cellOf? object, store.schemaOf? object with
  | some (.validator portrait), some schema =>
    match portrait.attributes.lookup field, schema with
    | some (.value part), _ => assignItem part key v
    | some (.text _), _ => throw (.misuse (.readOnly "PrimitiveKind"))
    | none, .literal _ canonical =>
      if field = "canonical" then assignItem (.str canonical) key v else throw missing
    | none, _ => throw missing
  | _, _ => throw missing

/-! ### Operations -/

/-- The value of an expression outside of every `nest`. -/
def eval (e : Expression) : SessionM Value := e.eval .undefined

/-- The answer to an operation. -/
def perform (op : Operation) : SessionM Answer := do
  match op with
  | .check schema value opts =>
    let schema ← eval schema
    let value ← eval value
    let opts ← evalOption .undefined opts
    return .verdict (← call schema value opts)
  | .explain schema value method =>
    let schema ← eval schema
    let value ← eval value
    return .explanation (← explainWith schema value method)
  | .matrix schemas values =>
    let schemas ← evalItems .undefined schemas
    let values ← evalItems .undefined values
    return .rows (← schemas.mapM (row values))
  | .build schema =>
    let v ← eval schema
    let schema ← requireSchema v
    return .node schema (← SessionM.ofBuild (Build.display v))
  | .canonicalize value =>
    let v ← eval value
    return .canonical ((← get).store.heap.canonical? v)
  | .render value limit =>
    let v ← eval value
    return .text ((← get).store.heap.render limit v)
  | .describe path message code => return .line (← failureOf path message code).line
  | .emit errors sink =>
    let failures ← errors.mapM fun (path, message, code) => failureOf path message code
    let sink ← eval sink
    emit failures (if sink = .null then none else some sink)
    return .emitted
  | .options opts =>
    let v ← eval opts
    return .options (← SessionM.ofExcept (Options.coerce (← get).store.heap v))
  | .settings =>
    let settings ← readSettings
    return .settings settings ((← get).loaded == some settings)
  | .undefined =>
    let heap := (← get).store.heap
    let truth ← SessionM.ofExcept ((heap.truth .undefined).mapError .fault)
    return .undefined (heap.safeDisplay .undefined) truth (← run (.primitive .undefined) .undefined .null)
  | .bind id value => bindName id (← eval value); return .done
  | .setVariable name value =>
    requireVariable name value
    modify fun s => { s with environment := s.environment.put name value }
    return .done
  | .removeVariable name =>
    modify fun s => { s with environment := s.environment.erase name }
    return .done
  | .writeEnvFile text => modify fun s => { s with envFile := text }; return .done
  | .clearSettings => modify fun s => { s with loaded := none }; return .done
  | .setLogLevel name =>
    match LogLevel.ofName? name with
    | some level => modify fun s => { s with logLevel := level }; return .done
    | none => throw (.misuse (.logLevel (Text.quoted name)))
  | .setItem id key value =>
    let object ← valueOfName id
    let key ← eval key
    assignItem object key (← eval value)
    return .done
  | .append id value =>
    let list ← valueOfName id
    appendItem list (← eval value)
    return .done
  | .setField id field value =>
    let object ← valueOfName id
    discard (eval value)
    assignField object field
    return .done
  | .setFieldItem id field key value =>
    let object ← valueOfName id
    let key ← eval key
    assignFieldItem object field key (← eval value)
    return .done

/-! ### Scripts -/

/-- One step, with a journal of its own. -/
def step (s : Session) (op : Operation) : Outcome × Session :=
  match perform op { s with journal := .empty } with
  | .ok answer after => (⟨.ok answer, after.journal, after.store.heap⟩, after)
  | .error problem after => (⟨.error problem, after.journal, after.store.heap⟩, after)

/-- The steps of a script, one after the other over the same session. -/
def play (s : Session) : List Operation → List Outcome
  | [] => []
  | op :: ops =>
    let (outcome, after) := step s op
    outcome :: play after ops

end Conform.Script
