import Conform.Key
import Conform.Problem

namespace Conform

/-!
# Options of a call

Whether the failures of a call are written as trace lines, and to which sink.  A caller passes options, a
mapping with their names, or nothing.

* `Options` — the options;
* `Options.ofValue` — a value read as a Boolean;
* `Heap.isCallable` — what can be called, and so may serve as a sink;
* `Options.ofFields` — the options of named values, or every complaint about them;
* `Options.coerce` — the options of what a caller passes.
-/

/-- The options of a call; without a sink, trace lines go to the log. -/
structure Options where
  logFailures : Bool
  sink : Option Value
  deriving DecidableEq, Inhabited

namespace Options

/-- The options of a caller who passes none. -/
def usual : Options := ⟨false, none⟩

/-! ### Fields -/

/-- The words for false and for true, in lower case. -/
def words : List (Text × Bool) :=
  [("0", false), ("off", false), ("f", false), ("false", false), ("n", false), ("no", false),
    ("1", true), ("on", true), ("t", true), ("true", true), ("y", true), ("yes", true)]

/-- A word read as a Boolean, without regard to case. -/
def ofWord (word : Text) : Except Violation Bool :=
  match words.lookup (word.map CodePoint.toLower) with
  | some b => .ok b
  | none => .error .unclearBoolean

/-- The least integer that does not fit into 64 bits with a sign. -/
def wordBound : Int := 0x8000000000000000

/-- An integer read as a Boolean: 0 or 1.  Beyond 64 bits it is not even an unclear one. -/
def ofInteger (n : Int) : Except Violation Bool :=
  if n = 0 then .ok false
  else if n = 1 then .ok true
  else if -wordBound ≤ n ∧ n < wordBound then .error .unclearBoolean
  else .error .notBoolean

/-- A value read as a Boolean.  Of the floats, the least integer of 64 bits is beyond them too.  A string
    with a surrogate is no word. -/
def ofValue : Value → Except Violation Bool
  | .bool b => .ok b
  | .int n => ofInteger n
  | .float x =>
    match x.integral? with
    | some n => if n = -wordBound then .error .notBoolean else ofInteger n
    | none => .error .notBoolean
  | .str s => if s.any CodePoint.isSurrogate then .error .notUnicode else ofWord s
  | .code c => ofWord c.name
  | .bytes bytes => ofWord (bytes.map CodePoint.ofByte)
  | _ => .error .notBoolean

end Options

/-- Whether a value can be called: functions, sinks, validators and types. -/
def Heap.isCallable (h : Heap) (v : Value) : Bool :=
  match v with
  | .type _ | .builtin _ => true
  | .ref a =>
    match h.cell a with
    | .function _ | .sink _ | .validator _ => true
    | _ => false
  | _ => false

namespace Options

/-- A value read as a sink: null, or what can be called. -/
def sinkOf (h : Heap) (v : Value) : Except Violation (Option Value) :=
  match v with
  | .null => .ok none
  | _ => if h.isCallable v then .ok (some v) else .error .notCallable

/-- The two names of the option for trace lines, the one that goes before the other in front. -/
def logNames : List String := ["logFailures", "log_failures"]

/-- The name of the sink. -/
def sinkName : String := "sink"

/-- The options of named values.  Names that are no option are ignored. -/
def ofFields (h : Heap) (fields : Mapping) : Except (List Complaint) Options :=
  let log : Except Complaint Bool :=
    match logNames.find? fun name : String => (fields.find? name).isSome with
    | none => .ok usual.logFailures
    | some name => (ofValue ((fields.find? name).getD .null)).mapError fun v => ⟨name, v⟩
  let sink : Except Complaint (Option Value) :=
    match fields.find? sinkName with
    | none => .ok usual.sink
    | some v => (sinkOf h v).mapError fun violation => ⟨sinkName, violation⟩
  match log, sink with
  | .ok log, .ok sink => .ok ⟨log, sink⟩
  | .error c, .ok _ => .error [c]
  | .ok _, .error d => .error [d]
  | .error c, .error d => .error [c, d]

/-! ### What a caller passes -/

/-- The options of what a caller passes: nothing (null), options, or a mapping, which is read as a
    whole before its names are looked at. -/
def coerce (h : Heap) (opts : Value) : Except Problem Options :=
  match opts, h.cellOf? opts, h.mapping? opts with
  | .null, _, _ => .ok usual
  | _, some (.options log sink), _ => .ok ⟨log, if sink = .null then none else some sink⟩
  | _, _, some m => do
    let entries ← (h.readEntries m).mapError .fault
    (ofFields h ⟨entries, none⟩).mapError .invalid
  | _, _, none => .error (.misuse (.options (h.typeName opts)))

end Options

end Conform
