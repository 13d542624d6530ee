import Mathlib.Logic.Basic
import Conform.Proofs.Independence

namespace Conform

/-!
# The meaning of a schema

What a schema accepts, said without contexts, loops or levels.

* `Accepts` — the meaning, one rule for every kind of node;
* `Schema.cut` — a schema with every node from some depth on replaced by one that rejects;
* `Heap.Calm`, `Heap.RefusesOnly` — a value in which no look-up raises a fault, or only faults of
  some kind;
* `Outcome.Decides` — an outcome is a verdict, which says whether a statement holds;
* `Schema.FaultsShown` — what predicates have against a value when their tests raise faults can be
  shown;
* `Schema.SparesStack` — to show it exhausts no stack;
* `outcome_decides` — with `n` levels left, an evaluation decides the meaning of the schema cut
  at `n`.
-/

/-! ### Acceptance -/

/-- The value stored under a string, with `undefined` for a key that is not there. -/
def Mapping.content (m : Mapping) (key : Text) : Value := (m.find? key).getD .undefined

/-- A schema accepts a value.  `passes` says which tests pass on which values. -/
inductive Accepts (heap : Heap) (passes : Test → Value → Prop) : Schema → Value → Prop where
  | primitive {kind : PrimitiveKind} {v : Value} (h : kind.accepts v = true) :
    Accepts heap passes (.primitive kind) v
  | literal {constant v : Value} {canonical : Text} (h : heap.canonical? v = some canonical) :
    Accepts heap passes (.literal constant canonical) v
  | shape {fields : List (Label × Schema)} {v : Value} {m : Mapping}
    (hm : heap.mapping? v = some m)
    (h : ∀ field ∈ fields, Accepts heap passes field.2 (m.content field.1.content)) :
    Accepts heap passes (.shape fields) v
  | array {member : Schema} {v : Value} {items : List Value} (hs : heap.sequence? v = some items)
    (h : ∀ item ∈ items, Accepts heap passes member item) :
    Accepts heap passes (.array member) v
  | tuple {members : List Schema} {v : Value} {items : List Value}
    (hs : heap.sequence? v = some items) (hlen : items.length = members.length)
    (h : ∀ pair ∈ members.zip items, Accepts heap passes pair.1 pair.2) :
    Accepts heap passes (.tuple members) v
  | union {members : List Schema} {member : Schema} {v : Value} (hm : member ∈ members)
    (h : Accepts heap passes member v) : Accepts heap passes (.union members) v
  | intersection {members : List Schema} {v : Value}
    (h : ∀ member ∈ members, Accepts heap passes member v) :
    Accepts heap passes (.intersection members) v
  | taggedUnion {tag : Label} {variants : List (Label × List (Label × Schema))} {v : Value}
    {m : Mapping} {tagValue : Value} {fields : List (Label × Schema)}
    (hm : heap.mapping? v = some m) (htag : m.find? tag.content = some tagValue)
    (hvariant : variantOf? variants tagValue = some fields)
    (h : ∀ field ∈ fields, Accepts heap passes field.2 (m.content field.1.content)) :
    Accepts heap passes (.taggedUnion tag variants) v
  | predicate {test : Test} {name v : Value} (h : passes test v) :
    Accepts heap passes (.predicate test name) v

section Inversion

variable {heap : Heap} {passes : Test → Value → Prop} {v : Value}

/-- A primitive accepts the values of its kind: a number is an integer or a float, but no Boolean, and a
    failure code is a string. -/
theorem accepts_primitive_iff {kind : PrimitiveKind} :
    Accepts heap passes (.primitive kind) v ↔
      match kind with
      | .undefined => v = .undefined
      | .null => v = .null
      | .boolean => ∃ b, v = .bool b
      | .number => (∃ n, v = .int n) ∨ ∃ x, v = .float x
      | .string => (∃ s, v = .str s) ∨ ∃ c, v = .code c := by
  have hkind : Accepts heap passes (.primitive kind) v ↔ kind.accepts v = true :=
    ⟨fun | .primitive h => h, .primitive⟩
  rw [hkind]
  cases kind <;> cases v <;> simp [PrimitiveKind.accepts]

theorem accepts_shape_iff {fields : List (Label × Schema)} :
    Accepts heap passes (.shape fields) v ↔
      ∃ m, heap.mapping? v = some m ∧
        ∀ field ∈ fields, Accepts heap passes field.2 (m.content field.1.content) :=
  ⟨fun h => by cases h with | shape hm h => exact ⟨_, hm, h⟩, fun ⟨_, hm, h⟩ => .shape hm h⟩

theorem accepts_array_iff {member : Schema} :
    Accepts heap passes (.array member) v ↔
      ∃ items, heap.sequence? v = some items ∧ ∀ item ∈ items, Accepts heap passes member item :=
  ⟨fun h => by cases h with | array hs h => exact ⟨_, hs, h⟩, fun ⟨_, hs, h⟩ => .array hs h⟩

theorem accepts_tuple_iff {members : List Schema} :
    Accepts heap passes (.tuple members) v ↔
      ∃ items, heap.sequence? v = some items ∧ items.length = members.length ∧
        ∀ pair ∈ members.zip items, Accepts heap passes pair.1 pair.2 :=
  ⟨fun h => by cases h with | tuple hs hlen h => exact ⟨_, hs, hlen, h⟩,
    fun ⟨_, hs, hlen, h⟩ => .tuple hs hlen h⟩

theorem accepts_union_iff {members : List Schema} :
    Accepts heap passes (.union members) v ↔ ∃ member ∈ members, Accepts heap passes member v :=
  ⟨fun h => by cases h with | union hm h => exact ⟨_, hm, h⟩, fun ⟨_, hm, h⟩ => .union hm h⟩

theorem accepts_intersection_iff {members : List Schema} :
    Accepts heap passes (.intersection members) v ↔
      ∀ member ∈ members, Accepts heap passes member v :=
  ⟨fun h => by cases h with | intersection h => exact h, .intersection⟩

theorem accepts_taggedUnion_iff {tag : Label} {variants : List (Label × List (Label × Schema))} :
    Accepts heap passes (.taggedUnion tag variants) v ↔
      ∃ m, heap.mapping? v = some m ∧ ∃ tagValue, m.find? tag.content = some tagValue ∧
        ∃ fields, variantOf? variants tagValue = some fields ∧
          ∀ field ∈ fields, Accepts heap passes field.2 (m.content field.1.content) :=
  ⟨fun h => by cases h with | taggedUnion hm ht hv h => exact ⟨_, hm, _, ht, _, hv, h⟩,
    fun ⟨_, hm, _, ht, _, hv, h⟩ => .taggedUnion hm ht hv h⟩

end Inversion

/-! ### Cutting a schema -/

namespace Schema

/-- A node with its children changed. -/
def mapChildren (f : Schema → Schema) : Schema → Schema
  | .shape fields => .shape (fields.map fun field => (field.1, f field.2))
  | .array member => .array (f member)
  | .tuple members => .tuple (members.map f)
  | .union members => .union (members.map f)
  | .intersection members => .intersection (members.map f)
  | .taggedUnion tag variants =>
    .taggedUnion tag
      (variants.map fun variant => (variant.1, variant.2.map fun field => (field.1, f field.2)))
  | leaf => leaf

/-- Every node from depth `n` on is replaced by one that rejects: a union without members.  The
    root has depth 0, and a child is one deeper than its parent; the fields of a variant are
    children of the tagged union. -/
def cut : Nat → Schema → Schema
  | 0, _ => .union []
  | n + 1, schema => schema.mapChildren (cut n)

end Schema

/-- A union without members accepts nothing. -/
theorem not_accepts_cut_zero {heap : Heap} {passes : Test → Value → Prop} {schema : Schema}
    {v : Value} : ¬ Accepts heap passes (schema.cut 0) v := by
  intro h
  obtain ⟨member, hm, -⟩ := accepts_union_iff.mp h
  exact absurd hm List.not_mem_nil

theorem variantOf?_map (f : List (Label × Schema) → List (Label × Schema))
    (variants : List (Label × List (Label × Schema))) (tagValue : Value) :
    variantOf? (variants.map fun variant => (variant.1, f variant.2)) tagValue =
      (variantOf? variants tagValue).map f := by
  cases hkey : tagValue.label? with
  | none => simp [variantOf?, hkey]
  | some key =>
    simp only [variantOf?, hkey, Option.bind_some, List.find?_map, Option.map_map]
    rfl

/-! ### What look-ups raise -/

namespace Mapping

/-- No look-up of a string raises a fault. -/
def Calm (m : Mapping) : Prop := ∀ kind key, m.refusal? kind key = none

/-- Every fault that a look-up of a string raises satisfies a property. -/
def RefusesOnly (p : Fault → Prop) (m : Mapping) : Prop :=
  ∀ kind key fault, m.refusal? kind key = some fault → p fault

variable {m : Mapping}

theorem Calm.refusesOnly (h : m.Calm) (p : Fault → Prop) : m.RefusesOnly p := by
  intro kind key fault hfault
  rw [h kind key] at hfault
  cases hfault

/-! ### Look-ups that return -/

variable {key : Text} {v : Value}

theorem eq_isSome_of_has {found : Bool} (h : m.has key = .ok found) :
    found = (m.find? key).isSome := by
  rw [has] at h
  cases hr : m.refusal? .has key with
  | none => simpa [hr] using h.symm
  | some fault => simp [hr] at h

theorem find?_of_read (h : m.read key = .ok v) : m.find? key = some v := by
  rw [read] at h
  cases hr : m.refusal? .read key with
  | some fault => simp [hr] at h
  | none =>
    cases hf : m.find? key with
    | none => simp [hr, hf] at h
    | some w => simpa [hr, hf] using h

theorem eq_content_of_readOrUndefined (h : m.readOrUndefined key = .ok v) : v = m.content key := by
  rw [readOrUndefined] at h
  rw [content]
  rcases hhas : m.has key with fault | _ | _ <;>
    simp only [hhas, bind, Except.bind, pure, Except.pure] at h
  · cases h
  · have hnone : m.find? key = none := by simpa using eq_isSome_of_has hhas
    cases h
    rw [hnone]
    rfl
  · rw [find?_of_read h]
    rfl

/-! ### Look-ups that raise -/

section Refusals

variable {p : Fault → Prop} {fault : Fault} (h : m.RefusesOnly p)
include h

theorem RefusesOnly.of_has (hf : m.has key = .error fault) : p fault := by
  rw [has] at hf
  cases hr : m.refusal? .has key with
  | none => simp [hr] at hf
  | some raised =>
    obtain rfl : raised = fault := by simpa [hr] using hf
    exact h _ _ _ hr

/-- A key that is there is read, unless the guard refuses it. -/
theorem RefusesOnly.of_read (hhas : m.has key = .ok true) (hf : m.read key = .error fault) :
    p fault := by
  rw [read] at hf
  cases hr : m.refusal? .read key with
  | some raised =>
    obtain rfl : raised = fault := by simpa [hr] using hf
    exact h _ _ _ hr
  | none =>
    obtain ⟨w, hw⟩ := Option.isSome_iff_exists.mp (eq_isSome_of_has hhas).symm
    simp [hr, hw] at hf

theorem RefusesOnly.of_readOrUndefined (hf : m.readOrUndefined key = .error fault) : p fault := by
  rw [readOrUndefined] at hf
  rcases hhas : m.has key with raised | _ | _ <;>
    simp only [hhas, bind, Except.bind, pure, Except.pure] at hf
  · cases hf
    exact h.of_has hhas
  · cases hf
  · exact h.of_read hhas hf

end Refusals

section Calm

variable (h : m.Calm) (key : Text)
include h

theorem Calm.has_eq : m.has key = .ok (m.find? key).isSome := by
  simp [has, h _ _]

theorem Calm.read_eq {v : Value} (hv : m.find? key = some v) : m.read key = .ok v := by
  simp [read, h _ _, hv]

theorem Calm.readOrUndefined_eq : m.readOrUndefined key = .ok (m.content key) := by
  rw [readOrUndefined, h.has_eq, content]
  cases hv : m.find? key with
  | none => rfl
  | some v => exact h.read_eq key hv

end Calm

end Mapping

namespace Heap

/-- An object is reached from a value through items of sequences and entries of mappings. -/
inductive Reaches (heap : Heap) : Value → Value → Prop where
  | refl {v : Value} : Reaches heap v v
  | item {v w x : Value} {items : List Value} (hs : heap.sequence? v = some items) (hw : w ∈ items)
    (hx : Reaches heap w x) : Reaches heap v x
  | entry {v w x key : Value} {m : Mapping} (hm : heap.mapping? v = some m)
    (hw : (key, w) ∈ m.entries) (hx : Reaches heap w x) : Reaches heap v x

/-- Every mapping anywhere in a value has a property. -/
def Throughout (heap : Heap) (q : Mapping → Prop) (v : Value) : Prop :=
  ∀ w m, heap.Reaches v w → heap.mapping? w = some m → q m

/-- No look-up raises a fault, anywhere in a value. -/
def Calm (heap : Heap) (v : Value) : Prop :=
  ∀ w m, heap.Reaches v w → heap.mapping? w = some m → m.Calm

/-- Every fault that a look-up raises, anywhere in a value, satisfies a property. -/
def RefusesOnly (heap : Heap) (p : Fault → Prop) (v : Value) : Prop :=
  heap.Throughout (Mapping.RefusesOnly p) v

variable {heap : Heap} {q : Mapping → Prop} {v : Value}

theorem Throughout.mapping {m : Mapping} (h : heap.Throughout q v) (hm : heap.mapping? v = some m) :
    q m :=
  h v m .refl hm

theorem Throughout.item {items : List Value} {w : Value} (h : heap.Throughout q v)
    (hs : heap.sequence? v = some items) (hw : w ∈ items) : heap.Throughout q w :=
  fun x m hx hm => h x m (.item hs hw hx) hm

/-- What holds throughout a mapping, holds throughout its contents, and throughout what it does
    not hold. -/
theorem Throughout.content {m : Mapping} (h : heap.Throughout q v) (hm : heap.mapping? v = some m)
    (key : Text) : heap.Throughout q (m.content key) := by
  intro x n hx hn
  rw [Mapping.content, Mapping.find?] at hx
  cases he : m.entries.find? fun entry => entry.1.text? == some key with
  | none =>
    simp only [he, Option.map_none, Option.getD_none] at hx
    -- `undefined` is no object: nothing else is reached from it
    cases hx with
    | refl => simp [mapping?, cellOf?, Value.addr?] at hn
    | item hs _ _ => simp [sequence?, cellOf?, Value.addr?] at hs
    | entry hm _ _ => simp [mapping?, cellOf?, Value.addr?] at hm
  | some entry =>
    simp only [he, Option.map_some, Option.getD_some] at hx
    exact h x n (.entry hm (List.mem_of_find?_eq_some he) hx) hn

theorem Calm.mapping {m : Mapping} (h : heap.Calm v) (hm : heap.mapping? v = some m) : m.Calm :=
  Throughout.mapping h hm

theorem Calm.item {items : List Value} {w : Value} (h : heap.Calm v)
    (hs : heap.sequence? v = some items) (hw : w ∈ items) : heap.Calm w :=
  Throughout.item h hs hw

/-- What a mapping holds is calm, and so is what it does not hold. -/
theorem Calm.content {m : Mapping} (h : heap.Calm v) (hm : heap.mapping? v = some m)
    (key : Text) : heap.Calm (m.content key) :=
  Throughout.content h hm key

theorem Calm.refusesOnly (h : heap.Calm v) (p : Fault → Prop) : heap.RefusesOnly p v :=
  fun w m hw hm => (h w m hw hm).refusesOnly p

end Heap

/-- The fault that look-ups of an object may raise. -/
def Cell.refusal? : Cell → Option Fault
  | .guarded _ guard => some guard.fault
  | _ => none

/-- The faults that look-ups raise are those of the guarded mappings among the objects. -/
theorem Heap.refusesOnly_of_cells {heap : Heap} {p : Fault → Prop}
    (h : ∀ cell ∈ heap.cells.toList, ∀ fault, cell.refusal? = some fault → p fault) (v : Value) :
    heap.RefusesOnly p v := by
  intro w m _ hm kind key fault hfault
  obtain ⟨cell, hcell, hm⟩ := Option.bind_eq_some_iff.mp hm
  obtain ⟨a, -, rfl⟩ := Option.map_eq_some_iff.mp hcell
  have hguard : ∀ fault, (heap.cell a).refusal? = some fault → p fault := by
    -- an address without an object reads as an object that is not guarded
    rw [cell]
    cases ha : heap.cells[a]? with
    | none =>
      intro fault hfault
      cases hfault
    | some cell =>
      obtain ⟨hlt, rfl⟩ := Array.getElem?_eq_some_iff.mp ha
      exact h _ (Array.getElem_mem_toList hlt)
  rw [Mapping.refusal?] at hfault
  cases hcell : heap.cell a with
  | guarded entries guard =>
    obtain rfl : ⟨entries, some guard⟩ = m := by simpa [hcell, Cell.mapping?] using hm
    obtain ⟨-, rfl⟩ : _ ∧ guard.fault = fault := by simpa using hfault
    exact hguard _ (by rw [hcell]; rfl)
  | dict entries | orderedDict entries | view entries =>
    obtain rfl : ⟨entries, none⟩ = m := by simpa [hcell, Cell.mapping?] using hm
    cases hfault
  | _ => simp [hcell, Cell.mapping?] at hm

/-- Whether the look-ups of an object may raise a fault. -/
def Cell.isGuarded : Cell → Bool
  | .guarded _ _ => true
  | _ => false

/-- Without guarded mappings, every value is calm. -/
theorem Heap.calm_of_unguarded {heap : Heap}
    (h : ∀ cell ∈ heap.cells.toList, cell.isGuarded = false) (v : Value) : heap.Calm v := by
  have hnone : heap.RefusesOnly (fun _ => False) v := by
    refine refusesOnly_of_cells (fun cell hcell fault hfault => ?_) v
    cases cell with
    | guarded entries guard => exact absurd (h _ hcell) (by simp [Cell.isGuarded])
    | _ => cases hfault
  intro w m hw hm kind key
  exact Option.eq_none_iff_forall_ne_some.mpr fun fault hf => hnone w m hw hm kind key fault hf

/-! ### Outcomes that decide a statement -/

namespace Outcome

/-- The verdict of an outcome, if it has one, says whether a statement holds. -/
def Decides (o : Outcome Bool) (p : Prop) : Prop :=
  ∀ verdict, o.result = .ok verdict → (verdict = true ↔ p)

variable {α : Type} {o o' : Outcome Bool} {p q : Prop}

theorem Decides.congr (h : o.Decides p) (hpq : p ↔ q) : o.Decides q :=
  fun verdict hv => (h verdict hv).trans hpq

theorem Decides.of_result {verdict : Bool} (h : o.result = .ok verdict) :
    o.Decides (verdict = true) := by
  intro verdict' hv
  rw [h] at hv
  cases hv
  exact Iff.rfl

theorem Decides.of_error {fault : Fault} (h : o.result = .error fault) : o.Decides p := by
  intro verdict hv
  rw [h] at hv
  cases hv

theorem refusal_decides (scope : Scope) (cause : Cause) : (refusal scope cause).Decides False :=
  (Decides.of_result rfl).congr (by simp)

theorem Decides.below (h : o.Decides p) (trail : List Segment) : (o.below trail).Decides p := h

theorem Decides.mapFault (h : o.Decides p) (change : Fault → Fault) :
    (o.mapFault change).Decides p := by
  intro verdict hv
  apply h
  rw [Outcome.mapFault] at hv
  cases hr : o.result with
  | error fault => simp [hr] at hv
  | ok found => simpa [hr] using hv

theorem Decides.tentative (h : o.Decides p) : o.tentative.Decides p := by
  intro verdict hv
  apply h
  rcases hr : o.result with fault | _ | _ <;> simpa only [Outcome.tentative, hr] using hv

theorem Decides.orElse (h : o.Decides p) (h' : o'.Decides q) : (o.orElse o').Decides (p ∨ q) := by
  rcases hr : o.result with fault | _ | _
  · rw [orElse_of_error o' hr]
    exact .of_error hr
  · have hp : ¬ p := by simpa using h false hr
    rw [orElse_of_false o' hr]
    exact Decides.congr h' (by simp [hp])
  · have hp : p := by simpa using h true hr
    rw [orElse_of_true o' hr]
    exact h.congr (by simp [hp])

theorem Decides.andThen (h : o.Decides p) (h' : o'.Decides q) : (o.andThen o').Decides (p ∧ q) := by
  rcases hr : o.result with fault | _ | _
  · rw [andThen_of_error o' hr]
    exact .of_error hr
  · have hp : ¬ p := by simpa using h false hr
    rw [andThen_of_false o' hr]
    exact h.congr (by simp [hp])
  · have hp : p := by simpa using h true hr
    rw [andThen_of_true o' hr]
    exact Decides.congr h' (by simp [hp])

variable {check : α → Outcome Bool} {holds : α → Prop} {l : List α}

theorem allOf_decides (h : ∀ a ∈ l, (check a).Decides (holds a)) :
    (allOf check l).Decides (∀ a ∈ l, holds a) := by
  induction l with
  | nil => exact (Decides.of_result rfl).congr (by simp)
  | cons a rest ih =>
    have hrest := ih fun b hb => h b (List.mem_cons_of_mem a hb)
    exact ((h a List.mem_cons_self).andThen hrest).congr (by simp)

theorem anyOf_decides (h : ∀ a ∈ l, (check a).Decides (holds a)) :
    (anyOf check l).Decides (∃ a ∈ l, holds a) := by
  induction l with
  | nil => exact (Decides.of_result rfl).congr (by simp)
  | cons a rest ih =>
    have hrest := ih fun b hb => h b (List.mem_cons_of_mem a hb)
    exact ((h a List.mem_cons_self).orElse hrest).congr (by simp)

/-- Checks to the end decide whether all of them accept. -/
theorem each_decides (h : ∀ a ∈ l, (check a).Decides (holds a)) {verdicts : List Bool}
    (hr : (each check l).result = .ok verdicts) :
    verdicts.all id = true ↔ ∀ a ∈ l, holds a := by
  obtain ⟨hverdicts, -⟩ := each_of_ok hr
  rw [List.all_eq_true]
  constructor
  · intro hall a ha
    obtain ⟨verdict, hv, hresult⟩ := exists_verdict_of_mem hverdicts ha
    exact (h a ha verdict hresult).mp (hall verdict hv)
  · intro hall verdict hv
    obtain ⟨a, ha, hresult⟩ := exists_mem_of_verdict hverdicts hv
    exact (h a ha verdict hresult).mpr (hall a ha)

end Outcome

/-! ### What tests do -/

/-- A test passes on a value: its call answers something that counts as true. -/
def Scope.passes (scope : Scope) (test : Test) (w : Value) : Prop :=
  ∃ ctx, callTest scope test w Context.initial = .ok true ctx

/-- A test raises a fault on a value. -/
def Scope.raises (scope : Scope) (test : Test) (w : Value) (fault : Fault) : Prop :=
  ∃ ctx, callTest scope test w Context.initial = .error fault ctx

theorem Test.passes_iff {scope : Scope} {test : Test} {w : Value} :
    scope.passes test w ↔ (test.outcome scope w).result = .ok true := by
  rw [Scope.passes, Test.outcome]
  cases callTest scope test w Context.initial <;> simp

theorem Test.raises_iff {scope : Scope} {test : Test} {w : Value} {fault : Fault} :
    scope.raises test w fault ↔ (test.outcome scope w).result = .error fault := by
  rw [Scope.raises, Test.outcome]
  cases callTest scope test w Context.initial <;> simp

/-- A function of the caller raises what its answer does, or the question whether that counts as true. -/
theorem Test.raises_plain_iff {scope : Scope} {origin : Origin}
    {answer : Heap → Value → Except Fault Value} {w : Value} {fault : Fault} :
    scope.raises (.plain origin answer) w fault ↔
      answer scope.heap w >>= scope.heap.truth = .error fault := by
  rw [raises_iff, outcome_plain]

/-- A function of the caller that answers Booleans raises nothing. -/
theorem Test.not_raises_of_bool {scope : Scope} {origin : Origin} (accepts : Heap → Value → Bool)
    (w : Value) (fault : Fault) :
    ¬ scope.raises (.plain origin fun heap w => .ok (.bool (accepts heap w))) w fault := by
  rw [raises_plain_iff]
  exact nofun

/-! ### Faults that can be shown -/

/-- Whatever fault the test of a predicate raises, unless it is fatal, it can be shown what the predicate
    has against the value. -/
def Scope.Shows (scope : Scope) (test : Test) (name : Value) : Prop :=
  ∀ w fault, scope.raises test w fault → fault.isFatal = false →
    ∃ cause, scope.heap.raisedCause name fault = .ok cause

/-- The faults of every test can be shown, unless they are fatal. -/
def Schema.FaultsShown (scope : Scope) (schema : Schema) : Prop := schema.EveryTest scope.Shows

/-- A fault can be shown if the name of the predicate is a string and the fault has a text. -/
theorem Scope.shows_of_texts {scope : Scope} {test : Test} {name : Value} (hname : name.label?.isSome)
    (htexts : ∀ w fault, scope.raises test w fault → fault.isFatal = false →
      ∃ text, scope.heap.faultText fault = .ok text) : scope.Shows test name := by
  intro w fault hraises hfatal
  obtain ⟨label, hlabel⟩ := Option.isSome_iff_exists.mp hname
  obtain ⟨text, htext⟩ := htexts w fault hraises hfatal
  exact ⟨_, Heap.raisedCause_of_label hlabel htext⟩

theorem Scope.shows_of_returns {scope : Scope} {test : Test} {name : Value}
    (h : ∀ w fault, ¬ scope.raises test w fault) : scope.Shows test name :=
  fun w fault hraises => absurd hraises (h w fault)

theorem Scope.shows_plain {scope : Scope} {origin : Origin}
    {answer : Heap → Value → Except Fault Value} {name : Value}
    (h : ∀ w fault, answer scope.heap w >>= scope.heap.truth = .error fault →
      fault.isFatal = false → ∃ cause, scope.heap.raisedCause name fault = .ok cause) :
    scope.Shows (.plain origin answer) name := fun w fault hraises =>
  h w fault (Test.raises_plain_iff.mp hraises)

/-- Faults can be shown if predicates have strings for names, and the faults of their tests have texts. -/
theorem Schema.FaultsShown.of_texts {scope : Scope} {schema : Schema} (hnames : schema.NamesAreStrings)
    (htexts : schema.EveryTest fun test _ => ∀ w fault, scope.raises test w fault →
      fault.isFatal = false → ∃ text, scope.heap.faultText fault = .ok text) :
    schema.FaultsShown scope := fun test name ht =>
  Scope.shows_of_texts (hnames test name ht) (htexts test name ht)

/-- To show what a predicate has against a value may fail after a fault of its test, but it exhausts no
    stack. -/
def Scope.SparesStack (scope : Scope) (test : Test) (name : Value) : Prop :=
  ∀ w raised fault, scope.raises test w raised → raised.isFatal = false →
    scope.heap.raisedCause name raised = .error fault → fault.kind ≠ .exhausted

/-- To show the faults of tests exhausts no stack. -/
def Schema.SparesStack (scope : Scope) (schema : Schema) : Prop := schema.EveryTest scope.SparesStack

/-- What can be shown spares the stack. -/
theorem Schema.FaultsShown.sparesStack {scope : Scope} {schema : Schema} (h : schema.FaultsShown scope) :
    schema.SparesStack scope := by
  intro test name ht w raised fault hraises hfatal hfault
  obtain ⟨cause, hcause⟩ := h test name ht w raised hraises hfatal
  cases hcause.symm.trans hfault

/-! ### Evaluations decide the meaning -/

section Decisions

variable (scope : Scope) {judge : Schema → Value → Outcome Bool}

theorem part_decides {part : Part} {w : Value} {p : Prop} (hw : part.content = .ok w)
    (h : (judge part.rule w).Decides p) : (part.outcome scope judge).Decides p := by
  rw [Part.outcome, hw, Outcome.ofExcept_ok_bind]
  exact ((h.orElse (Outcome.refusal_decides scope _)).below _).congr (by simp)

theorem fieldParts_decide (q : Schema → Value → Prop) {m : Mapping}
    {fields : List (Label × Schema)} (hm : m.Calm)
    (h : ∀ field ∈ fields, ∀ key,
      (judge field.2 (m.content key)).Decides (q field.2 (m.content key))) :
    (Outcome.allOf (Part.outcome scope judge) (fieldParts m fields)).Decides
      (∀ field ∈ fields, q field.2 (m.content field.1.content)) := by
  have hparts : ∀ part ∈ fieldParts m fields,
      (part.outcome scope judge).Decides (∀ w, part.content = .ok w → q part.rule w) := by
    intro part hpart
    obtain ⟨field, hf, rfl⟩ := List.mem_map.mp hpart
    have hcontent := hm.readOrUndefined_eq field.1.content
    exact (part_decides scope hcontent (h field hf _)).congr (by simp [hcontent])
  refine (Outcome.allOf_decides hparts).congr ?_
  rw [fieldParts, List.forall_mem_map]
  simp [hm.readOrUndefined_eq]

theorem itemParts_decide (q : Schema → Value → Prop) (rule : SequenceRule) (i : Nat)
    (items : List (Schema × Value))
    (h : ∀ item ∈ items, (judge item.1 item.2).Decides (q item.1 item.2)) :
    (Outcome.allOf (Part.outcome scope judge) (itemParts rule i items)).Decides
      (∀ item ∈ items, q item.1 item.2) := by
  have hitems : (items.zipIdx i).map Prod.fst = items := List.zipIdx_map_fst i items
  have hparts : ∀ part ∈ itemParts rule i items,
      (part.outcome scope judge).Decides (∀ w, part.content = .ok w → q part.rule w) := by
    intro part hpart
    obtain ⟨item, hi, rfl⟩ := List.mem_map.mp hpart
    have hmem : item.1 ∈ items := by
      rw [← hitems]
      exact List.mem_map_of_mem hi
    exact (part_decides scope rfl (h item.1 hmem)).congr (by simp)
  refine (Outcome.allOf_decides hparts).congr ?_
  rw [itemParts, List.forall_mem_map, ← hitems, List.forall_mem_map, hitems]
  simp

theorem call_decides (test : Test) (name v : Value) :
    ((Plan.call test name).outcome scope judge v).Decides (scope.passes test v) := by
  show ((test.outcome scope v).recover (faultOutcome scope name)).Decides _
  rw [Test.passes_iff]
  intro verdict hv
  cases hr : (test.outcome scope v).result with
  | ok found =>
    simp only [Outcome.recover, hr, Except.ok.injEq] at hv ⊢
    rw [hv]
  | error fault =>
    have hne := faultOutcome_result_ne scope name fault
    simp only [Outcome.recover, hr, Outcome.after] at hv
    rw [hv] at hne
    simpa using hne

/-- The plan for a tag in a calm mapping. -/
theorem tagPlan_eq {tag : Label} {variants : List (Label × List (Label × Schema))} {m : Mapping}
    (hm : m.Calm) :
    tagPlan tag variants m =
      match m.find? tag.content with
      | none => .refuse (.noTag tag)
      | some tagValue => variantPlan tag variants m tagValue := by
  rw [tagPlan, hm.has_eq]
  cases htag : m.find? tag.content with
  | none => rfl
  | some tagValue => simp only [Option.isSome_some, hm.read_eq _ htag]

theorem tagPlan_decides (q : Schema → Value → Prop) (tag : Label)
    {variants : List (Label × List (Label × Schema))} {m : Mapping} (v : Value) (hm : m.Calm)
    (h : ∀ variant ∈ variants, ∀ field ∈ variant.2, ∀ key,
      (judge field.2 (m.content key)).Decides (q field.2 (m.content key))) :
    ((tagPlan tag variants m).outcome scope judge v).Decides
      (∃ tagValue, m.find? tag.content = some tagValue ∧
        ∃ fields, variantOf? variants tagValue = some fields ∧
          ∀ field ∈ fields, q field.2 (m.content field.1.content)) := by
  rw [tagPlan_eq hm]
  cases htag : m.find? tag.content with
  | none => exact (Outcome.refusal_decides scope _).congr (by simp)
  | some tagValue =>
    simp only [variantPlan]
    cases hvariant : variantOf? variants tagValue with
    | none => exact (Outcome.refusal_decides scope _).congr (by simp [hvariant])
    | some fields =>
      obtain ⟨variant, hv, rfl⟩ := exists_of_variantOf? hvariant
      exact (fieldParts_decide scope q hm (h variant hv)).congr (by simp [hvariant])

/-- One level: the plan of a node decides what the node accepts, if its children decide what
    they accept. -/
theorem plan_decides {schema : Schema} {v : Value} {f : Schema → Schema}
    (hcalm : scope.heap.Calm v)
    (h : ∀ child ∈ schema.children, ∀ w, scope.heap.Calm w →
      (judge child w).Decides (Accepts scope.heap scope.passes (f child) w)) :
    ((schema.plan scope.heap v).outcome scope judge v).Decides
      (Accepts scope.heap scope.passes (schema.mapChildren f) v) := by
  -- what the walks through children need is one statement about a child and a value
  let q child w := Accepts scope.heap scope.passes (f child) w
  cases schema with
  | primitive kind =>
    refine (Outcome.Decides.of_result rfl).congr ⟨.primitive, fun h => ?_⟩
    cases h with | primitive h => exact h
  | literal constant canonical =>
    refine (Outcome.Decides.of_result rfl).congr ⟨fun h => .literal (by simpa using h), fun h => ?_⟩
    cases h with | literal h => simpa using h
  | shape fields =>
    rw [Schema.plan, Schema.mapChildren, accepts_shape_iff]
    cases hm : scope.heap.mapping? v with
    | none => exact (Outcome.refusal_decides scope _).congr (by simp)
    | some m =>
      have hfields := fieldParts_decide scope q (hcalm.mapping hm) fun field hf key =>
        h field.2 (List.mem_map_of_mem hf) _ (hcalm.content hm key)
      exact hfields.congr (by
        simp only [q, Option.some.injEq, exists_eq_left', List.forall_mem_map])
  | array member =>
    rw [Schema.plan, Schema.mapChildren, accepts_array_iff]
    cases hs : scope.heap.sequence? v with
    | none => exact (Outcome.refusal_decides scope _).congr (by simp)
    | some items =>
      have hitems := itemParts_decide scope q .array 0 (items.map fun item => (member, item))
        (List.forall_mem_map.mpr fun item hi => h member List.mem_cons_self item (hcalm.item hs hi))
      exact hitems.congr (by simp [q])
  | tuple members =>
    rw [Schema.plan, Schema.mapChildren, accepts_tuple_iff]
    cases hs : scope.heap.sequence? v with
    | none => exact (Outcome.refusal_decides scope _).congr (by simp)
    | some items =>
      by_cases hlen : items.length = members.length
      · have hitems := itemParts_decide scope q .tuple 0 (members.zip items)
          fun item hi =>
            h item.1 (List.of_mem_zip hi).1 item.2 (hcalm.item hs (List.of_mem_zip hi).2)
        simp only [hlen, if_true]
        exact hitems.congr (by
          simp only [q, Option.some.injEq, exists_eq_left', hlen, List.length_map, true_and,
            List.zip_map_left, List.forall_mem_map, Prod.map_fst, Prod.map_snd, id])
      · simp only [hlen, if_false]
        exact (Outcome.refusal_decides scope _).congr (by simp [hlen])
  | union members =>
    rw [Schema.plan, Schema.mapChildren, accepts_union_iff]
    -- neither a trial nor a change of faults has a say in a verdict
    have hany := Outcome.anyOf_decides (l := members) fun member hm => h member hm v hcalm
    exact (((hany.mapFault _).tentative).orElse (Outcome.refusal_decides scope _)).congr (by simp)
  | intersection members =>
    rw [Schema.plan, Schema.mapChildren, accepts_intersection_iff]
    show (Outcome.each (judge · v) members >>= _).Decides _
    cases hr : (Outcome.each (judge · v) members).result with
    | error fault =>
      -- a fault of a member is no verdict, so there is nothing to decide
      rw [Outcome.bind_of_error hr]
      exact .of_error rfl
    | ok verdicts =>
      have hall := Outcome.each_decides (l := members) (fun member hm => h member hm v hcalm) hr
      rw [Outcome.bind_of_ok hr, List.forall_mem_map, ← hall]
      cases verdicts.all id with
      | true => exact (Outcome.Decides.of_result rfl)
      | false => exact (Outcome.Decides.of_result rfl)
  | taggedUnion tag variants =>
    rw [Schema.plan, Schema.mapChildren, accepts_taggedUnion_iff]
    cases hm : scope.heap.mapping? v with
    | none => exact (Outcome.refusal_decides scope _).congr (by simp)
    | some m =>
      have htag := tagPlan_decides scope q tag v (hcalm.mapping hm)
        fun variant hv field hf key =>
          h field.2 (Schema.mem_children_taggedUnion hv hf) _ (hcalm.content hm key)
      exact htag.congr (by
        simp only [q, Option.some.injEq, exists_eq_left', variantOf?_map, Option.map_eq_some_iff,
          exists_exists_and_eq_and, List.forall_mem_map])
  | predicate test name =>
    refine (call_decides scope test name v).congr ⟨.predicate, fun h => ?_⟩
    cases h with | predicate h => exact h
  | bare =>
    -- a node without a rule raises a fault, and accepts nothing
    exact .of_error rfl

/-- With `levels` levels left, an evaluation decides the meaning of the schema cut at that
    depth. -/
theorem outcome_decides (levels : Nat) (schema : Schema) {v : Value} (hcalm : scope.heap.Calm v) :
    (schema.outcome scope levels v).Decides
      (Accepts scope.heap scope.passes (schema.cut levels) v) := by
  induction levels generalizing schema v with
  | zero => exact (Outcome.refusal_decides scope _).congr (by simp [not_accepts_cut_zero])
  | succ levels ih => exact plan_decides scope hcalm fun child _ w hw => ih child hw

end Decisions

end Conform
