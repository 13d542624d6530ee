import Mathlib.Logic.Relation
import Conform.Proofs.Coherence
import Conform.Proofs.Steps
import Conform.Script.Evaluate

namespace Conform.Script

open Relation SessionM

/-!
# What a step does to the store

Whatever a step over a session asks for, it changes the store by single actions: it adds an object, changes
an item or an entry of one, sets the tests of functions, or applies a combinator.  So what these actions
keep is kept by every step.

* `IsCombination`, `Action` — the combinators, and the single actions;
* `Action.evolves`, `Action.coherent` — what every action keeps;
* `OrderlyAt`, `Orderly` — a regular step that changes the store by actions alone, with one rule for every
  way to put steps together;
* `judge_orderly`, `call_orderly`, `explain_orderly` — top-level calls are such steps.
-/

variable {α β γ : Type}

/-! ### Single actions -/

/-- The constructions that an expression may ask for. -/
inductive IsCombination : Build Value → Prop where
  | primitive (kind : PrimitiveKind) : IsCombination (Build.primitive kind)
  | bare : IsCombination Build.bare
  | apply (combinator : Combinator) (v : Value) : IsCombination (combinator.build v)
  | union (left right : Value) : IsCombination (Build.union left right)
  | intersection (left right : Value) : IsCombination (Build.intersection left right)
  | taggedUnion (tag variants : Value) : IsCombination (Build.taggedUnion tag variants)
  | predicate (function name : Value) : IsCombination (Build.predicate function name)

/-- The store after a construction, whether it has a result or not. -/
def storeAfter (body : Build α) (s : Store) : Store :=
  match body s with
  | .ok _ t => t
  | .error _ t => t

/-- An object that is no validator, and has distinct keys if it is a mapping. -/
structure Plain (c : Cell) : Prop where
  noValidator : ∀ portrait, c ≠ .validator portrait
  keyed : c.Keyed

/-- A single change of the store. -/
inductive Action : Store → Store → Prop where
  | add {s : Store} {c : Cell} (hc : Plain c) : Action s { s with heap := s.heap.push c }
  | setItems {s : Store} {a : Addr} {items : List Value} (items' : List Value)
    (h : s.heap.cell a = .list items) : Action s { s with heap := s.heap.set a (.list items') }
  | setEntry {s : Store} {a : Addr} {entries : List (Value × Value)} (key v : Value)
    (h : s.heap.cell a = .dict entries) :
    Action s { s with heap := s.heap.set a (.dict (s.heap.insertEntry entries key v)) }
  | setOrderedEntry {s : Store} {a : Addr} {entries : List (Value × Value)} (key v : Value)
    (h : s.heap.cell a = .orderedDict entries) :
    Action s { s with heap := s.heap.set a (.orderedDict (s.heap.insertEntry entries key v)) }
  | setTests {s : Store} (tests : List (Addr × Test)) : Action s { s with tests := tests }
  | combine {s : Store} {body : Build Value} (h : IsCombination body) : Action s (storeAfter body s)

/-! ### What actions keep -/

theorem evolves_storeAfter_iff {body : Build α} {s : Store} :
    s.Evolves (storeAfter body s) ↔ Build.Ensures (fun _ _ => True) body s := by
  refine forall_congr' fun hs => ?_
  rw [storeAfter]
  cases body s with
  | ok a t => exact (and_iff_left trivial).symm
  | error problem t => exact Iff.rfl

namespace IsCombination

variable {body : Build Value}

theorem keeps (h : IsCombination body) : body.Keeps := by
  cases h with
  | primitive kind => exact Build.primitive_keeps kind
  | bare => exact Build.bare_keeps
  | apply combinator v =>
    cases combinator with
    | literal => exact Build.literal_keeps v
    | literals => exact Build.literals_keeps v
    | shape => exact Build.shape_keeps v
    | array => exact Build.array_keeps v
    | tuple => exact Build.tuple_keeps v
    | unionMany => exact Build.unionMany_keeps v
    | intersectMany => exact Build.intersectMany_keeps v
    | optional => exact Build.optional_keeps v
    | nullable => exact Build.nullable_keeps v
  | union left right => exact Build.union_keeps left right
  | intersection left right => exact Build.intersection_keeps left right
  | taggedUnion tag variants => exact Build.taggedUnion_keeps tag variants
  | predicate function name => exact Build.predicate_keeps function name

theorem keepsCoherent (h : IsCombination body) : Build.KeepsCoherent body := by
  cases h with
  | primitive kind => exact Build.primitive_coherent kind
  | bare => exact Build.bare_coherent
  | apply combinator v =>
    cases combinator with
    | literal => exact Build.literal_coherent v
    | literals => exact Build.literals_coherent v
    | shape => exact Build.shape_coherent v
    | array => exact Build.array_coherent v
    | tuple => exact Build.tuple_coherent v
    | unionMany => exact Build.unionMany_coherent v
    | intersectMany => exact Build.intersectMany_coherent v
    | optional => exact Build.optional_coherent v
    | nullable => exact Build.nullable_coherent v
  | union left right => exact Build.union_coherent left right
  | intersection left right => exact Build.intersection_coherent left right
  | taggedUnion tag variants => exact Build.taggedUnion_coherent tag variants
  | predicate function name => exact Build.predicate_coherent function name

end IsCombination

namespace Action

variable {s t : Store}

/-- Every action keeps a store sound, and extends it. -/
theorem evolves (h : Action s t) : s.Evolves t := by
  cases h with
  | add hc => exact s.evolves_push hc.noValidator
  | setItems items h => exact Store.evolves_set (by rw [h]; exact .list)
  | setEntry key v h => exact Store.evolves_set (by rw [h]; exact .dict)
  | setOrderedEntry key v h => exact Store.evolves_set (by rw [h]; exact .orderedDict)
  | setTests tests => exact (Store.Evolves.refl s).withTests tests
  | combine h => exact evolves_storeAfter_iff.mpr (h.keeps s)

/-- Every action keeps a store coherent. -/
theorem coherent (h : Action s t) (hs : s.Coherent) : t.Coherent := by
  cases h with
  | add hc => exact hs.push hc.keyed
  | setItems items h => exact hs.set _ (.of_none rfl)
  | @setEntry a entries key v hcell =>
    have hkeys : DistinctKeys entries := hs.keys a ⟨entries, none⟩ (by rw [hcell]; rfl)
    exact hs.set a (.of_some rfl (hkeys.insertEntry _ key v))
  | @setOrderedEntry a entries key v hcell =>
    have hkeys : DistinctKeys entries := hs.keys a ⟨entries, none⟩ (by rw [hcell]; rfl)
    exact hs.set a (.of_some rfl (hkeys.insertEntry _ key v))
  | setTests tests => exact ⟨hs.keys, hs.schemas⟩
  | @combine body hbody =>
    have hres := hbody.keepsCoherent s hs
    rw [storeAfter]
    cases hstore : body s <;> rw [hstore] at hres
    · exact hres.1
    · exact hres

end Action

theorem evolves_of_actions {s t : Store} (h : ReflTransGen Action s t) : s.Evolves t := by
  induction h with
  | refl => exact .refl s
  | tail _ h ih => exact ih.trans h.evolves

/-! ### Orderly steps -/

/-- A step is regular, and changes the store by actions alone. -/
structure OrderlyAt (body : SessionM α) (s : Session) : Prop where
  regular : RegularAt body s
  acts : ReflTransGen Action s.store (after body s).store

/-- A step is orderly in every session. -/
def Orderly (body : SessionM α) : Prop := ∀ s, OrderlyAt body s

namespace OrderlyAt

variable {x : SessionM α} {s : Session}

theorem of_sameStore (h : RegularAt x s) (hstore : (after x s).store = s.store) : OrderlyAt x s :=
  ⟨h, by rw [hstore]⟩

theorem pure (a : α) : OrderlyAt (Pure.pure a : SessionM α) s := ⟨.pure a, .refl⟩

theorem throw (problem : Problem) : OrderlyAt (MonadExcept.throw problem : SessionM α) s :=
  ⟨.throw problem, .refl⟩

theorem ofExcept (result : Except Problem α) : OrderlyAt (SessionM.ofExcept result) s :=
  .of_sameStore (.ofExcept result) (by cases result <;> rfl)

theorem bind {f : α → SessionM β} (hx : OrderlyAt x s)
    (hf : ∀ a t, x s = .ok a t → OrderlyAt (f a) t) : OrderlyAt (x >>= f) s := by
  refine ⟨hx.regular.bind fun a t hxs => (hf a t hxs).regular, ?_⟩
  have hacts := hx.acts
  rw [after] at hacts ⊢
  cases hxs : x s with
  | ok a t =>
    rw [hxs] at hacts
    rw [bind_of_ok hxs]
    exact hacts.trans (hf a t hxs).acts
  | error problem t =>
    rw [hxs] at hacts
    rw [bind_of_error hxs]
    exact hacts

theorem get_bind {f : Session → SessionM β} (h : OrderlyAt (f s) s)
    (hsame : ∀ t, s.Agrees t → f t = f s) : OrderlyAt (get >>= f) s :=
  ⟨.get_bind h.regular hsame, h.acts⟩

theorem discard (hx : OrderlyAt x s) : OrderlyAt (discard x) s := hx.bind fun _ _ _ => .pure ()

theorem attempt (hx : OrderlyAt x s) : OrderlyAt x.attempt s := by
  refine ⟨hx.regular.attempt, ?_⟩
  have hacts := hx.acts
  rw [after] at hacts ⊢
  rw [SessionM.attempt]
  cases hxs : x s <;> rw [hxs] at hacts <;> exact hacts

/-- A construction that comes down to actions. -/
theorem ofBuild {body : Build α} (h : ReflTransGen Action s.store (storeAfter body s.store)) :
    OrderlyAt (SessionM.ofBuild body) s := by
  refine ⟨.ofBuild (evolves_storeAfter_iff.mp (evolves_of_actions h)), ?_⟩
  rw [storeAfter] at h
  rw [after, SessionM.ofBuild]
  cases hbody : body s.store <;> rw [hbody] at h <;> exact h

end OrderlyAt

namespace Orderly

variable {x : SessionM α}

theorem pure (a : α) : Orderly (Pure.pure a : SessionM α) := fun _ => .pure a

theorem bind {f : α → SessionM β} (hx : Orderly x) (hf : ∀ a, Orderly (f a)) : Orderly (x >>= f) :=
  fun s => (hx s).bind fun a t _ => hf a t

theorem forM {f : γ → SessionM Unit} {l : List γ} (h : ∀ a, Orderly (f a)) : Orderly (l.forM f) := by
  induction l with
  | nil => exact .pure ()
  | cons a rest ih => exact (h a).bind fun _ => ih

theorem mapM {f : γ → SessionM α} {l : List γ} (h : ∀ a, Orderly (f a)) : Orderly (l.mapM f) := by
  induction l with
  | nil => exact .pure []
  | cons a rest ih =>
    rw [List.mapM_cons]
    exact (h a).bind fun b => ih.bind fun bs => .pure (b :: bs)

end Orderly

/-! ### Top-level calls -/

/-- What a call on a line changes is not in the store. -/
theorem sameStore_steady : Session.Steady fun s t => t.store = s.store where
  refl _ := rfl
  trans h h' := h'.trans h
  load _ := rfl
  addCall _ _ _ := rfl
  countSinkCall _ _ := rfl
  addLine _ _ := rfl

theorem readSettings_orderly : Orderly readSettings := fun s =>
  .of_sameStore (readSettings_regular s) (sameStore_steady.readSettings s)

theorem judge_orderly (collect : Bool) (schema : Schema) (v : Value) :
    Orderly (judge collect schema v) := fun s =>
  .of_sameStore (judge_regular collect schema v s) (sameStore_steady.judge collect schema v s)

theorem callFunction_orderly (test : Test) (v : Value) : Orderly (callFunction test v) := fun s =>
  .of_sameStore (callFunction_regular test v s) (sameStore_steady.callFunction test v s)

theorem callOnLine_orderly (v : Value) (line : Text) : Orderly (callOnLine v line) := fun s =>
  .of_sameStore (callOnLine_regular v line s) (sameStore_steady.callOnLine v line s)

theorem addLog_orderly (record : LogRecord) : Orderly (modify (Session.addLog record)) := by
  refine fun s => .of_sameStore (.modify (.addLog record s) fun _ ht => ht.addLog record) ?_
  show (s.addLog record).store = s.store
  rw [Session.addLog]
  split <;> rfl

theorem chooseSink_orderly (sink : Option Value) : Orderly (chooseSink sink) := by
  intro s
  cases sink with
  | none => exact .pure none
  | some v =>
    refine .get_bind ?_ fun t ht => by rw [ht.store]
    refine OrderlyAt.bind (.ofExcept _) fun truth t _ => ?_
    split <;> exact .pure _

theorem emitOne_orderly (sink : Option Value) (failure : Failure) :
    Orderly (emitOne sink failure) := by
  intro s
  cases sink with
  | none => exact addLog_orderly _ s
  | some v =>
    refine (callOnLine_orderly v failure.line s).attempt.bind fun result t _ => ?_
    cases result with
    | ok _ => exact .pure ()
    | error problem =>
      dsimp only
      split
      · exact OrderlyAt.bind (.throw problem) fun _ u _ => addLog_orderly _ u
      · exact addLog_orderly _ t

theorem emit_orderly (failures : List Failure) (sink : Option Value) :
    Orderly (emit failures sink) :=
  (chooseSink_orderly sink).bind fun _ => .forM (emitOne_orderly _)

theorem run_orderly (schema : Schema) (v opts : Value) : Orderly (run schema v opts) := by
  refine fun s => .get_bind ?_ fun t ht => by rw [ht.store]
  refine OrderlyAt.bind (.ofExcept _) fun options t _ => ?_
  refine (judge_orderly _ schema v t).bind fun (verdict, rejections) u _ => ?_
  dsimp only
  split
  · exact (emit_orderly _ _ u).bind fun _ _ _ => .pure verdict
  · exact .pure verdict

theorem call_orderly (validator v : Value) (opts : Option Value) :
    Orderly (call validator v opts) := by
  refine fun s => .get_bind ?_ fun t ht => by rw [ht.store]
  split
  · exact run_orderly _ v _ s
  · exact (callFunction_orderly _ v s).bind fun _ _ _ => .ofExcept _
  · exact .throw _

theorem explain_orderly (schema : Schema) (v : Value) : Orderly (explain schema v) :=
  (judge_orderly true schema v).bind fun _ _ => .pure _

end Conform.Script
