import Conform.Construct
import Mathlib.Data.List.Forall2

namespace Conform

/-!
# What construction adds

Every construction adds objects and validators at new addresses, and leaves the validators that
were there before as they are.  So the parts of a validator still stand for their schemas when the
validator itself is added.

* `Build.bind_eq_ok_iff` — what is behind a construction of two steps that succeeds;
* `Store.Grows` — what a later store has in common with an earlier one;
* `Store.Names` — a value is the validator of a schema;
* `Build.forItems_spec`, `Build.forEach_spec` — a construction for each of some items;
* `Build.literal_spec`, `Build.combine_spec`, `Build.literals_spec` — the schemas of literals, of
  unions and intersections of validators, and of unions of literals.
-/

variable {α β : Type}

/-- Two lists that are related through values between them, are so through a list of such values. -/
theorem exists_of_forall₂ {γ : Type} {p : α → γ → Prop} {q : β → γ → Prop} {l : List α}
    {m : List β} (h : List.Forall₂ (fun a b => ∃ c, p a c ∧ q b c) l m) :
    ∃ n, List.Forall₂ p l n ∧ List.Forall₂ q m n := by
  induction h with
  | nil => exact ⟨[], .nil, .nil⟩
  | cons hab _ ih =>
    obtain ⟨c, ha, hb⟩ := hab
    obtain ⟨n, hl, hm⟩ := ih
    exact ⟨c :: n, .cons ha hl, .cons hb hm⟩

theorem exists_mem_of_forall₂ {p : α → β → Prop} {l : List α} {m : List β}
    (h : List.Forall₂ p l m) {b : β} (hb : b ∈ m) : ∃ a ∈ l, p a b := by
  induction h with
  | nil => cases hb
  | @cons a b' l m hab _ ih =>
    rcases List.mem_cons.mp hb with rfl | hb
    · exact ⟨a, List.mem_cons_self, hab⟩
    · obtain ⟨a', ha', hp⟩ := ih hb
      exact ⟨a', List.mem_cons_of_mem a ha', hp⟩

/-! ### Later stores -/

/-- A later store has at least as many objects as an earlier one, and the same validators among
    those that were there. -/
structure Store.Grows (s t : Store) : Prop where
  next : s.heap.next ≤ t.heap.next
  schemas : ∀ a < s.heap.next, t.schemas.lookup a = s.schemas.lookup a

/-- A value is the validator of a schema. -/
def Store.Names (s : Store) (v : Value) (schema : Schema) : Prop :=
  ∃ a < s.heap.next, v = .ref a ∧ s.schemas.lookup a = some schema

namespace Store

variable {s t u : Store} {v : Value} {schema : Schema}

theorem Grows.refl (s : Store) : s.Grows s := ⟨Nat.le_refl _, fun _ _ => rfl⟩

theorem Grows.trans (h : s.Grows t) (h' : t.Grows u) : s.Grows u :=
  ⟨Nat.le_trans h.next h'.next, fun a ha =>
    (h'.schemas a (Nat.lt_of_lt_of_le ha h.next)).trans (h.schemas a ha)⟩

theorem Names.schemaOf? (h : s.Names v schema) : s.schemaOf? v = some schema := by
  obtain ⟨a, -, rfl, hlookup⟩ := h
  exact hlookup

/-- A validator stays the validator of its schema. -/
theorem Names.later (h : s.Names v schema) (hst : s.Grows t) : t.Names v schema := by
  obtain ⟨a, ha, rfl, hlookup⟩ := h
  exact ⟨a, Nat.lt_of_lt_of_le ha hst.next, rfl, (hst.schemas a ha).trans hlookup⟩

end Store

/-- The items of a value that can be walked through once, options apart. -/
def Heap.items? (h : Heap) (v : Value) : Option (List Value) :=
  match h.cellOf? v with
  | some (.list items) | some (.tuple items) | some (.set items) | some (.frozenSet items)
  | some (.stream items) => some items
  | _ => none

namespace Build

variable {s t : Store}

/-! ### Steps -/

theorem bind_eq_ok_iff {x : Build α} {f : α → Build β} {b : β} :
    (x >>= f) s = .ok b t ↔ ∃ a u, x s = .ok a u ∧ f a u = .ok b t := by
  show EStateM.bind x f s = _ ↔ _
  rw [EStateM.bind]
  cases hx : x s with
  | ok a u => simp
  | error problem u => simp

theorem bind_of_ok {x : Build α} {a : α} (h : x s = .ok a t) (f : α → Build β) :
    (x >>= f) s = f a t := by
  show EStateM.bind x f s = _
  rw [EStateM.bind, h]

theorem bind_of_error {x : Build α} {problem : Problem} (h : x s = .error problem t)
    (f : α → Build β) : (x >>= f) s = .error problem t := by
  show EStateM.bind x f s = _
  rw [EStateM.bind, h]

theorem get_eq (s : Store) : (get : Build Store) s = .ok s s := rfl

theorem allocate_eq (c : Cell) (s : Store) :
    allocate c s = .ok (.ref s.heap.next) { s with heap := s.heap.push c } := rfl

theorem addValidator_eq (schema : Schema) (attributes : List (String × Attribute)) (s : Store) :
    addValidator schema attributes s = .ok (.ref s.heap.next)
      { s with
        heap := s.heap.push (.validator ⟨schema.className, attributes⟩)
        schemas := (s.heap.next, schema) :: s.schemas } := rfl

/-- A new object is no validator. -/
theorem grows_push (s : Store) (c : Cell) : s.Grows { s with heap := s.heap.push c } :=
  ⟨by simp, fun _ _ => rfl⟩

/-- A change in place changes no validator. -/
theorem grows_set (s : Store) (a : Addr) (c : Cell) : s.Grows { s with heap := s.heap.set a c } :=
  ⟨by simp, fun _ _ => rfl⟩

/-- A new validator is the validator of its schema, and no other one is changed. -/
theorem addValidator_spec {schema : Schema} {attributes : List (String × Attribute)} {v : Value}
    (h : addValidator schema attributes s = .ok v t) : s.Grows t ∧ t.Names v schema := by
  rw [addValidator_eq] at h
  obtain ⟨rfl, rfl⟩ := EStateM.Result.ok.inj h
  refine ⟨⟨by simp, fun a ha => ?_⟩, s.heap.next, by simp, rfl, by simp⟩
  rw [List.lookup_cons, beq_false_of_ne (Nat.ne_of_lt ha)]

/-! ### Items -/

/-- The result for the first item comes in front of those for the others. -/
theorem cons_eq_ok {x : Build α} {rest : Build (List α)} {results : List α}
    (h : (do
      let first ← x
      return first :: (← rest) : Build (List α)) s = .ok results t) :
    ∃ first others u, results = first :: others ∧ x s = .ok first u ∧ rest u = .ok others t := by
  obtain ⟨first, u, hfirst, h⟩ := bind_eq_ok_iff.mp h
  obtain ⟨others, w, hothers, hpure⟩ := bind_eq_ok_iff.mp h
  obtain ⟨rfl, rfl⟩ := EStateM.Result.ok.inj hpure
  exact ⟨first, others, u, rfl, hfirst, hothers⟩

section Items

variable {step : Nat → Value → Build α} {p : Store → Value → α → Prop} {items : List Value}
  (hlater : ∀ s t item a, s.Grows t → p s item a → p t item a)
  (hstep : ∀ i, ∀ item ∈ items, ∀ s a t, step i item s = .ok a t → s.Grows t ∧ p t item a)
include hlater hstep

/-- What a step establishes for its item, holds for all items after the last step. -/
theorem forItems_spec {i : Nat} {results : List α} (h : forItems step i items s = .ok results t) :
    s.Grows t ∧ List.Forall₂ (p t) items results := by
  induction items generalizing i s results with
  | nil =>
    obtain ⟨rfl, rfl⟩ := EStateM.Result.ok.inj h
    exact ⟨.refl s, .nil⟩
  | cons item items ih =>
    obtain ⟨first, others, u, rfl, hfirst, hothers⟩ := cons_eq_ok h
    obtain ⟨hsu, hp⟩ := hstep i item List.mem_cons_self s first u hfirst
    obtain ⟨hut, hps⟩ := ih (fun j a ha => hstep j a (List.mem_cons_of_mem item ha)) hothers
    exact ⟨hsu.trans hut, .cons (hlater u t item first hut hp) hps⟩

/-- Taking an item from a stream changes no validator. -/
theorem forStream_spec {a : Addr} {i : Nat} {results : List α}
    (h : forStream a step i items s = .ok results t) :
    s.Grows t ∧ List.Forall₂ (p t) items results := by
  induction items generalizing i s results with
  | nil =>
    obtain ⟨rfl, rfl⟩ := EStateM.Result.ok.inj h
    exact ⟨.refl s, .nil⟩
  | cons item items ih =>
    obtain ⟨_, r, htake, h⟩ := bind_eq_ok_iff.mp h
    obtain ⟨-, rfl⟩ := EStateM.Result.ok.inj htake
    obtain ⟨first, others, u, rfl, hfirst, hothers⟩ := cons_eq_ok h
    obtain ⟨hsu, hp⟩ := hstep i item List.mem_cons_self _ first u hfirst
    obtain ⟨hut, hps⟩ := ih (fun j a ha => hstep j a (List.mem_cons_of_mem item ha)) hothers
    exact ⟨(grows_set s a _).trans (hsu.trans hut), .cons (hlater u t item first hut hp) hps⟩

/-- Whatever kind of value the items come from, they are all met. -/
theorem forEach_spec {v : Value} {results : List α} (hitems : s.heap.items? v = some items)
    (h : forEach v step s = .ok results t) : s.Grows t ∧ List.Forall₂ (p t) items results := by
  obtain ⟨store, _, hget, h⟩ := bind_eq_ok_iff.mp h
  obtain ⟨rfl, rfl⟩ := EStateM.Result.ok.inj hget
  cases v with
  | ref a =>
    simp only [Heap.items?, Heap.cellOf?, Value.addr?, Option.map_some] at hitems
    simp only [Heap.cellOf?, Value.addr?, Option.map_some] at h
    cases hcell : s.heap.cell a <;> rw [hcell] at hitems h
    case list | tuple | set | frozenSet =>
      obtain rfl := Option.some.inj hitems
      exact forItems_spec hlater hstep h
    case stream =>
      obtain rfl := Option.some.inj hitems
      exact forStream_spec hlater hstep h
    all_goals cases hitems
  | _ => cases hitems

end Items

/-! ### Literals -/

/-- The validator of a literal keeps the canonical form that its constant has then. -/
theorem literal_spec {c v : Value} (h : literal c s = .ok v t) :
    s.Grows t ∧ ∃ canonical,
      s.heap.canonical? c = some canonical ∧ t.Names v (.literal c canonical) := by
  obtain ⟨store, _, hget, h⟩ := bind_eq_ok_iff.mp h
  obtain ⟨rfl, rfl⟩ := EStateM.Result.ok.inj hget
  split at h
  · obtain ⟨shown, u, -, h⟩ := bind_eq_ok_iff.mp h
    obtain ⟨_, _, hrefuse, -⟩ := bind_eq_ok_iff.mp h
    cases hrefuse
  · cases hcanonical : s.heap.canonical? c with
    | none =>
      simp only [hcanonical] at h
      obtain ⟨shown, u, -, hrefuse⟩ := bind_eq_ok_iff.mp h
      cases hrefuse
    | some canonical =>
      simp only [hcanonical] at h
      obtain ⟨hgrows, hnames⟩ := addValidator_spec h
      exact ⟨hgrows, canonical, rfl, hnames⟩

/-- A constant that cannot be called is taken if it has a canonical form. -/
theorem exists_literal {c : Value} {canonical : Text} (hconstant : s.heap.isCallable c = false)
    (h : s.heap.canonical? c = some canonical) : ∃ t, literal c s = .ok (.ref s.heap.next) t := by
  rw [literal, bind_of_ok (get_eq s)]
  simp only [hconstant, h, Bool.false_eq_true, if_false]
  exact ⟨_, addValidator_eq _ _ s⟩

/-! ### Members -/

section Members

variable {nodes : List Value} {schemas : List Schema}
  (hnodes : List.Forall₂ (fun node schema => s.schemaOf? node = some schema) nodes schemas)
include hnodes

/-- Validators as members are taken as they are. -/
theorem forItems_member (owner : String) (i : Nat) :
    forItems (member owner) i nodes s = .ok (nodes.zip schemas) s := by
  induction hnodes generalizing i with
  | nil => rfl
  | @cons node schema nodes schemas hnode _ ih =>
    have hmember : member owner i node s = .ok (node, schema) s := by
      rw [member, EStateM.adaptExcept, child, bind_of_ok (get_eq s), hnode]
      rfl
    rw [forItems, bind_of_ok hmember, bind_of_ok (ih (i + 1))]
    rfl

theorem members_of_list {owner : String} {a : Addr} (hcell : s.heap.cell a = .list nodes) :
    members owner (.ref a) s = .ok (nodes.zip schemas) s := by
  have hallowed : refusesMembers s.heap (.ref a) = false := by
    simp only [refusesMembers, Heap.cellOf?, Value.addr?, Option.map_some, hcell]
  rw [members, bind_of_ok (get_eq s)]
  simp only [hallowed, Bool.false_eq_true, if_false]
  rw [forEach, bind_of_ok (get_eq s)]
  simp only [Heap.cellOf?, Value.addr?, Option.map_some, hcell]
  exact forItems_member hnodes owner 0

end Members

/-- The store after a validator over members has been added: a tuple of the members, and behind it
    the validator. -/
def combined (node : List Schema → Schema) (children : List (Value × Schema)) (s : Store) : Store :=
  let schema := node (children.map Prod.snd)
  { s with
    heap := (s.heap.push (.tuple (children.map Prod.fst))).push
      (.validator ⟨schema.className, [("members", .value (.ref s.heap.next))]⟩)
    schemas := (s.heap.next + 1, schema) :: s.schemas }

theorem addWithMembers_eq (node : List Schema → Schema) (children : List (Value × Schema))
    (s : Store) :
    addWithMembers node children s = .ok (.ref (s.heap.next + 1)) (combined node children s) := by
  rw [addWithMembers, bind_of_ok (allocate_eq _ s), addValidator_eq, combined]
  simp only [Heap.next_push]

theorem addWithMembers_spec {node : List Schema → Schema} {children : List (Value × Schema)}
    {v : Value} (h : addWithMembers node children s = .ok v t) :
    s.Grows t ∧ t.Names v (node (children.map Prod.snd)) := by
  obtain ⟨items, u, hitems, h⟩ := bind_eq_ok_iff.mp h
  rw [allocate_eq] at hitems
  obtain ⟨-, rfl⟩ := EStateM.Result.ok.inj hitems
  obtain ⟨hgrows, hnames⟩ := addValidator_spec h
  exact ⟨(grows_push s _).trans hgrows, hnames⟩

section Combinators

variable {a : Addr} {nodes : List Value} {schemas : List Schema} {v : Value}
  (hcell : s.heap.cell a = .list nodes)
  (hnodes : List.Forall₂ (fun node schema => s.schemaOf? node = some schema) nodes schemas)
include hcell hnodes

/-- A combinator takes validators as they are, and adds one object and one validator. -/
theorem combine_eq (owner : String) (node : List Schema → Schema) :
    (members owner (.ref a) >>= addWithMembers node) s =
      .ok (.ref (s.heap.next + 1)) (combined node (nodes.zip schemas) s) := by
  rw [bind_of_ok (members_of_list hnodes hcell)]
  exact addWithMembers_eq node _ s

/-- A combinator of validators is the validator of their schemas combined. -/
theorem combine_spec {owner : String} {node : List Schema → Schema}
    (h : (members owner (.ref a) >>= addWithMembers node) s = .ok v t) :
    s.Grows t ∧ t.Names v (node schemas) := by
  rw [bind_of_ok (members_of_list hnodes hcell)] at h
  have hschemas : (nodes.zip schemas).map Prod.snd = schemas :=
    List.map_snd_zip (Nat.le_of_eq hnodes.length_eq.symm)
  rw [← hschemas]
  exact addWithMembers_spec h

theorem unionMany_spec (h : unionMany (.ref a) s = .ok v t) :
    s.Grows t ∧ t.Names v (.union schemas) :=
  combine_spec hcell hnodes h

theorem intersectMany_spec (h : intersectMany (.ref a) s = .ok v t) :
    s.Grows t ∧ t.Names v (.intersection schemas) :=
  combine_spec hcell hnodes h

end Combinators

/-! ### Literals of several constants -/

/-- The schema of a literal of a constant, made with objects of some heap. -/
def IsLiteralOf (c : Value) (schema : Schema) : Prop :=
  ∃ heap canonical, Heap.canonical? heap c = some canonical ∧ schema = .literal c canonical

/-- Several constants make a union of literals. -/
theorem literals_spec {constants v : Value} {items : List Value}
    (hitems : s.heap.items? constants = some items) (h : literals constants s = .ok v t) :
    s.Grows t ∧ ∃ schemas, List.Forall₂ IsLiteralOf items schemas ∧ t.Names v (.union schemas) := by
  obtain ⟨_, _, hget, h⟩ := bind_eq_ok_iff.mp h
  obtain ⟨rfl, rfl⟩ := EStateM.Result.ok.inj hget
  split at h
  · obtain ⟨shown, u, -, h⟩ := bind_eq_ok_iff.mp h
    obtain ⟨_, _, hrefuse, -⟩ := bind_eq_ok_iff.mp h
    cases hrefuse
  · obtain ⟨nodes, u, hnodes, h⟩ := bind_eq_ok_iff.mp h
    obtain ⟨_, w, hlist, h⟩ := bind_eq_ok_iff.mp h
    rw [allocate_eq] at hlist
    obtain ⟨rfl, rfl⟩ := EStateM.Result.ok.inj hlist
    obtain ⟨hsu, hall⟩ := forEach_spec
      (p := fun t c node => ∃ schema, IsLiteralOf c schema ∧ t.Names node schema)
      (fun s t c node hst ⟨schema, hschema, hnames⟩ => ⟨schema, hschema, hnames.later hst⟩)
      (fun i c _ s node t hnode => by
        obtain ⟨hgrows, canonical, hcanonical, hnames⟩ := literal_spec hnode
        exact ⟨hgrows, _, ⟨s.heap, canonical, hcanonical, rfl⟩, hnames⟩) hitems hnodes
    obtain ⟨schemas, hschemas, hnames⟩ := exists_of_forall₂ hall
    have hpush := grows_push u (.list nodes)
    obtain ⟨hgrows, hunion⟩ := unionMany_spec (u.heap.cell_push_next _)
      (hnames.imp fun _ _ hname => (hname.later hpush).schemaOf?) h
    exact ⟨hsu.trans (hpush.trans hgrows), schemas, hschemas, hunion⟩

end Build

end Conform
