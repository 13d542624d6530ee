import Conform.Proofs.Plan
import Conform.Proofs.Portraits
import Conform.Proofs.Variants

namespace Conform

/-!
# What construction establishes of schemas

Fields and variants come from mappings, which hold a key once at most; every variant is checked against
its tag when it is made.  So in every schema that is made the names of fields and of variants are
distinct, and all variants declare the tag field; and whatever a construction adds until it ends in a
problem is of that kind.

* `Schema.Checked`, `Schema.Coherent` — what is known of a node by itself, and of a whole schema;
* `Store.Coherent` — every mapping has distinct keys, and every schema is coherent;
* `Build.Maintains` — a construction that keeps a store coherent, with one rule for every way to put
  constructions together;
* `Build.shape_coherent`, `Build.taggedUnion_coherent`, … — one lemma for every combinator.
-/

variable {α β γ : Type}

/-! ### Names -/

/-- Other contents make no difference to the names. -/
theorem DistinctNames.map {entries : List (Label × α)} (h : DistinctNames entries) (f : α → β) :
    DistinctNames (entries.map fun entry => (entry.1, f entry.2)) := by
  rw [DistinctNames, List.map_map]
  exact h

/-- A mapping of distinct names has distinct keys. -/
theorem DistinctNames.distinctKeys {entries : List (Label × Value)} (h : DistinctNames entries) :
    DistinctKeys (entries.map fun entry => (entry.1.toValue, entry.2)) := by
  have hsame : (fun entry : Label × Value => entry.1.toValue.text?) =
      fun entry => some entry.1.content := funext fun entry => entry.1.text_toValue
  rw [DistinctKeys, List.filterMap_map]
  show (entries.filterMap fun entry => entry.1.toValue.text?).Nodup
  rw [hsame, List.filterMap_eq_map']
  exact h

/-! ### Schemas -/

namespace Schema

/-- What is known of a node by itself: a literal has a canonical form, the fields of a shape and of every
    variant have distinct names, and so have the variants, each of which declares the tag field. -/
def Checked : Schema → Prop
  | .literal constant canonical => ∃ heap : Heap, heap.canonical? constant = some canonical
  | .shape fields => DistinctNames fields
  | .taggedUnion tag variants => DistinctNames variants ∧
    ∀ variant ∈ variants, DistinctNames variant.2 ∧ Build.DeclaresTag tag variant.1 variant.2
  | _ => True

/-- Every node of a schema is as it should be. -/
def Coherent (schema : Schema) : Prop := ∀ node, schema.Contains node → node.Checked

variable {schema : Schema}

theorem Contains.trans {node inner : Schema} (h : schema.Contains node) (hinner : node.Contains inner) :
    schema.Contains inner := by
  induction h with
  | self => exact hinner
  | inside hc _ ih => exact .inside hc (ih hinner)

theorem Coherent.checked (h : schema.Coherent) : schema.Checked := h schema .self

theorem Coherent.child {child : Schema} (h : schema.Coherent) (hc : child ∈ schema.children) :
    child.Coherent :=
  fun node hnode => h node (.inside hc hnode)

theorem Coherent.of_children (hself : schema.Checked)
    (h : ∀ child ∈ schema.children, child.Coherent) : schema.Coherent := by
  intro node hnode
  cases hnode with
  | self => exact hself
  | inside hc hnode => exact h _ hc node hnode

theorem Coherent.of_leaf (hself : schema.Checked) (hleaf : schema.children = []) : schema.Coherent :=
  .of_children hself fun _ hc => absurd (hleaf ▸ hc) List.not_mem_nil

/-- The fields of a shape, which are those of a variant as well. -/
theorem coherent_shape_iff {fields : List (Label × Schema)} :
    (Schema.shape fields).Coherent ↔
      DistinctNames fields ∧ ∀ field ∈ fields, field.2.Coherent := by
  constructor
  · exact fun h => ⟨h.checked, fun field hf => h.child (List.mem_map_of_mem hf)⟩
  · rintro ⟨hnames, hfields⟩
    refine .of_children hnames fun child hc => ?_
    obtain ⟨field, hf, rfl⟩ := List.mem_map.mp hc
    exact hfields field hf

theorem coherent_taggedUnion {tag : Label} {variants : List (Label × List (Label × Schema))}
    (hnames : DistinctNames variants)
    (h : ∀ variant ∈ variants, (Schema.shape variant.2).Coherent ∧
      Build.DeclaresTag tag variant.1 variant.2) : (Schema.taggedUnion tag variants).Coherent := by
  refine .of_children ⟨hnames, fun variant hv => ⟨(h variant hv).1.checked, (h variant hv).2⟩⟩
    fun child hc => ?_
  obtain ⟨variant, hv, hc⟩ := List.mem_flatMap.mp hc
  exact (h variant hv).1.child hc

end Schema

/-! ### Stores -/

/-- If an object is a mapping, its keys are distinct. -/
def Cell.Keyed (c : Cell) : Prop := ∀ m, c.mapping? = some m → DistinctKeys m.entries

theorem Cell.Keyed.of_none {c : Cell} (h : c.mapping? = none) : c.Keyed :=
  fun _ hm => nomatch h.symm.trans hm

theorem Cell.Keyed.of_some {c : Cell} {m : Mapping} (h : c.mapping? = some m)
    (hm : DistinctKeys m.entries) : c.Keyed := by
  intro m' hm'
  obtain rfl := Option.some.inj (h.symm.trans hm')
  exact hm

/-- Every mapping has distinct keys, and every schema is coherent. -/
structure Store.Coherent (s : Store) : Prop where
  keys : ∀ a, (s.heap.cell a).Keyed
  schemas : ∀ entry ∈ s.schemas, entry.2.Coherent

namespace Store

variable {s : Store}

theorem coherent_empty : Store.empty.Coherent where
  keys a := .of_none (by rw [Heap.cell_of_le (Nat.zero_le a)]; rfl)
  schemas := nofun

theorem Coherent.distinctKeys (h : s.Coherent) {v : Value} {m : Mapping}
    (hm : s.heap.mapping? v = some m) : DistinctKeys m.entries := by
  obtain ⟨c, hc, hcm⟩ := Option.bind_eq_some_iff.mp hm
  obtain ⟨a, -, rfl⟩ := Option.map_eq_some_iff.mp hc
  exact h.keys a m hcm

theorem Coherent.schema (h : s.Coherent) {v : Value} {schema : Schema}
    (hv : s.schemaOf? v = some schema) : schema.Coherent := by
  obtain ⟨a, -, hlookup⟩ := Option.bind_eq_some_iff.mp hv
  obtain ⟨before, after, hschemas, -⟩ := List.lookup_eq_some_iff.mp hlookup
  exact h.schemas (a, schema) (by simp [hschemas])

/-- No mapping stands behind the last address. -/
theorem keyed_of_le {heap : Heap} {a : Addr} (ha : heap.next ≤ a) : (heap.cell a).Keyed :=
  .of_none (by rw [Heap.cell_of_le ha]; rfl)

/-- An object is added, with distinct keys if it is a mapping. -/
theorem Coherent.push (h : s.Coherent) {c : Cell} (hc : c.Keyed) :
    Coherent { s with heap := s.heap.push c } where
  keys a := by
    rcases Nat.lt_trichotomy a s.heap.next with hlt | rfl | hgt
    · rw [s.heap.cell_push_of_lt c hlt]
      exact h.keys a
    · rw [s.heap.cell_push_next]
      exact hc
    · refine keyed_of_le ?_
      rw [Heap.next_push]
      exact hgt
  schemas := h.schemas

/-- An object is changed in place. -/
theorem Coherent.set (h : s.Coherent) (a : Addr) {c : Cell} (hc : c.Keyed) :
    Coherent { s with heap := s.heap.set a c } where
  keys b := by
    rcases Nat.lt_or_ge b s.heap.next with hlt | hge
    · by_cases hab : a = b
      · subst hab
        rw [s.heap.cell_set_self c hlt]
        exact hc
      · rw [s.heap.cell_set_of_ne c hab]
        exact h.keys b
    · refine keyed_of_le ?_
      rw [Heap.next_set]
      exact hge
  schemas := h.schemas

/-- A validator is added. -/
theorem Coherent.cons (h : s.Coherent) {schema : Schema} (hschema : schema.Coherent)
    (attributes : List (String × Attribute)) :
    Coherent
      { s with
        heap := s.heap.push (.validator ⟨schema.className, attributes⟩)
        schemas := (s.heap.next, schema) :: s.schemas } where
  keys := (h.push (.of_none rfl)).keys
  schemas := List.forall_mem_cons.mpr ⟨hschema, h.schemas⟩

end Store

/-! ### Constructions -/

namespace Build

variable {s : Store}

/-- A construction that starts from a coherent store leaves a coherent one behind, and any result has a
    property. -/
def Maintains (p : α → Prop) (x : Build α) (s : Store) : Prop :=
  s.Coherent →
    match x s with
    | .ok a t => t.Coherent ∧ p a
    | .error _ t => t.Coherent

namespace Maintains

variable {p : α → Prop} {q : β → Prop} {x : Build α}

theorem pure {a : α} (h : p a) : Maintains p (Pure.pure a) s := fun hs => ⟨hs, h⟩

theorem throw (problem : Problem) : Maintains p (MonadExcept.throw problem : Build α) s := id

theorem refuse (misuse : Misuse) : Maintains p (refuse misuse) s := id

theorem bind {f : α → Build β} (hx : Maintains p x s) (hf : ∀ a t, p a → Maintains q (f a) t) :
    Maintains q (x >>= f) s := by
  intro hs
  have hres := hx hs
  cases hxs : x s with
  | error problem t =>
    rw [hxs] at hres
    rw [bind_of_error hxs]
    exact hres
  | ok a t =>
    rw [hxs] at hres
    rw [bind_of_ok hxs]
    exact hf a t hres.2 hres.1

/-- What is read of the store may be used, and that it is coherent. -/
theorem get_bind {f : Store → Build β} (h : s.Coherent → Maintains q (f s) s) :
    Maintains q (get >>= f) s :=
  fun hs => h hs hs

theorem ofExcept (result : Except Problem α) : Maintains (fun _ => True) (ofExcept result) s := by
  intro hs
  cases result with
  | ok a => exact ⟨hs, trivial⟩
  | error problem => exact hs

theorem mono {p' : α → Prop} (hx : Maintains p x s) (h : ∀ a, p a → p' a) : Maintains p' x s := by
  intro hs
  have hres := hx hs
  cases hxs : x s with
  | error problem t =>
    rw [hxs] at hres
    exact hres
  | ok a t =>
    rw [hxs] at hres
    exact ⟨hres.1, h a hres.2⟩

theorem display_bind {v : Value} {f : Text → Build β} (h : ∀ shown t, Maintains q (f shown) t) :
    Maintains q (display v >>= f) s :=
  bind (.get_bind fun _ => .ofExcept _) fun shown t _ => h shown t

/-- Nothing comes after a misuse. -/
theorem refuse_bind (misuse : Misuse) (f : α → Build β) :
    Maintains q (Build.refuse misuse >>= f) s :=
  bind (p := fun _ => False) (refuse misuse) fun _ _ h => h.elim

theorem allocate {c : Cell} (hc : c.Keyed) :
    Maintains (fun _ => True) (allocate c) s := fun hs => ⟨hs.push hc, trivial⟩

theorem addValidator {schema : Schema} (h : schema.Coherent) (attributes : List (String × Attribute)) :
    Maintains (fun _ => True) (addValidator schema attributes) s :=
  fun hs => ⟨hs.cons h attributes, trivial⟩

theorem adaptExcept (change : Problem → Problem) (hx : Maintains p x s) :
    Maintains p (x.adaptExcept change) s := by
  intro hs
  have hres := hx hs
  rw [EStateM.adaptExcept]
  cases hxs : x s with
  | ok a t =>
    rw [hxs] at hres
    exact hres
  | error problem t =>
    rw [hxs] at hres
    exact hres

end Maintains

/-! ### Children -/

theorem coherent_predicate (test : Test) (name : Value) : (Schema.predicate test name).Coherent :=
  .of_leaf trivial rfl

/-- A child has a coherent schema: one that is in the store, or a predicate. -/
theorem child_maintains (place : Text) (v : Value) (s : Store) :
    Maintains (fun made => made.2.Coherent) (child place v) s := by
  refine .get_bind fun hs => ?_
  cases hschema : s.schemaOf? v with
  | some schema => exact .pure (hs.schema hschema)
  | none =>
    cases s.testOf? v with
    | some test =>
      exact (Maintains.addValidator (coherent_predicate _ _) _).bind fun _ _ _ =>
        .pure (coherent_predicate _ _)
    | none => exact .display_bind fun _ _ => .refuse _

/-! ### Walks -/

section Walks

variable {p : α → Prop}

theorem cons_maintains {x : Build α} {rest : Build (List α)} (hx : Maintains p x s)
    (hrest : ∀ t, Maintains (fun results => ∀ a ∈ results, p a) rest t) :
    Maintains (fun results => ∀ a ∈ results, p a)
      (do
        let first ← x
        return first :: (← rest) : Build (List α)) s :=
  hx.bind fun _ t hfirst => (hrest t).bind fun _ _ hothers =>
    .pure (List.forall_mem_cons.mpr ⟨hfirst, hothers⟩)

variable {step : Nat → Value → Build α} (hstep : ∀ i v s, Maintains p (step i v) s)
include hstep

theorem forItems_maintains (i : Nat) (items : List Value) (s : Store) :
    Maintains (fun results => ∀ a ∈ results, p a) (forItems step i items) s := by
  induction items generalizing i s with
  | nil => exact .pure nofun
  | cons item items ih => exact cons_maintains (hstep i item s) (ih (i + 1))

theorem forStream_maintains (a : Addr) (i : Nat) (items : List Value) (s : Store) :
    Maintains (fun results => ∀ a ∈ results, p a) (forStream a step i items) s := by
  induction items generalizing i s with
  | nil => exact .pure nofun
  | cons item items ih =>
    have htake : Maintains (fun _ => True) (replace a (.stream items)) s :=
      fun hs => ⟨hs.set a (.of_none rfl), trivial⟩
    exact htake.bind fun _ t _ => cons_maintains (hstep i item t) (ih (i + 1))

theorem forEach_maintains (v : Value) (s : Store) :
    Maintains (fun results => ∀ a ∈ results, p a) (forEach v step) s := by
  refine .get_bind fun _ => ?_
  cases v with
  | ref a =>
    simp only [Heap.cellOf?, Value.addr?, Option.map_some]
    cases s.heap.cell a with
    | list items | tuple items | set items | frozenSet items => exact forItems_maintains hstep 0 items s
    | stream items => exact forStream_maintains hstep a 0 items s
    | options logFailures sink =>
      refine (Maintains.allocate (.of_none rfl)).bind fun log t _ => ?_
      exact (Maintains.allocate (.of_none rfl)).bind fun sink u _ => forItems_maintains hstep 0 _ u
    | _ => exact .refuse _
  | _ => exact .refuse _

end Walks

/-- A walk through entries keeps what every step establishes for its entry. -/
theorem forEntries_maintains {m : Mapping} {step : Value → Value → Build α}
    {p : Value × Value → α → Prop}
    (hstep : ∀ entry s, Maintains (p entry) (step entry.1 entry.2) s) (s : Store) :
    Maintains (List.Forall₂ p m.entries) (forEntries m step) s := by
  rw [forEntries]
  induction m.entries generalizing s with
  | nil => exact .pure .nil
  | cons entry entries ih =>
    rw [List.mapM_cons]
    refine Maintains.bind (p := p entry) (.get_bind fun _ => ?_) fun first t hfirst =>
      (ih t).bind fun others u hothers => .pure (.cons hfirst hothers)
    cases s.heap.readFault? m entry.1 with
    | some fault => exact .throw _
    | none => exact hstep entry s

/-! ### Structure -/

theorem shapeWithFields_maintains (fields : Value) (s : Store) :
    Maintains (fun made => (Schema.shape made.2).Coherent) (shapeWithFields fields) s := by
  -- the names are distinct because the keys of a dictionary are, and the rules are what the children are
  have hrules : Maintains (fun rules : List (Label × Value × Schema) =>
      DistinctNames rules ∧ ∀ rule ∈ rules, rule.2.2.Coherent) (fieldRules "shape" fields) s := by
    refine .get_bind fun hs => ?_
    cases hm : s.heap.mapping? fields with
    | none =>
      simp only [hm]
      exact .refuse _
    | some m =>
      simp only [hm]
      refine (forEntries_maintains (p := fun entry (rule : Label × Value × Schema) =>
        entry.1.label? = some rule.1 ∧ rule.2.2.Coherent) (fun entry t => ?_) s).mono
        fun rules hrules => ⟨distinctNames_of_keys (hs.distinctKeys hm) (hrules.imp fun _ _ h => h.1),
          fun rule hr => ?_⟩
      · cases hname : entry.1.label? with
        | none => exact .display_bind fun _ _ => .refuse _
        | some name =>
          exact (child_maintains _ entry.2 t).bind fun made u hmade => .pure ⟨rfl, hmade⟩
      · obtain ⟨entry, -, hentry⟩ := exists_mem_of_forall₂ hrules hr
        exact hentry.2
  refine hrules.bind fun rules t hrules => ?_
  obtain ⟨hnames, hcoherent⟩ := hrules
  have hschema : (Schema.shape (rules.map fun rule => (rule.1, rule.2.2))).Coherent := by
    refine Schema.coherent_shape_iff.mpr ⟨hnames.map Prod.snd, fun field hf => ?_⟩
    obtain ⟨rule, hr, rfl⟩ := List.mem_map.mp hf
    exact hcoherent rule hr
  have hview : Maintains (fun _ => True) (namedView (rules.map fun rule => (rule.1, rule.2.1))) t := by
    exact .allocate (.of_some rfl (hnames.map Prod.fst).distinctKeys)
  exact hview.bind fun view u _ => (Maintains.addValidator hschema _).bind fun made w _ => .pure hschema

/-- A construction leaves every coherent store coherent. -/
def KeepsCoherent (x : Build Value) : Prop := ∀ s, Maintains (fun _ => True) x s

theorem shape_coherent (fields : Value) : KeepsCoherent (shape fields) := fun s =>
  (shapeWithFields_maintains fields s).bind fun _ _ _ => .pure trivial

theorem array_coherent (member : Value) : KeepsCoherent (array member) := fun s =>
  (child_maintains _ member s).bind fun made t hmade => by
    have hschema : (Schema.array made.2).Coherent :=
      .of_children trivial fun child hc => List.mem_singleton.mp hc ▸ hmade
    exact .addValidator hschema _

theorem members_maintains (owner : String) (v : Value) (s : Store) :
    Maintains (fun members => ∀ member ∈ members, member.2.Coherent) (members owner v) s := by
  refine .get_bind fun _ => ?_
  have hall : Maintains (fun members => ∀ member ∈ members, member.2.Coherent)
      (forEach v (member owner)) s :=
    forEach_maintains (fun i v s => (child_maintains _ v s).adaptExcept _) v s
  by_cases hrefused : refusesMembers s.heap v = true
  · simp only [hrefused, if_true]
    exact .refuse_bind _ _
  · simp only [hrefused]
    exact hall

/-- A validator over members is coherent if it is as it should be by itself. -/
theorem combine_coherent (node : List Schema → Schema) (hchecked : ∀ members, (node members).Checked)
    (hchildren : ∀ members, (node members).children = members) (owner : String) (v : Value) :
    KeepsCoherent (members owner v >>= addWithMembers node) := by
  intro s
  refine (members_maintains owner v s).bind fun members t hmembers => ?_
  refine (Maintains.allocate (.of_none rfl)).bind fun items u _ => .addValidator ?_ _
  refine .of_children (hchecked _) fun child hc => ?_
  rw [hchildren] at hc
  obtain ⟨member, hm, rfl⟩ := List.mem_map.mp hc
  exact hmembers member hm

theorem tuple_coherent (v : Value) : KeepsCoherent (tuple v) := by
  intro s
  refine .get_bind fun _ => ?_
  have hcombine : KeepsCoherent (members "tuple" v >>= addWithMembers .tuple) :=
    combine_coherent .tuple (fun _ => trivial) (fun _ => rfl) "tuple" v
  by_cases hordered : isOrdered s.heap v = true
  · simp only [hordered]
    exact hcombine s
  · simp only [hordered]
    exact .refuse_bind _ _

/-! ### Logic -/

theorem unionMany_coherent (v : Value) : KeepsCoherent (unionMany v) :=
  combine_coherent .union (fun _ => trivial) (fun _ => rfl) "union" v

theorem intersectMany_coherent (v : Value) : KeepsCoherent (intersectMany v) :=
  combine_coherent .intersection (fun _ => trivial) (fun _ => rfl) "intersection" v

theorem union_coherent (left right : Value) : KeepsCoherent (union left right) := fun _ =>
  (Maintains.allocate (.of_none rfl)).bind fun pair t _ => unionMany_coherent pair t

theorem intersection_coherent (left right : Value) : KeepsCoherent (intersection left right) := fun _ =>
  (Maintains.allocate (.of_none rfl)).bind fun pair t _ => intersectMany_coherent pair t

theorem primitive_coherent (kind : PrimitiveKind) : KeepsCoherent (primitive kind) := fun _ =>
  have hschema : (Schema.primitive kind).Coherent := .of_leaf trivial rfl
  .addValidator hschema _

theorem bare_coherent : KeepsCoherent bare := fun _ =>
  have hschema : Schema.bare.Coherent := .of_leaf trivial rfl
  .addValidator hschema _

theorem optional_coherent (inner : Value) : KeepsCoherent (optional inner) := fun s =>
  (primitive_coherent .undefined s).bind fun made t _ => union_coherent inner made t

theorem nullable_coherent (inner : Value) : KeepsCoherent (nullable inner) := fun s =>
  (primitive_coherent .null s).bind fun made t _ => union_coherent inner made t

/-- The canonical form of a literal is that of its constant. -/
theorem literal_coherent (constant : Value) : KeepsCoherent (literal constant) := by
  intro s
  refine .get_bind fun _ => ?_
  by_cases hcallable : s.heap.isCallable constant = true
  · simp only [hcallable, if_true]
    exact .display_bind fun _ _ => .refuse_bind _ _
  · simp only [hcallable]
    cases hcanonical : s.heap.canonical? constant with
    | none => exact .display_bind fun _ _ => .refuse _
    | some canonical =>
      have hschema : (Schema.literal constant canonical).Coherent :=
        .of_leaf ⟨s.heap, hcanonical⟩ rfl
      exact .addValidator hschema _

theorem predicate_coherent (function name : Value) : KeepsCoherent (predicate function name) := by
  intro s
  refine .get_bind fun _ => (Maintains.ofExcept _).bind fun named t _ => ?_
  cases s.testOf? function with
  | none => exact .display_bind fun _ _ => .refuse _
  | some test => exact .addValidator (coherent_predicate _ _) _

theorem literals_coherent (constants : Value) : KeepsCoherent (literals constants) := by
  intro s
  refine .get_bind fun _ => ?_
  have hall : Maintains (fun _ => True) (do
      let nodes ← forEach constants fun _ constant => literal constant
      unionMany (← allocate (.list nodes))) s := by
    refine (forEach_maintains (fun _ constant s => literal_coherent constant s) constants s).bind
      fun nodes t _ => ?_
    exact (Maintains.allocate (.of_none rfl)).bind fun list u _ => unionMany_coherent list u
  by_cases hrefused : refusesConstants s constants = true
  · simp only [hrefused, if_true]
    exact .display_bind fun _ _ => .refuse_bind _ _
  · simp only [hrefused]
    exact hall

/-! ### Dispatch by a tag -/

theorem variantShape_maintains (definition : Value) (s : Store) :
    Maintains (fun made => (Schema.shape made.2).Coherent) (variantShape definition) s := by
  refine .get_bind fun hs => ?_
  cases hschema : s.schemaOf? definition with
  | none => exact shapeWithFields_maintains definition s
  | some schema =>
    cases schema with
    | shape fields => exact .pure (hs.schema hschema)
    | _ => exact shapeWithFields_maintains definition s

/-- A check changes nothing, and a variant that passes it declares the tag field. -/
theorem checkTagField_maintains (tag key : Label) (fields : List (Label × Schema)) (s : Store) :
    Maintains (fun _ => DeclaresTag tag key fields) (checkTagField tag key fields) s := by
  have hkeeps : Maintains (fun _ => True) (checkTagField tag key fields) s := by
    rw [checkTagField]
    split
    · exact .refuse _
    · refine .get_bind fun _ => ?_
      split
      · exact .display_bind fun _ _ => .refuse _
      · exact .pure trivial
    · exact .pure trivial
  intro hs
  -- the store is maintained in any case, and what the check establishes is known of its result
  have hres := hkeeps hs
  cases hcheck : checkTagField tag key fields s with
  | ok u t =>
    rw [hcheck] at hres
    exact ⟨hres.1, (checkTagField_spec hcheck).2⟩
  | error problem t =>
    rw [hcheck] at hres
    exact hres

theorem variant_maintains (tag key : Label) (definition : Value) (s : Store) :
    Maintains (fun made => made.1 = key ∧ (Schema.shape made.2.2).Coherent ∧
      DeclaresTag tag key made.2.2) (variant tag key definition) s :=
  (variantShape_maintains definition s).bind fun made t hmade =>
    (checkTagField_maintains tag key made.2 t).bind fun _ _ hdeclares =>
      .pure ⟨rfl, hmade, hdeclares⟩

theorem taggedUnion_coherent (tag variants : Value) : KeepsCoherent (taggedUnion tag variants) := by
  intro s
  refine .get_bind fun hs => ?_
  cases htag : tag.label? with
  | none => exact .display_bind fun _ _ => .refuse _
  | some label =>
    cases hm : s.heap.mapping? variants with
    | none =>
      simp only [hm]
      exact .refuse _
    | some m =>
      simp only [hm]
      -- what each variant promises, and the keys that go with the variants, one by one
      refine (forEntries_maintains
        (p := fun entry (rule : Label × Value × List (Label × Schema)) =>
          entry.1.label? = some rule.1 ∧ (Schema.shape rule.2.2).Coherent ∧
            DeclaresTag label rule.1 rule.2.2) (fun entry t => ?_) s).bind fun rules t hrules => ?_
      · cases hkey : entry.1.label? with
        | none => exact .display_bind fun _ _ => .refuse _
        | some key =>
          refine (variant_maintains label key entry.2 t).mono fun made hmade => ?_
          obtain ⟨rfl, hmade⟩ := hmade
          exact ⟨rfl, hmade⟩
      · -- the keys of a dictionary are distinct, and so are the labels that they are read as
        have hnames : DistinctNames rules :=
          distinctNames_of_keys (hs.distinctKeys hm) (hrules.imp fun _ _ h => h.1)
        have hschema :
            (Schema.taggedUnion label (rules.map fun rule => (rule.1, rule.2.2))).Coherent := by
          refine Schema.coherent_taggedUnion (hnames.map Prod.snd) fun variant hv => ?_
          obtain ⟨rule, hr, rfl⟩ := List.mem_map.mp hv
          obtain ⟨entry, -, hentry⟩ := exists_mem_of_forall₂ hrules hr
          exact hentry.2
        have hview : Maintains (fun _ => True)
            (namedView (rules.map fun rule => (rule.1, rule.2.1))) t :=
          .allocate (.of_some rfl (hnames.map Prod.fst).distinctKeys)
        exact hview.bind fun view u _ => .addValidator hschema _

end Build

end Conform
