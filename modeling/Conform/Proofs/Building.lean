import Conform.Proofs.Portraits

namespace Conform

/-!
# Constructions keep a store sound

Whatever a construction is given, it leaves a sound store behind, also where it ends in a problem: what
it adds until then are whole validators, each of which shows nodes that were there before.

* `Build.Ensures` — what a construction comes to in a sound store;
* `Build.Ensures.bind`, `Build.Ensures.allocate`, … — one rule for every way to put constructions together;
* `Build.child_ensures`, `Build.forEach_ensures` — children are validators of their schemas;
* `Build.shape_keeps`, `Build.taggedUnion_keeps`, … — one lemma for every combinator.
-/

variable {α β : Type}

namespace Build

variable {s t : Store}

/-- In a sound store a construction comes to a result with a property, or to a problem; either way the
    store is sound and extended. -/
def Ensures (p : Store → α → Prop) (x : Build α) (s : Store) : Prop :=
  s.Sound →
    match x s with
    | .ok a t => (t.Sound ∧ s.Extends t) ∧ p t a
    | .error _ t => t.Sound ∧ s.Extends t

/-- A construction keeps every sound store sound, and extends it. -/
def Keeps (x : Build α) : Prop := ∀ s, Ensures (fun _ _ => True) x s

/-! ### Rules -/

namespace Ensures

variable {p : Store → α → Prop} {q : Store → β → Prop} {x : Build α}

theorem pure {a : α} (h : s.Sound → p s a) : Ensures p (Pure.pure a) s :=
  fun hs => ⟨⟨hs, .refl s⟩, h hs⟩

theorem refuse (misuse : Misuse) : Ensures p (refuse misuse) s := fun hs => ⟨hs, .refl s⟩

theorem throw (problem : Problem) : Ensures p (MonadExcept.throw problem : Build α) s :=
  fun hs => ⟨hs, .refl s⟩

theorem mono {q : Store → α → Prop} (hx : Ensures p x s)
    (h : ∀ a t, s.Extends t → p t a → q t a) : Ensures q x s := by
  intro hs
  have hres := hx hs
  cases hxs : x s with
  | ok a t =>
    rw [hxs] at hres
    exact ⟨hres.1, h a t hres.1.2 hres.2⟩
  | error problem t =>
    rw [hxs] at hres
    exact hres

theorem keeps (hx : Ensures p x s) : Ensures (fun _ _ => True) x s :=
  hx.mono fun _ _ _ _ => trivial

/-- The second part of a sequence starts from a store in which the first one has a result. -/
theorem bind {f : α → Build β} (hx : Ensures p x s)
    (hf : ∀ a t, s.Extends t → p t a → Ensures q (f a) t) : Ensures q (x >>= f) s := by
  intro hs
  have hres := hx hs
  show match EStateM.bind x f s with
    | .ok b u => (u.Sound ∧ s.Extends u) ∧ q u b
    | .error _ u => u.Sound ∧ s.Extends u
  rw [EStateM.bind]
  cases hxs : x s with
  | error problem t =>
    rw [hxs] at hres
    exact hres
  | ok a t =>
    rw [hxs] at hres
    obtain ⟨⟨ht, hst⟩, hp⟩ := hres
    have hafter := hf a t hst hp ht
    dsimp only
    cases hfa : f a t with
    | ok b u =>
      rw [hfa] at hafter
      exact ⟨⟨hafter.1.1, hst.trans hafter.1.2⟩, hafter.2⟩
    | error problem u =>
      rw [hfa] at hafter
      exact ⟨hafter.1, hst.trans hafter.2⟩

theorem get_bind {f : Store → Build β} (h : Ensures q (f s) s) : Ensures q (get >>= f) s := h

theorem ofExcept {result : Except Problem α} (h : ∀ a, p s a) : Ensures p (ofExcept result) s := by
  intro hs
  cases result with
  | ok a => exact ⟨⟨hs, .refl s⟩, h a⟩
  | error problem => exact ⟨hs, .refl s⟩

/-- What is shown of a value, is shown without a change. -/
theorem display_bind {v : Value} {f : Text → Build β} (h : ∀ shown, Ensures q (f shown) s) :
    Ensures q (display v >>= f) s := by
  have hdisplay : Ensures (fun t _ => t = s) (display v) s := .get_bind (.ofExcept fun _ => rfl)
  refine hdisplay.bind fun shown t _ hsame => ?_
  subst hsame
  exact h shown

/-- Nothing comes after a misuse. -/
theorem refuse_bind (misuse : Misuse) (f : α → Build β) :
    Ensures q (Build.refuse misuse >>= f) s :=
  bind (p := fun _ _ => False) (refuse misuse) fun _ _ _ h => h.elim

/-- A new object that is no validator is found at its address. -/
theorem allocate {c : Cell} (hc : ∀ portrait, c ≠ .validator portrait) (s : Store) :
    Ensures (fun t v => t.Shows t.heap.next v c) (allocate c) s := by
  intro hs
  exact ⟨s.evolves_push hc hs, s.heap.next, by simp, rfl, s.heap.cell_push_next c⟩

theorem replace {a : Addr} {c : Cell} (h : (s.heap.cell a).Later c) :
    Ensures (fun _ _ => True) (replace a c) s :=
  fun hs => ⟨Store.evolves_set h hs, trivial⟩

/-- A new validator shows its schema. -/
theorem addValidator {schema : Schema} {attributes : List (String × Attribute)}
    (h : s.Sound → s.Portrays s.heap.next schema attributes) :
    Ensures (fun t v => t.Names v schema) (addValidator schema attributes) s := by
  intro hs
  rw [addValidator_eq]
  exact ⟨Store.evolves_addValidator (h hs) hs, s.heap.next, by simp, rfl, by simp⟩

/-- It does not matter what becomes of a problem. -/
theorem adaptExcept (change : Problem → Problem) (hx : Ensures p x s) :
    Ensures p (x.adaptExcept change) s := by
  intro hs
  have hres := hx hs
  rw [EStateM.adaptExcept]
  cases hxs : x s with
  | ok a t =>
    rw [hxs] at hres
    exact hres
  | error problem t =>
    rw [hxs] at hres
    exact hres

end Ensures

/-! ### Children -/

/-- A child is a validator of its schema. -/
theorem child_ensures (place : Text) (v : Value) (s : Store) :
    Ensures (fun t made => t.Names made.1 made.2) (child place v) s := by
  refine .get_bind ?_
  cases hschema : s.schemaOf? v with
  | some schema => exact .pure fun hs => hs.names hschema
  | none =>
    cases s.testOf? v with
    | some test =>
      exact (Ensures.addValidator fun _ => .predicate).bind fun made t _ hmade => .pure fun _ => hmade
    | none => exact .display_bind fun _ => .refuse _

/-- Names of validators stay. -/
theorem forall_names_later {γ : Type} {l : List γ} {node : γ → Value} {schema : γ → Schema}
    (hst : s.Extends t) (h : ∀ c ∈ l, s.Names (node c) (schema c)) :
    ∀ c ∈ l, t.Names (node c) (schema c) :=
  fun c hc => (h c hc).later hst.toGrows

section Lists

variable {p : Store → α → Prop} (hlater : ∀ s t a, s.Extends t → p s a → p t a)
include hlater

/-- What holds of the first result, and of the others, holds of all of them. -/
theorem cons_ensures {x : Build α} {rest : Build (List α)} (hx : Ensures p x s)
    (hrest : ∀ t, s.Extends t → Ensures (fun u results => ∀ a ∈ results, p u a) rest t) :
    Ensures (fun u results => ∀ a ∈ results, p u a)
      (do
        let first ← x
        return first :: (← rest) : Build (List α)) s := by
  refine hx.bind fun first t hst hfirst => (hrest t hst).bind fun others u htu hothers => ?_
  exact .pure fun _ => List.forall_mem_cons.mpr ⟨hlater t u first htu hfirst, hothers⟩

theorem forItems_ensures {step : Nat → Value → Build α} (hstep : ∀ i v s, Ensures p (step i v) s)
    (i : Nat) (items : List Value) (s : Store) :
    Ensures (fun t results => ∀ a ∈ results, p t a) (forItems step i items) s := by
  induction items generalizing i s with
  | nil => exact .pure fun _ _ ha => absurd ha List.not_mem_nil
  | cons item items ih => exact cons_ensures hlater (hstep i item s) fun t _ => ih (i + 1) t

/-- A stream stays a stream while its items are taken. -/
theorem forStream_ensures {step : Nat → Value → Build α} (hstep : ∀ i v s, Ensures p (step i v) s)
    (a : Addr) (i : Nat) (items : List Value) {left : List Value}
    (hcell : s.heap.cell a = .stream left) :
    Ensures (fun t results => ∀ a ∈ results, p t a) (forStream a step i items) s := by
  induction items generalizing i s left with
  | nil => exact .pure fun _ _ ha => absurd ha List.not_mem_nil
  | cons item items ih =>
    have ha : a < s.heap.next := by
      by_contra hle
      rw [Heap.cell_of_le (Nat.not_lt.mp hle)] at hcell
      cases hcell
    refine (Ensures.replace (by rw [hcell]; exact .stream)).bind fun _ t hst _ => ?_
    refine cons_ensures hlater (hstep i item t) fun u htu => ?_
    have hlaterCell := (hst.trans htu).cells a ha
    rw [hcell] at hlaterCell
    generalize hu : u.heap.cell a = c at hlaterCell
    cases hlaterCell <;> exact ih (i + 1) hu

theorem forEach_ensures {step : Nat → Value → Build α} (hstep : ∀ i v s, Ensures p (step i v) s)
    (v : Value) (s : Store) :
    Ensures (fun t results => ∀ a ∈ results, p t a) (forEach v step) s := by
  refine .get_bind ?_
  cases v with
  | ref a =>
    simp only [Heap.cellOf?, Value.addr?, Option.map_some]
    cases hcell : s.heap.cell a with
    | list items | tuple items | set items | frozenSet items =>
      exact forItems_ensures hlater hstep 0 items s
    | stream items => exact forStream_ensures hlater hstep a 0 items hcell
    | options logFailures sink =>
      refine (Ensures.allocate (by simp) s).bind fun log t _ _ => ?_
      refine (Ensures.allocate (by simp) t).bind fun sink u _ _ => ?_
      exact forItems_ensures hlater hstep 0 _ u
    | _ => exact .refuse _
  | _ => exact .refuse _

theorem forEntries_ensures {m : Mapping} {step : Value → Value → Build α}
    (hstep : ∀ key value s, Ensures p (step key value) s) (s : Store) :
    Ensures (fun t results => ∀ a ∈ results, p t a) (forEntries m step) s := by
  rw [forEntries]
  induction m.entries generalizing s with
  | nil => exact .pure fun _ _ ha => absurd ha List.not_mem_nil
  | cons entry entries ih =>
    rw [List.mapM_cons]
    refine cons_ensures hlater (.get_bind ?_) fun t _ => ih t
    cases s.heap.readFault? m entry.1 with
    | some fault => exact .throw _
    | none => exact hstep entry.1 entry.2 s

end Lists

/-! ### Structure -/

/-- The nodes of fields are validators of their schemas. -/
theorem fieldRules_ensures (owner : String) (fields : Value) (s : Store) :
    Ensures (fun t rules => ∀ rule ∈ rules, t.Names rule.2.1 rule.2.2) (fieldRules owner fields) s := by
  refine .get_bind ?_
  cases hm : s.heap.mapping? fields with
  | none =>
    simp only [hm]
    exact .refuse _
  | some m =>
    simp only [hm]
    refine forEntries_ensures
      (p := fun t (rule : Label × Value × Schema) => t.Names rule.2.1 rule.2.2)
      (fun s t rule hst h => h.later hst.toGrows) (fun key value s => ?_) s
    cases key.label? with
    | none => exact .display_bind fun _ => .refuse _
    | some name => exact (child_ensures _ value s).bind fun made t _ hmade => .pure fun _ => hmade

theorem shapeWithFields_ensures (fields : Value) (s : Store) :
    Ensures (fun t made => t.Names made.1 (.shape made.2)) (shapeWithFields fields) s := by
  refine (fieldRules_ensures "shape" fields s).bind fun rules t _ hrules => ?_
  refine (Ensures.allocate (by simp) t).bind fun view u htu hview => ?_
  refine (Ensures.addValidator fun _ => ?_).bind fun made w _ hmade => .pure fun _ => hmade
  rw [List.map_map] at hview
  exact .shape hview (forall_names_later htu hrules)

theorem shape_keeps (fields : Value) : Keeps (shape fields) := fun s =>
  (shapeWithFields_ensures fields s).bind fun _ _ _ _ => .pure fun _ => trivial

theorem array_keeps (member : Value) : Keeps (array member) := fun s =>
  (child_ensures _ member s).bind fun _ _ _ hmade => (Ensures.addValidator fun _ => .array hmade).keeps

theorem members_ensures (owner : String) (v : Value) (s : Store) :
    Ensures (fun t members => ∀ member ∈ members, t.Names member.1 member.2) (members owner v) s := by
  refine .get_bind ?_
  have hall : Ensures (fun t members => ∀ member ∈ members, t.Names member.1 member.2)
      (forEach v (member owner)) s :=
    forEach_ensures (fun s t member hst h => h.later hst.toGrows)
      (fun i v s => (child_ensures _ v s).adaptExcept _) v s
  by_cases hrefused : refusesMembers s.heap v = true
  · simp only [hrefused, if_true]
    exact .refuse_bind _ _
  · simp only [hrefused]
    exact hall

section Members

variable {node : List Schema → Schema}
  (hnode : ∀ (s : Store) (bound : Addr) (members : List (Value × Schema)) (items : Value),
    s.Shows bound items (.tuple (members.map Prod.fst)) →
    (∀ member ∈ members, s.NamesBelow bound member.1 member.2) →
    s.Portrays bound (node (members.map Prod.snd)) [("members", .value items)])
include hnode

theorem addWithMembers_keeps {children : List (Value × Schema)}
    (h : ∀ member ∈ children, s.Names member.1 member.2) :
    Ensures (fun _ _ => True) (addWithMembers node children) s := by
  refine (Ensures.allocate (by simp) s).bind fun items t hst hitems => ?_
  refine (Ensures.addValidator fun _ => ?_).keeps
  exact hnode t _ children items hitems (forall_names_later hst h)

theorem combine_keeps (owner : String) (v : Value) :
    Keeps (members owner v >>= addWithMembers node) := fun s =>
  (members_ensures owner v s).bind fun _ _ _ hmembers => addWithMembers_keeps hnode hmembers

end Members

theorem tuple_keeps (v : Value) : Keeps (tuple v) := by
  intro s
  refine .get_bind ?_
  have hcombine : Keeps (members "tuple" v >>= addWithMembers .tuple) :=
    combine_keeps (fun _ _ _ _ => .tuple) "tuple" v
  by_cases hordered : isOrdered s.heap v = true
  · simp only [hordered]
    exact hcombine s
  · simp only [hordered]
    exact .refuse_bind _ _

/-! ### Logic -/

theorem unionMany_keeps (v : Value) : Keeps (unionMany v) :=
  combine_keeps (fun _ _ _ _ => .union) "union" v

theorem intersectMany_keeps (v : Value) : Keeps (intersectMany v) :=
  combine_keeps (fun _ _ _ _ => .intersection) "intersection" v

theorem union_keeps (left right : Value) : Keeps (union left right) := fun s =>
  (Ensures.allocate (by simp) s).bind fun pair t _ _ => unionMany_keeps pair t

theorem intersection_keeps (left right : Value) : Keeps (intersection left right) := fun s =>
  (Ensures.allocate (by simp) s).bind fun pair t _ _ => intersectMany_keeps pair t

theorem primitive_keeps (kind : PrimitiveKind) : Keeps (primitive kind) := fun _ =>
  (Ensures.addValidator fun _ => .primitive).keeps

theorem bare_keeps : Keeps bare := fun _ => (Ensures.addValidator fun _ => .bare).keeps

theorem optional_keeps (inner : Value) : Keeps (optional inner) := fun s =>
  (primitive_keeps .undefined s).bind fun made t _ _ => union_keeps inner made t

theorem nullable_keeps (inner : Value) : Keeps (nullable inner) := fun s =>
  (primitive_keeps .null s).bind fun made t _ _ => union_keeps inner made t

theorem literal_keeps (constant : Value) : Keeps (literal constant) := by
  intro s
  refine .get_bind ?_
  by_cases hcallable : s.heap.isCallable constant = true
  · simp only [hcallable, if_true]
    exact .display_bind fun _ => .refuse_bind _ _
  · simp only [hcallable]
    cases s.heap.canonical? constant with
    | none => exact .display_bind fun _ => .refuse _
    | some canonical => exact (Ensures.addValidator fun _ => .literal).keeps

theorem predicate_keeps (function name : Value) : Keeps (predicate function name) := by
  intro s
  refine .get_bind ?_
  refine (Ensures.ofExcept (p := fun _ _ => True) fun _ => trivial).bind fun named t _ _ => ?_
  cases s.testOf? function with
  | none => exact .display_bind fun _ => .refuse _
  | some test => exact (Ensures.addValidator fun _ => .predicate).keeps

theorem literals_keeps (constants : Value) : Keeps (literals constants) := by
  intro s
  refine .get_bind ?_
  have hall : Ensures (fun _ _ => True) (do
      let nodes ← forEach constants fun _ constant => literal constant
      unionMany (← allocate (.list nodes))) s := by
    refine (forEach_ensures (p := fun _ _ => True) (fun _ _ _ _ _ => trivial)
      (fun _ constant s => literal_keeps constant s) constants s).bind fun nodes t _ _ => ?_
    exact (Ensures.allocate (by simp) t).bind fun list u _ _ => unionMany_keeps list u
  by_cases hrefused : refusesConstants s constants = true
  · simp only [hrefused, if_true]
    exact .display_bind fun _ => .refuse_bind _ _
  · simp only [hrefused]
    exact hall

/-! ### Dispatch by a tag -/

/-- The node of a variant is the validator of a shape. -/
theorem variantShape_ensures (definition : Value) (s : Store) :
    Ensures (fun t made => t.Names made.1 (.shape made.2)) (variantShape definition) s := by
  refine .get_bind ?_
  cases hschema : s.schemaOf? definition with
  | none => exact shapeWithFields_ensures definition s
  | some schema =>
    cases schema with
    | shape fields => exact .pure fun hs => hs.names hschema
    | _ => exact shapeWithFields_ensures definition s

theorem checkTagField_keeps (tag key : Label) (fields : List (Label × Schema)) :
    Keeps (checkTagField tag key fields) := by
  intro s
  rw [checkTagField]
  split
  · exact .refuse _
  · refine .get_bind ?_
    split
    · exact .display_bind fun _ => .refuse _
    · exact .pure fun _ => trivial
  · exact .pure fun _ => trivial

theorem variant_ensures (tag key : Label) (definition : Value) (s : Store) :
    Ensures (fun t made => t.Names made.2.1 (.shape made.2.2)) (variant tag key definition) s := by
  refine (variantShape_ensures definition s).bind fun made t _ hmade => ?_
  refine (checkTagField_keeps tag key made.2 t).bind fun _ u htu _ => ?_
  exact .pure fun _ => hmade.later htu.toGrows

theorem taggedUnion_keeps (tag variants : Value) : Keeps (taggedUnion tag variants) := by
  intro s
  refine .get_bind ?_
  cases htag : tag.label? with
  | none => exact .display_bind fun _ => .refuse _
  | some label =>
    cases hm : s.heap.mapping? variants with
    | none =>
      simp only [hm]
      exact .refuse _
    | some m =>
      simp only [hm]
      -- the variants are nodes in any store that comes later
      refine (forEntries_ensures
        (p := fun t (made : Label × Value × List (Label × Schema)) =>
          t.Names made.2.1 (.shape made.2.2))
        (fun s t made hst h => h.later hst.toGrows) (fun key definition s => ?_) s).bind
        fun made t _ hmade => ?_
      · cases key.label? with
        | none => exact .display_bind fun _ => .refuse _
        | some key => exact variant_ensures label key definition s
      · refine (Ensures.allocate (by simp) t).bind fun view u htu hview => ?_
        refine (Ensures.addValidator fun _ => ?_).keeps
        rw [List.map_map] at hview
        exact .taggedUnion hview (forall_names_later htu hmade)

end Build

end Conform
