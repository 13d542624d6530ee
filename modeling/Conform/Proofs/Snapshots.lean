import Conform.Proofs.Locality
import Conform.Proofs.ScriptSteps

namespace Conform

open Relation Script SessionM

/-!
# Schemas as snapshots

A validator is made from lists and dictionaries of its caller, but keeps none of them.  Whatever is
assigned or appended there later, and whatever the caller tries to assign to validators or to their
attributes, every validator stays the one that it was.

* `Store.Depicts`, `Store.ChildOf` — what a node shows of itself, and the nodes that it is made of;
* `Store.Sound.lt_of_childOf` — every node was made before those that it is a child of;
* `Operation.IsWrite`, `Operation.WritesTo` — assignments of any kind, and those to one node;
* `Session.Forbids` — a write that ends in a problem, without any effect of its own;
* `forbids_of_writesTo` — nodes are not written to;
* `schemas_are_snapshots` — nodes are the same after any writes, for all values that are untouched.
-/

/-! ### Nodes and their children -/

/-- What a read-only container keeps in the place of children. -/
def Cell.kept : Cell → List Value
  | .tuple items => items
  | .view entries => entries.map Prod.snd
  | _ => []

/-- Objects to which nothing can be assigned. -/
def Cell.IsFixed : Cell → Prop
  | .tuple _ | .view _ | .validator _ => True
  | _ => False

namespace Store

/-- The attributes in which a node has its children. -/
def childNames : List String := ["fields", "member", "members", "variants"]

/-- A node is an object that shows its schema by its attributes. -/
def Depicts (s : Store) (node : Value) (schema : Schema) (attributes : List (String × Attribute)) :
    Prop :=
  ∃ a, node = .ref a ∧ s.heap.cell a = .validator ⟨schema.className, attributes⟩ ∧
    s.Portrays a schema attributes

/-- A value stands among the children of a node: by itself, or in the container that keeps them. -/
inductive ChildOf (s : Store) : Value → Value → Prop where
  | own {a : Addr} {portrait : Portrait} {name : String} {child : Value}
    (hcell : s.heap.cell a = .validator portrait) (hname : name ∈ childNames)
    (hchild : (name, .value child) ∈ portrait.attributes) : ChildOf s child (.ref a)
  | kept {a b : Addr} {portrait : Portrait} {name : String} {child : Value}
    (hcell : s.heap.cell a = .validator portrait) (hname : name ∈ childNames)
    (hcontainer : (name, .value (.ref b)) ∈ portrait.attributes)
    (hchild : child ∈ (s.heap.cell b).kept) : ChildOf s child (.ref a)

variable {s : Store} {bound : Addr} {schema : Schema} {attributes : List (String × Attribute)}
  {name : String} {v w node : Value}

theorem Sound.exists_depicts (hs : s.Sound) (hnode : s.schemaOf? node = some schema) :
    ∃ attributes, s.Depicts node schema attributes := by
  obtain ⟨a, -, rfl, hlookup⟩ := hs.names hnode
  obtain ⟨attributes, hcell, hportrays⟩ := hs.portrayed a schema hlookup
  exact ⟨attributes, a, rfl, hcell, hportrays⟩

/-- What a node shows, it goes on showing. -/
theorem Depicts.later {t : Store} (h : s.Depicts node schema attributes) (hs : s.Sound)
    (hst : s.Extends t) (hnode : s.schemaOf? node = some schema) :
    t.Depicts node schema attributes := by
  obtain ⟨a, ha, rfl, -⟩ := hs.names hnode
  obtain ⟨b, hb, hcell, hportrays⟩ := h
  cases hb
  have hshows : s.Shows s.heap.next (.ref a) (.validator ⟨schema.className, attributes⟩) :=
    ⟨a, ha, rfl, hcell⟩
  obtain ⟨b, -, hb, hcell'⟩ := hshows.later hst (Nat.le_refl _) (by rintro _ ⟨⟩; rfl)
  cases hb
  exact ⟨a, rfl, hcell', hportrays.later hst (Nat.le_of_lt ha)⟩

/-- A container of values which are validators that were made before. -/
theorem below_of_shows {c : Cell} (h : s.Shows bound v c) (hc : c.IsFixed)
    (hkept : ∀ w ∈ c.kept, ∃ rule, s.NamesBelow bound w rule) :
    ∃ a < bound, v = .ref a ∧ (s.heap.cell a).IsFixed ∧
      ∀ w ∈ (s.heap.cell a).kept, ∃ b < bound, w = .ref b := by
  obtain ⟨a, ha, rfl, rfl⟩ := h
  refine ⟨a, ha, rfl, hc, fun w hw => ?_⟩
  obtain ⟨rule, b, hb, rfl, -⟩ := hkept w hw
  exact ⟨b, hb, rfl⟩

/-- What stands in an attribute for children is fixed, and was made before the node, as were the children
    themselves. -/
theorem Portrays.below (hs : s.Sound) (h : s.Portrays bound schema attributes)
    (hname : name ∈ childNames) (hv : (name, .value v) ∈ attributes) :
    ∃ a < bound, v = .ref a ∧ (s.heap.cell a).IsFixed ∧
      ∀ w ∈ (s.heap.cell a).kept, ∃ b < bound, w = .ref b := by
  cases h with
  | shape hview hrules =>
    obtain ⟨-, rfl⟩ : name = "fields" ∧ v = _ := by simpa using hv
    refine below_of_shows hview trivial fun w hw => ?_
    obtain ⟨_, hentry, rfl⟩ := List.mem_map.mp hw
    obtain ⟨rule, hrule, rfl⟩ := List.mem_map.mp hentry
    exact ⟨_, hrules rule hrule⟩
  | array hnode =>
    obtain ⟨-, rfl⟩ : name = "member" ∧ v = _ := by simpa using hv
    obtain ⟨a, ha, rfl, hlookup⟩ := hnode
    obtain ⟨shown, hcell, -⟩ := hs.portrayed a _ hlookup
    refine ⟨a, ha, rfl, ?_⟩
    rw [hcell]
    exact ⟨trivial, nofun⟩
  | tuple hitems hmembers | union hitems hmembers | intersection hitems hmembers =>
    obtain ⟨-, rfl⟩ : name = "members" ∧ v = _ := by simpa using hv
    refine below_of_shows hitems trivial fun w hw => ?_
    obtain ⟨member, hm, rfl⟩ := List.mem_map.mp hw
    exact ⟨_, hmembers member hm⟩
  | taggedUnion hview hvariants =>
    obtain ⟨rfl, -⟩ | ⟨-, rfl⟩ : (name = "tag" ∧ v = _) ∨ (name = "variants" ∧ v = _) := by
      simpa using hv
    · exact absurd hname (by decide)
    · refine below_of_shows hview trivial fun w hw => ?_
      obtain ⟨_, hentry, rfl⟩ := List.mem_map.mp hw
      obtain ⟨variant, hvariant, rfl⟩ := List.mem_map.mp hentry
      exact ⟨_, hvariants variant hvariant⟩
  -- these have no attribute that holds nodes
  | primitive => cases List.mem_singleton.mp hv
  | literal =>
    obtain ⟨rfl, -⟩ : name = "constant" ∧ v = _ := by simpa using hv
    exact absurd hname (by decide)
  | predicate =>
    obtain ⟨rfl, -⟩ | ⟨rfl, -⟩ : (name = "func" ∧ v = _) ∨ (name = "name" ∧ v = _) := by
      simpa using hv
    · exact absurd hname (by decide)
    · exact absurd hname (by decide)
  | bare => cases hv

theorem Sound.below (hs : s.Sound) {a : Addr} {portrait : Portrait}
    (hcell : s.heap.cell a = .validator portrait) (hname : name ∈ childNames)
    (hv : (name, .value v) ∈ portrait.attributes) :
    ∃ b < a, v = .ref b ∧ ∀ w ∈ (s.heap.cell b).kept, ∃ c < a, w = .ref c := by
  obtain ⟨schema, hlookup⟩ := hs.known a portrait hcell
  obtain ⟨attributes, hcell', hportrays⟩ := hs.portrayed a schema hlookup
  obtain rfl := Cell.validator.inj (hcell.symm.trans hcell')
  obtain ⟨b, hb, rfl, -, hkept⟩ := hportrays.below hs hname hv
  exact ⟨b, hb, rfl, hkept⟩

/-- Every node was made before those that it is a child of. -/
theorem Sound.lt_of_childOf (hs : s.Sound) (h : s.ChildOf v w) :
    ∃ a b, v = .ref a ∧ w = .ref b ∧ a < b := by
  cases h with
  | own hcell hname hchild =>
    obtain ⟨b, hb, rfl, -⟩ := hs.below hcell hname hchild
    exact ⟨b, _, rfl, rfl, hb⟩
  | kept hcell hname hcontainer hchild =>
    obtain ⟨b, -, hcontainer, hkept⟩ := hs.below hcell hname hcontainer
    cases hcontainer
    obtain ⟨c, hc, rfl⟩ := hkept _ hchild
    exact ⟨c, _, rfl, rfl, hc⟩

/-- So no node is among the nodes that it is made of. -/
theorem Sound.not_transGen_childOf (hs : s.Sound) (node : Value) :
    ¬ TransGen s.ChildOf node node := by
  have hlt {v w : Value} (h : TransGen s.ChildOf v w) : ∃ a b, v = .ref a ∧ w = .ref b ∧ a < b := by
    induction h with
    | single h => exact hs.lt_of_childOf h
    | tail _ h ih =>
      obtain ⟨a, b, rfl, rfl, hab⟩ := ih
      obtain ⟨b', c, hb, rfl, hbc⟩ := hs.lt_of_childOf h
      cases hb
      exact ⟨a, c, rfl, rfl, Nat.lt_trans hab hbc⟩
  intro h
  obtain ⟨a, b, rfl, hb, hab⟩ := hlt h
  cases hb
  exact Nat.lt_irrefl a hab

/-- Apart from the constant of a literal, and from what the caller gave to a predicate, only a string
    stands in any other attribute. -/
theorem Portrays.addr?_eq_none (h : s.Portrays bound schema attributes)
    (hpure : ∀ test name, schema ≠ .predicate test name)
    (hconstant : schema.className = "Literal" → name ≠ "constant") (hname : name ∉ childNames)
    (hv : (name, .value v) ∈ attributes) : v.addr? = none := by
  cases h with
  | literal =>
    obtain ⟨rfl, -⟩ : name = "constant" ∧ v = _ := by simpa using hv
    exact absurd rfl (hconstant rfl)
  | predicate => exact absurd rfl (hpure _ _)
  | @taggedUnion tag variants view hview hvariants =>
    obtain ⟨-, rfl⟩ | ⟨rfl, -⟩ : (name = "tag" ∧ v = _) ∨ (name = "variants" ∧ v = _) := by
      simpa using hv
    · -- a tag is a string, and never an object
      cases tag <;> rfl
    · exact absurd (by decide) hname
  | shape hview hrules =>
    obtain ⟨rfl, -⟩ : name = "fields" ∧ v = _ := by simpa using hv
    exact absurd (by decide) hname
  | array hnode =>
    obtain ⟨rfl, -⟩ : name = "member" ∧ v = _ := by simpa using hv
    exact absurd (by decide) hname
  | tuple hitems hmembers | union hitems hmembers | intersection hitems hmembers =>
    obtain ⟨rfl, -⟩ : name = "members" ∧ v = _ := by simpa using hv
    exact absurd (by decide) hname
  | primitive => cases List.mem_singleton.mp hv
  | bare => cases hv

/-- Nothing can be assigned to what stands in an attribute, apart from the constant of a literal. -/
theorem Portrays.isFixed (hs : s.Sound) (h : s.Portrays bound schema attributes)
    (hpure : ∀ test name, schema ≠ .predicate test name)
    (hconstant : schema.className = "Literal" → name ≠ "constant")
    (hv : (name, .value v) ∈ attributes) {c : Cell} (hc : s.heap.cellOf? v = some c) :
    c.IsFixed := by
  by_cases hname : name ∈ childNames
  · obtain ⟨a, -, rfl, hfixed, -⟩ := h.below hs hname hv
    obtain rfl := Option.some.inj hc
    exact hfixed
  · rw [Heap.cellOf?, h.addr?_eq_none hpure hconstant hname hv] at hc
    cases hc

end Store

/-! ### Writes to nodes -/

section Writes

variable {s : Session} {node part : Value} {schema : Schema} (key v : Value)

/-- Nothing is assigned to what is fixed, nor to what is no object. -/
theorem assignItem_of_isFixed (h : ∀ c, s.store.heap.cellOf? part = some c → c.IsFixed) :
    ∃ problem, assignItem part key v s = .error problem s := by
  refine ⟨.misuse (.readOnly (s.store.heap.operandTypeName part)), ?_⟩
  rw [assignItem, SessionM.get_bind]
  cases part with
  | ref a =>
    have hfixed : (s.store.heap.cell a).IsFixed := h _ rfl
    dsimp only [Heap.cellOf?, Value.addr?, Option.map_some]
    cases hcell : s.store.heap.cell a with
    | list _ | dict _ | orderedDict _ =>
      rw [hcell] at hfixed
      cases hfixed
    | _ => rfl
  | _ => rfl

/-- Nor is anything appended there. -/
theorem appendItem_of_isFixed (h : ∀ c, s.store.heap.cellOf? part = some c → c.IsFixed) :
    ∃ problem, appendItem part v s = .error problem s := by
  refine ⟨.misuse (missingAttribute s.store.heap part "append"), ?_⟩
  rw [appendItem, SessionM.get_bind]
  cases part with
  | ref a =>
    have hfixed : (s.store.heap.cell a).IsFixed := h _ rfl
    dsimp only [Heap.cellOf?, Value.addr?, Option.map_some]
    cases hcell : s.store.heap.cell a with
    | list _ =>
      rw [hcell] at hfixed
      cases hfixed
    | _ => rfl
  | _ => rfl

section Nodes

variable {attributes : List (String × Attribute)} (hs : s.store.Sound)
  (hnode : s.store.schemaOf? node = some schema)
include hs hnode

theorem isFixed_of_node {c : Cell} (hc : s.store.heap.cellOf? node = some c) : c.IsFixed := by
  obtain ⟨attributes, a, rfl, hcell, -⟩ := hs.exists_depicts hnode
  obtain rfl := Option.some.inj hc
  rw [hcell]
  trivial

theorem assignField_of_node (field : String) :
    assignField node field s = .error (.frozen field) s := by
  obtain ⟨attributes, a, rfl, hcell, -⟩ := hs.exists_depicts hnode
  rw [assignField, SessionM.get_bind]
  dsimp only [Heap.cellOf?, Value.addr?, Option.map_some]
  rw [hcell]
  rfl

theorem assignFieldItem_of_node {field : String} (hpure : ∀ test name, schema ≠ .predicate test name)
    (hconstant : schema.className = "Literal" → field ≠ "constant") :
    ∃ problem, assignFieldItem node field key v s = .error problem s := by
  obtain ⟨attributes, a, rfl, hcell, hportrays⟩ := hs.exists_depicts hnode
  rw [assignFieldItem, SessionM.get_bind]
  dsimp only [Heap.cellOf?, Value.addr?, Option.map_some]
  rw [hcell, hnode]
  dsimp only
  cases hlookup : attributes.lookup field with
  | some shown =>
    cases shown with
    | text shown => exact ⟨_, rfl⟩
    | value part =>
      obtain ⟨front, back, rfl, -⟩ := List.lookup_eq_some_iff.mp hlookup
      have hpart : (field, .value part) ∈ front ++ (field, .value part) :: back :=
        List.mem_append_right _ List.mem_cons_self
      exact assignItem_of_isFixed key v fun c hc => hportrays.isFixed hs hpure hconstant hpart hc
  | none =>
    cases schema with
    | literal constant canonical =>
      -- the canonical form is no attribute that is shown, but it can be named
      by_cases hcanonical : field = "canonical"
      · simp only [if_pos hcanonical]
        exact assignItem_of_isFixed key v fun c hc => nomatch (show none = some c from hc)
      · simp only [if_neg hcanonical]
        exact ⟨_, rfl⟩
    | _ => exact ⟨_, rfl⟩

end Nodes

end Writes

/-! ### Writes as steps -/

/-- The operations that assign to an object, append to it, or try to. -/
def Script.Operation.IsWrite : Operation → Prop
  | .setItem _ _ _ | .append _ _ | .setField _ _ _ | .setFieldItem _ _ _ _ => True
  | _ => False

/-- What a write evaluates when its object is found. -/
def Script.Operation.operands : Operation → List Expression
  | .setItem _ key value | .setFieldItem _ _ key value => [key, value]
  | .append _ value | .setField _ _ value => [value]
  | _ => []

/-- The writes to a node of some schema, by a name that it is bound to, and to its attributes.  The
    constant of a literal is not among these: it is an object of the caller. -/
inductive Script.Operation.WritesTo (id : String) (schema : Schema) : Operation → Prop where
  | item (key value : Expression) : WritesTo id schema (.setItem id key value)
  | append (value : Expression) : WritesTo id schema (.append id value)
  | field (field : String) (value : Expression) : WritesTo id schema (.setField id field value)
  | fieldItem {field : String} (key value : Expression)
    (hconstant : schema.className = "Literal" → field ≠ "constant") :
    WritesTo id schema (.setFieldItem id field key value)

/-- A write ends in a problem, and changes nothing beyond what the evaluation of its operands does. -/
def Session.Forbids (s : Session) (op : Operation) : Prop :=
  ∃ problem, (step s op).1.result = .error problem ∧
    (step s op).2 = after (evalItems .undefined op.operands) { s with journal := .empty }

section Steps

variable {s t : Session} {node : Value} {schema : Schema} {id : String} {op : Operation}

/-- A node stays a node of its schema. -/
theorem Session.Leads.node_later (h : s.Leads t) (hs : s.store.Sound)
    (hnode : s.store.schemaOf? node = some schema) :
    t.store.Sound ∧ t.store.schemaOf? node = some schema := by
  obtain ⟨ht, hst⟩ := h.store hs
  exact ⟨ht, ((hs.names hnode).later hst.toGrows).schemaOf?⟩

/-- The operands are evaluated one after the other, before the write is tried. -/
theorem exists_error_of_operand {α : Type} {e : Expression} {rest : List Expression}
    {f : Value → SessionM α}
    (h : ∀ v t, s.Leads t → ∃ problem,
      f v t = .error problem (after (evalItems .undefined rest) t)) :
    ∃ problem, (eval e >>= f) s = .error problem (after (evalItems .undefined (e :: rest)) s) := by
  have hitems : evalItems .undefined (e :: rest) =
      eval e >>= fun v => evalItems .undefined rest >>= fun vs => pure (v :: vs) := by
    rw [evalItems]
    rfl
  rw [hitems, after]
  -- an operand that cannot be evaluated ends both in the same session
  cases he : eval e s with
  | error problem t =>
    rw [SessionM.bind_of_error he, SessionM.bind_of_error he]
    exact ⟨problem, rfl⟩
  | ok v t =>
    obtain ⟨problem, hf⟩ := h v t ((eval_orderly _ e s).regular.leads_of_ok he)
    rw [SessionM.bind_of_ok he, SessionM.bind_of_ok he, hf, after]
    refine ⟨problem, ?_⟩
    cases hrest : evalItems .undefined rest t with
    | ok vs u => rw [SessionM.bind_of_ok hrest]; rfl
    | error other u => rw [SessionM.bind_of_error hrest]

/-- A dropped result makes no difference to what comes after it. -/
theorem discard_bind {α β : Type} (x : SessionM α) (f : Unit → SessionM β) :
    discard x >>= f = x >>= fun _ => f () := by
  have hdiscard : discard x = x >>= fun _ => pure () := rfl
  rw [hdiscard, bind_assoc]
  simp only [pure_bind]

/-- No write to a node goes through. -/
theorem perform_of_writesTo (hs : s.store.Sound) (hid : s.names.lookup id = some node)
    (hnode : s.store.schemaOf? node = some schema)
    (hpure : ∀ test name, schema ≠ .predicate test name) (hop : op.WritesTo id schema) :
    ∃ problem, perform op s = .error problem (after (evalItems .undefined op.operands) s) := by
  have hfound : valueOfName id s = .ok node s := by
    rw [valueOfName, SessionM.get_bind]
    simp only [hid]
    rfl
  -- the node is still there when the operands have been evaluated
  cases hop with
  | item key value =>
    rw [perform, SessionM.bind_of_ok hfound]
    refine exists_error_of_operand fun k t ht => exists_error_of_operand fun v u hu => ?_
    obtain ⟨hsound, hunode⟩ := (ht.trans hu).node_later hs hnode
    obtain ⟨problem, hproblem⟩ :=
      assignItem_of_isFixed k v fun c hc => isFixed_of_node hsound hunode hc
    exact ⟨problem, SessionM.bind_of_error hproblem _⟩
  | append value =>
    rw [perform, SessionM.bind_of_ok hfound]
    refine exists_error_of_operand fun v u hu => ?_
    obtain ⟨hsound, hunode⟩ := hu.node_later hs hnode
    obtain ⟨problem, hproblem⟩ :=
      appendItem_of_isFixed v fun c hc => isFixed_of_node hsound hunode hc
    exact ⟨problem, SessionM.bind_of_error hproblem _⟩
  | field field value =>
    rw [perform, SessionM.bind_of_ok hfound, discard_bind]
    refine exists_error_of_operand fun v u hu => ?_
    obtain ⟨hsound, hunode⟩ := hu.node_later hs hnode
    exact ⟨.frozen field, SessionM.bind_of_error (assignField_of_node hsound hunode field) _⟩
  | fieldItem key value hconstant =>
    rw [perform, SessionM.bind_of_ok hfound]
    refine exists_error_of_operand fun k t ht => exists_error_of_operand fun v u hu => ?_
    obtain ⟨hsound, hunode⟩ := (ht.trans hu).node_later hs hnode
    obtain ⟨problem, hproblem⟩ := assignFieldItem_of_node k v hsound hunode hpure hconstant
    exact ⟨problem, SessionM.bind_of_error hproblem _⟩

/-- In a step, too, it has no effect of its own. -/
theorem forbids_of_writesTo (hs : s.store.Sound) (hid : s.names.lookup id = some node)
    (hnode : s.store.schemaOf? node = some schema)
    (hpure : ∀ test name, schema ≠ .predicate test name) (hop : op.WritesTo id schema) :
    s.Forbids op := by
  obtain ⟨problem, hperform⟩ : ∃ problem, perform op { s with journal := .empty } =
      .error problem (after (evalItems .undefined op.operands) { s with journal := .empty }) :=
    perform_of_writesTo hs hid hnode hpure hop
  refine ⟨problem, ?_, ?_⟩
  · rw [step_eq, hperform]
  · rw [step_eq, hperform]

/-- Writes leave the environment and the settings alone. -/
theorem leads_of_writes {writes : List Operation} (hwrites : ∀ op ∈ writes, op.IsWrite)
    (s : Session) : s.Leads (stateAfter s writes) := by
  induction writes generalizing s with
  | nil => exact .refl s
  | cons op rest ih =>
    have hop : op.IsWrite := hwrites op List.mem_cons_self
    have hleads : s.Leads (step s op).2 := by
      obtain ⟨rfl, -⟩ | ⟨henvironment, -⟩ | ⟨-, -, hleads⟩ := step_cases s op
      · exact hop.elim
      · cases op <;> first | exact hop.elim | exact henvironment.elim
      · exact hleads
    exact hleads.trans (ih (fun o ho => hwrites o (List.mem_cons_of_mem op ho)) _)

end Steps

/-! ### Verdicts and records -/

/-- What a step comes to, apart from the session that it leaves. -/
def SessionM.result {α : Type} (body : SessionM α) (s : Session) : Except Problem α :=
  match body s with
  | .ok a _ => .ok a
  | .error problem _ => .error problem

section Results

variable {s t : Session} {schema : Schema} {node v : Value} (hlimits : t.limits = s.limits)
  (hsame : ∀ settings collect, schema.rootOutcome (t.scope settings collect) v =
    schema.rootOutcome (s.scope settings collect) v)
include hlimits hsame

/-- An explanation comes to the same under the same limits, if the evaluation does. -/
theorem result_explain_eq : (explain schema v).result t = (explain schema v).result s := by
  cases hs : s.limits with
  | error complaints =>
    rw [SessionM.result, SessionM.result, explain,
      SessionM.bind_of_error (judge_of_complaints hs true schema v),
      SessionM.bind_of_error (judge_of_complaints (hlimits.trans hs) true schema v)]
  | ok settings =>
    rw [SessionM.result, SessionM.result,
      explain_eq schema v (Session.settled_iff.mpr hs) rfl,
      explain_eq schema v (Session.settled_iff.mpr (hlimits.trans hs)) (hsame settings true)]
    cases (schema.rootOutcome (s.scope settings true) v).result <;> rfl

/-- So does a run without trace lines. -/
theorem result_run_eq : (run schema v .null).result t = (run schema v .null).result s := by
  have hopts (u : Session) : Options.coerce u.store.heap .null = .ok .usual := rfl
  cases hs : s.limits with
  | error complaints =>
    have hrefused {u : Session} (hu : u.limits = .error complaints) :
        run schema v .null u = .error (.invalid complaints) u := by
      rw [run, SessionM.get_bind, hopts]
      exact SessionM.bind_of_error (judge_of_complaints hu false schema v) _
    rw [SessionM.result, SessionM.result, hrefused hs, hrefused (hlimits.trans hs)]
  | ok settings =>
    rw [SessionM.result, SessionM.result,
      run_of_quiet schema v (Session.settled_iff.mpr hs) (hopts s) rfl rfl,
      run_of_quiet schema v (Session.settled_iff.mpr (hlimits.trans hs)) (hopts t) rfl
        (hsame settings false)]
    cases (schema.rootOutcome (s.scope settings false) v).result <;> rfl

end Results

/-! ### Snapshots -/

/-- Two sessions check and explain a value by a node alike: the verdicts are the same, and the records,
    under any limits and under those that are in force. -/
structure Session.ChecksAlike (s t : Session) (node : Value) (schema : Schema) (v : Value) : Prop where
  outcome : ∀ settings collect, schema.rootOutcome (t.scope settings collect) v =
    schema.rootOutcome (s.scope settings collect) v
  check : (call node v none).result t = (call node v none).result s
  explain : ∀ method, (explainWith node v method).result t = (explainWith node v method).result s

theorem checksAlike_of_untouched {s t : Session} {node v : Value} {schema : Schema}
    (hleads : s.Leads t) (hs : s.store.Sound) (hnode : s.store.schemaOf? node = some schema)
    (hpure : schema.EveryTest fun _ _ => False)
    (hv : s.store.heap.Untouched t.store.heap v) : s.ChecksAlike t node schema v := by
  obtain ⟨-, htnode⟩ := hleads.node_later hs hnode
  have hsame (settings : Settings) (collect : Bool) :
      schema.rootOutcome (t.scope settings collect) v =
        schema.rootOutcome (s.scope settings collect) v := by
    have hscope : (s.scope settings collect).heap.Untouched t.store.heap v := hv
    exact Schema.rootOutcome_of_untouched hscope hpure
  -- a call by name looks the schema up, which has stayed what it was
  have hcall {u : Session} (hu : u.store.schemaOf? node = some schema) :
      (call node v none).result u = (run schema v .null).result u := by
    rw [SessionM.result, SessionM.result, call, SessionM.get_bind, hu]
    rfl
  have hexplain {u : Session} (hu : u.store.schemaOf? node = some schema) (method : Bool) :
      (explainWith node v method).result u = (explain schema v).result u := by
    rw [SessionM.result, SessionM.result, explainWith, SessionM.get_bind]
    simp only [hu]
  refine ⟨hsame, ?_, fun method => ?_⟩
  · rw [hcall htnode, hcall hnode, result_run_eq hleads.limits hsame]
  · rw [hexplain htnode, hexplain hnode, result_explain_eq hleads.limits hsame]

/-- Let a script build nodes from lists and dictionaries, and let any assignments follow, to objects, to
    nodes and to attributes of nodes.  A node without predicates is then the same object with the same
    schema, which it shows by the same attributes; every further write to it ends in a problem without an
    effect of its own; and every value from which no changed object is reached is checked and explained as
    before.  At no time is a node among the nodes that it is made of. -/
theorem schemas_are_snapshots (environment : Variables) (building : List Operation)
    {writes : List Operation} (hwrites : ∀ op ∈ writes, op.IsWrite) :
    let s := stateAfter (.start environment) building
    let t := stateAfter s writes
    (∀ node schema, s.store.schemaOf? node = some schema → schema.EveryTest (fun _ _ => False) →
      (t.store.schemaOf? node = some schema ∧
        ∃ attributes, s.store.Depicts node schema attributes ∧
          t.store.Depicts node schema attributes) ∧
      (∀ id op, t.names.lookup id = some node → op.WritesTo id schema → t.Forbids op) ∧
      ∀ v, s.store.heap.Untouched t.store.heap v → s.ChecksAlike t node schema v) ∧
    ∀ node, ¬ TransGen t.store.ChildOf node node := by
  intro s t
  have hs : s.store.Sound := sound_stateAfter environment building
  have hleads : s.Leads t := leads_of_writes hwrites s
  obtain ⟨ht, hst⟩ := hleads.store hs
  refine ⟨fun node schema hnode hpure => ?_, ht.not_transGen_childOf⟩
  obtain ⟨-, htnode⟩ := hleads.node_later hs hnode
  refine ⟨⟨htnode, ?_⟩, fun id op hid hop => ?_, fun v hv => ?_⟩
  · obtain ⟨attributes, hdepicts⟩ := hs.exists_depicts hnode
    exact ⟨attributes, hdepicts, hdepicts.later hs hst hnode⟩
  · refine forbids_of_writesTo ht hid htnode (fun test name hschema => ?_) hop
    exact hpure test name (hschema ▸ .self)
  · exact checksAlike_of_untouched hleads hs hnode hpure hv

/-- The list of which a literal was made is given the literal itself as an item.  The literal goes on
    accepting another list of the same items as before, and cannot be given a constant. -/
theorem schemas_are_snapshots_of_literal :
    let building : List Operation :=
      [.bind "list" (.items .list [.value (.str "a")]), .bind "node" (.apply .literal (.name "list")),
        .bind "value" (.items .list [.value (.str "a")])]
    let writes : List Operation := [.append "list" (.name "node")]
    let s := stateAfter (.start []) building
    let t := stateAfter s writes
    ((∀ op ∈ writes, op.IsWrite) ∧ t.store.heap.cell 0 = .list [.str "a", .ref 1]) ∧
      s.ChecksAlike t (.ref 1) (.literal (.ref 0) "[\"a\"]") (.ref 2) ∧
      t.Forbids (.setField "node" "constant" (.name "value")) := by
  intro building writes s t
  have hwrites : ∀ op ∈ writes, op.IsWrite := List.forall_mem_singleton.mpr trivial
  obtain ⟨hnodes, -⟩ := schemas_are_snapshots [] building hwrites
  have hpure : (Schema.literal (.ref 0) "[\"a\"]").EveryTest fun _ _ => False := by
    intro test name h
    cases h with | inside hc _ => cases hc
  obtain ⟨-, hforbids, halike⟩ := hnodes (.ref 1) (.literal (.ref 0) "[\"a\"]") rfl hpure
  refine ⟨⟨hwrites, rfl⟩, halike (.ref 2) ?_, hforbids "node" _ rfl (.field _ _)⟩
  refine Heap.untouched_ref rfl fun w hw => ?_
  obtain rfl : w = .str "a" := List.mem_singleton.mp hw
  exact Heap.untouched_of_addr? rfl

end Conform
