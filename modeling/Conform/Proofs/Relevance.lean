import Conform.Proofs.Edits
import Conform.Proofs.Observation
import Conform.Proofs.Totality

namespace Conform

/-!
# What verdicts depend on

Values that cannot be told apart by the keys of a schema have the same verdict, whatever else they
hold.  There are no predicates in the schema, which could look at anything, and no constants but
scalars, which no object matches.

* `Schema.Structural` — the schemas without predicates and with literals of scalars only;
* `Plan.Parallel`, `Schema.plan_parallel` — at every node, related values come to the same plan, up
  to quoted values and to contents that are related again;
* `outcome_of_related` — so they have the same result, by induction on the levels that are left;
* `Schema.Raises.contains_bare` — and no fault but that of a node without a rule;
* `verdict_of_related` — runs on related values end alike.
-/

/-! ### Schemas without predicates -/

namespace Schema

/-- A node is no predicate, and if it is a literal, then of a scalar in its canonical form. -/
def Declarative : Schema → Prop
  | .predicate _ _ => False
  | .literal constant canonical =>
    constant.isScalar = true ∧ ∃ heap : Heap, heap.canonical? constant = some canonical
  | _ => True

/-- A schema without predicates, and with literals of scalars only. -/
def Structural (schema : Schema) : Prop := ∀ node, schema.Contains node → node.Declarative

variable {schema node : Schema}

theorem Structural.child (h : schema.Structural) (hc : node ∈ schema.children) : node.Structural :=
  fun inner hi => h inner (.inside hc hi)

theorem Structural.of_children (hself : schema.Declarative)
    (h : ∀ child ∈ schema.children, child.Structural) : schema.Structural := by
  intro node hnode
  cases hnode with
  | self => exact hself
  | inside hc hn => exact h _ hc node hn

end Schema

/-! ### Plans for related values -/

/-- Two parts with one rule at one place, whose contents are there and are related. -/
structure Part.Parallel (related : Value → Value → Prop) (part part' : Part) : Prop where
  place : part'.place = part.place
  rule : part'.rule = part.rule
  contents : ∃ w w', part.content = .ok w ∧ part'.content = .ok w' ∧ related w w'

/-- Two plans that differ in quoted values, and in the contents of parts, which are related. -/
inductive Plan.Parallel (related : Value → Value → Prop) : Plan → Plan → Prop where
  | answer (verdict : Bool) : Parallel related (.answer verdict) (.answer verdict)
  | raise (fault : Fault) : Parallel related (.raise fault) (.raise fault)
  | refuse (cause cause' : Cause) : Parallel related (.refuse cause) (.refuse cause')
  | inTurn {parts parts' : List Part} (h : List.Forall₂ (Part.Parallel related) parts parts') :
    Parallel related (.inTurn parts) (.inTurn parts')
  | anyOf (members : List Schema) : Parallel related (.anyOf members) (.anyOf members)
  | allOf (members : List Schema) : Parallel related (.allOf members) (.allOf members)

section Plans

variable {keys : Text → Prop} {heap : Heap} {related : Value → Value → Prop}

/-- Fields that are declared have related contents. -/
theorem fieldParts_parallel {m m' : Mapping} (hm : m.Calm) (hm' : m'.Calm)
    {fields : List (Label × Schema)}
    (h : ∀ field ∈ fields, related (m.content field.1.content) (m'.content field.1.content)) :
    List.Forall₂ (Part.Parallel related) (fieldParts m fields) (fieldParts m' fields) := by
  rw [fieldParts, fieldParts, List.forall₂_map_left_iff, List.forall₂_map_right_iff,
    List.forall₂_same]
  intro field hfield
  exact ⟨rfl, rfl, _, _, hm.readOrUndefined_eq _, hm'.readOrUndefined_eq _, h field hfield⟩

/-- Items in a row, with the same rules for both rows. -/
theorem itemParts_parallel (rule : SequenceRule) (i : Nat) {items items' : List (Schema × Value)}
    (h : List.Forall₂ (fun a b => b.1 = a.1 ∧ related a.2 b.2) items items') :
    List.Forall₂ (Part.Parallel related) (itemParts rule i items) (itemParts rule i items') := by
  induction h generalizing i with
  | nil => exact .nil
  | @cons a b _ _ hab _ ih =>
    obtain ⟨hrule, hrelated⟩ := hab
    refine .cons ⟨rfl, hrule, a.2, b.2, rfl, rfl, hrelated⟩ (ih (i + 1))

/-- A row of items with the members at their positions. -/
theorem zip_parallel {items items' : List Value} (h : List.Forall₂ related items items')
    (members : List Schema) :
    List.Forall₂ (fun a b => b.1 = a.1 ∧ related a.2 b.2) (members.zip items)
      (members.zip items') := by
  induction h generalizing members with
  | nil => simp
  | cons hitem _ ih =>
    cases members with
    | nil => exact .nil
    | cons member rest => exact .cons ⟨rfl, hitem⟩ (ih rest)

/-- A mapping without the tag and a mapping whose tag is `undefined` are rejected for different
    causes; if the tags are strings, they are the same string. -/
theorem tagPlan_parallel {tag : Label} {variants : List (Label × List (Label × Schema))}
    {m m' : Mapping} (hm : m.Calm) (hm' : m'.Calm)
    (htag : heap.Related keys (m.content tag.content) (m'.content tag.content))
    (h : ∀ variant ∈ variants, ∀ field ∈ variant.2,
      heap.Related keys (m.content field.1.content) (m'.content field.1.content)) :
    Plan.Parallel (heap.Related keys) (tagPlan tag variants m) (tagPlan tag variants m') := by
  -- without a string in its place, the tag selects nothing
  have refused {n : Mapping} (hn : n.Calm) (hlabel : (n.content tag.content).label? = none) :
      ∃ cause, tagPlan tag variants n = .refuse cause := by
    rw [tagPlan_eq hn]
    cases hfind : n.find? tag.content with
    | none => exact ⟨_, rfl⟩
    | some tagValue =>
      rw [Mapping.content, hfind, Option.getD_some] at hlabel
      simp only [variantPlan, variantOf?, hlabel, Option.bind_none]
      exact ⟨_, rfl⟩
  -- a string in its place is there, since `undefined` is none
  have found {n : Mapping} {key : Label} (hlabel : (n.content tag.content).label? = some key) :
      n.find? tag.content = some (n.content tag.content) := by
    rw [Mapping.content] at hlabel ⊢
    cases hfind : n.find? tag.content with
    | none => simp [hfind, Value.label?] at hlabel
    | some tagValue => rfl
  cases hlabel : (m.content tag.content).label? with
  | none =>
    obtain ⟨cause, hplan⟩ := refused hm hlabel
    obtain ⟨cause', hplan'⟩ := refused hm' (htag.label?_eq.trans hlabel)
    rw [hplan, hplan']
    exact .refuse cause cause'
  | some key =>
    have hlabel' := htag.label?_eq.trans hlabel
    rw [tagPlan_eq hm, tagPlan_eq hm', found hlabel, found hlabel']
    simp only [variantPlan]
    have hvariant : variantOf? variants (m'.content tag.content) =
        variantOf? variants (m.content tag.content) := by
      rw [variantOf?, variantOf?, hlabel, hlabel']
    rw [hvariant]
    cases hfields : variantOf? variants (m.content tag.content) with
    | none => exact .refuse _ _
    | some fields =>
      obtain ⟨variant, hv, rfl⟩ := exists_of_variantOf? hfields
      exact .inTurn (fieldParts_parallel hm hm' (h variant hv))

/-- At every node, related values come to parallel plans. -/
theorem Schema.plan_parallel {schema : Schema} {v w : Value} (hschema : schema.Structural)
    (hkeys : ∀ key, schema.Declares key → keys key) (h : heap.Related keys v w) :
    Plan.Parallel (heap.Related keys) (schema.plan heap v) (schema.plan heap w) := by
  have declared {label : Label} (hlabel : label ∈ schema.lookups) : keys label.content :=
    hkeys _ ⟨schema, .self, label, hlabel, rfl⟩
  -- related values are of one kind; containers are taken apart with parts that are related in turn
  cases schema with
  | primitive kind =>
    rw [plan, plan, h.accepts_eq]
    exact .answer _
  | literal constant canonical =>
    obtain ⟨hscalar, heap', hcanonical⟩ := hschema _ .self
    rw [plan, plan, h.matches_eq hscalar hcanonical]
    exact .answer _
  | shape fields =>
    rw [plan, plan]
    rcases h.mappings with ⟨hv, hw⟩ | ⟨m, m', hv, hw, hm, hm', hcontent⟩
    · rw [hv, hw]
      exact .refuse _ _
    · rw [hv, hw]
      refine .inTurn (fieldParts_parallel hm hm' fun field hfield => ?_)
      exact hcontent _ (declared (List.mem_map_of_mem hfield))
  | array member =>
    rw [plan, plan]
    rcases h.sequences with ⟨hv, hw⟩ | ⟨items, items', hv, hw, hitems⟩
    · rw [hv, hw]
      exact .refuse _ _
    · rw [hv, hw]
      refine .inTurn (itemParts_parallel _ _ ?_)
      rw [List.forall₂_map_left_iff, List.forall₂_map_right_iff]
      exact hitems.imp fun item item' hitem => ⟨rfl, hitem⟩
  | tuple members =>
    rw [plan, plan]
    rcases h.sequences with ⟨hv, hw⟩ | ⟨items, items', hv, hw, hitems⟩
    · rw [hv, hw]
      exact .refuse _ _
    · rw [hv, hw]
      simp only [← hitems.length_eq]
      by_cases hlen : items.length = members.length
      · rw [if_pos hlen, if_pos hlen]
        exact .inTurn (itemParts_parallel _ _ (zip_parallel hitems members))
      · rw [if_neg hlen, if_neg hlen]
        exact .refuse _ _
  | union members => exact .anyOf members
  | intersection members => exact .allOf members
  | taggedUnion tag variants =>
    rw [plan, plan]
    rcases h.mappings with ⟨hv, hw⟩ | ⟨m, m', hv, hw, hm, hm', hcontent⟩
    · rw [hv, hw]
      exact .refuse _ _
    · rw [hv, hw]
      -- the tag and the fields of every variant are declared, so that the contents there are related
      refine tagPlan_parallel hm hm' (hcontent _ (declared List.mem_cons_self)) ?_
      intro variant hvariant field hfield
      refine hcontent _ (declared (List.mem_cons_of_mem tag ?_))
      exact List.mem_flatMap.mpr ⟨variant, hvariant, List.mem_map_of_mem hfield⟩
  | predicate test name => exact (hschema _ .self).elim
  | bare => exact .raise _

end Plans

/-! ### Results -/

section Evaluations

variable {scope scope' : Scope} {keys : Text → Prop}

/-- Parallel plans come to the same result, if their rules do on related values. -/
theorem Plan.Parallel.alike {related : Value → Value → Prop}
    {judge judge' : Schema → Value → Outcome Bool} {plan plan' : Plan} {v w : Value}
    (h : Plan.Parallel related plan plan')
    (hlike : Likeness scope scope' (fun _ _ => True) Eq) (hvw : related v w)
    (hj : ∀ rule ∈ plan.rules, ∀ x y, related x y →
      Alike (fun _ _ => True) Eq (judge rule x) (judge' rule y)) :
    Alike (fun _ _ => True) Eq (plan.outcome scope judge v) (plan'.outcome scope' judge' w) := by
  -- rejections for two causes differ in what they note
  have refused (cause cause' : Cause) : Alike (fun _ _ => True) Eq
      (Outcome.refusal scope cause) (Outcome.refusal scope' cause') := ⟨rfl, trivial, rfl⟩
  cases h with
  | answer verdict => exact hlike.ofExcept (.ok verdict)
  | raise fault => exact hlike.ofExcept (.error fault)
  | refuse cause cause' => exact refused cause cause'
  | @inTurn parts parts' h =>
    apply hlike.allOf
    have hparts : List.Forall₂ (fun part part' => part ∈ parts ∧ Part.Parallel related part part')
        parts parts' := (List.forall₂_and_left _ _).mpr ⟨fun part hp => hp, h⟩
    refine hparts.imp fun part part' ⟨hp, hpart⟩ => ?_
    obtain ⟨x, y, hx, hy, hxy⟩ := hpart.contents
    rw [Part.outcome, Part.outcome, hx, hy, hpart.place, hpart.rule, Outcome.ofExcept_ok_bind,
      Outcome.ofExcept_ok_bind]
    exact hlike.moved _
      (hlike.orElse (hj part.rule (List.mem_map_of_mem hp) x y hxy) (refused _ _))
  | anyOf members =>
    have hany := hlike.anyOf (List.forall₂_same.mpr fun member hm => hj member hm v w hvw)
    exact hlike.orElse (hlike.tentative (hany.mapFault _)) (refused _ _)
  | allOf members =>
    apply hlike.bind (hlike.each (List.forall₂_same.mpr fun member hm => hj member hm v w hvw))
    intro verdicts
    cases verdicts.all id with
    | true => exact hlike.ofExcept (.ok true)
    | false => exact refused _ _

/-- With the same number of levels left, related values come to the same result. -/
theorem outcome_of_related (hlike : Likeness scope scope' (fun _ _ => True) Eq) (levels : Nat)
    {schema : Schema} {v w : Value} (hschema : schema.Structural)
    (hkeys : ∀ key, schema.Declares key → keys key) (h : scope.heap.Related keys v w) :
    Alike (fun _ _ => True) Eq (schema.outcome scope levels v)
      (schema.outcome scope' levels w) := by
  induction levels generalizing schema v w with
  | zero => exact ⟨rfl, trivial, rfl⟩
  | succ levels ih =>
    rw [Schema.outcome, Schema.outcome, hlike.heap]
    refine (Schema.plan_parallel hschema hkeys h).alike hlike h fun rule hrule x y hxy => ?_
    have hc := schema.rules_plan_subset scope.heap v hrule
    exact ih (hschema.child hc) (fun key hkey => hkeys key (hkey.of_child hc)) hxy

/-- The evaluation of a related value ends in a fault only for a node without a rule. -/
theorem Schema.Raises.contains_bare {levels : Nat} {schema : Schema} {v w : Value} {fault : Fault}
    (hraises : schema.Raises scope levels v fault) (hschema : schema.Structural)
    (hkeys : ∀ key, schema.Declares key → keys key) (h : scope.heap.Related keys v w) :
    schema.Contains .bare := by
  induction levels generalizing schema v w fault with
  | zero => exact hraises.elim
  | succ levels ih =>
    have hparallel := Schema.plan_parallel hschema hkeys h
    generalize schema.plan scope.heap w = plan' at hparallel
    -- a rule that raises a fault has a node without a rule in it, and is a child
    have inside {rule : Schema} {x y : Value} {raised : Fault}
        (hrule : rule ∈ (schema.plan scope.heap v).rules)
        (hraised : rule.Raises scope levels x raised) (hxy : scope.heap.Related keys x y) :
        schema.Contains .bare := by
      have hc := schema.rules_plan_subset scope.heap v hrule
      have hdeclared (key : Text) (hkey : rule.Declares key) : keys key :=
        hkeys key (hkey.of_child hc)
      exact .inside hc (ih hraised (hschema.child hc) hdeclared hxy)
    rw [Schema.Raises] at hraises
    cases hplan : schema.plan scope.heap v with
    | answer verdict | refuse cause =>
      rw [hplan] at hraises
      exact hraises.elim
    | raise raised =>
      have hcalm (m : Mapping) (hm : scope.heap.mapping? v = some m) :
          m.RefusesOnly fun _ => False := by
        rcases h.mappings with ⟨hnone, -⟩ | ⟨m', -, hm', -, hcalm, -⟩
        · rw [hnone] at hm
          cases hm
        · obtain rfl : m = m' := Option.some.inj (hm.symm.trans hm')
          exact hcalm.refusesOnly _
      rcases Schema.eq_bare_or_refusal_of_plan_raise hcalm hplan with ⟨rfl, -⟩ | hfalse
      · exact .self
      · exact hfalse.elim
    | inTurn parts =>
      rw [hplan] at hraises hparallel inside
      cases hparallel with
      | inTurn hparts =>
        obtain ⟨part, hpart, hraised⟩ := hraises.exists_mem
        obtain ⟨part', -, hpp⟩ := exists_mem_of_forall₂ hparts.flip hpart
        obtain ⟨x, y, hx, -, hxy⟩ := hpp.contents
        rcases hraised with hfault | ⟨z, hz, hraised⟩
        · rw [hx] at hfault
          cases hfault
        · obtain rfl : x = z := Except.ok.inj (hx.symm.trans hz)
          exact inside (List.mem_map_of_mem hpart) hraised hxy
    | anyOf members =>
      rw [hplan] at hraises inside
      obtain ⟨raised, hfirst, -⟩ := hraises
      obtain ⟨member, hm, hraised⟩ := hfirst.exists_mem
      exact inside hm hraised h
    | allOf members =>
      rw [hplan] at hraises inside
      obtain ⟨member, hm, hraised⟩ := hraises.exists_mem
      exact inside hm hraised h
    | call test name =>
      rw [hplan] at hparallel
      cases hparallel

end Evaluations

/-! ### Runs -/

/-- Only what a schema declares matters: two runs end alike whose values cannot be told apart by the
    names of fields and the tags in the schema.  In particular, a value may be edited at any depth
    by adding or removing other keys, by adding or dropping entries with the value `undefined`, by
    changing the order of keys, and by changing classes.  The runs return a verdict, unless there is
    a node without a rule. -/
theorem verdict_of_related {s s' : Session} {settings settings' : Settings} {schema : Schema}
    {opts opts' : Value} {options options' : Options} (hschema : schema.Structural)
    (hsettings : s.Settled settings) (hsettings' : s'.Settled settings')
    (hheap : s'.store.heap = s.store.heap) (hdepth : settings'.maxDepth = settings.maxDepth)
    (hopts : Options.coerce s.store.heap opts = .ok options)
    (hopts' : Options.coerce s'.store.heap opts' = .ok options')
    (hsink : options.logFailures = true → ∀ sink, options.sink = some sink → s.Harmless sink)
    (hsink' : options'.logFailures = true → ∀ sink, options'.sink = some sink → s'.Harmless sink)
    {v w : Value}
    (h : s.store.heap.Related schema.Declares v w ∨ s.store.heap.Edited schema.Declares v w) :
    ∃ result t t', run schema v opts s = finish t result ∧
      run schema w opts' s' = finish t' result ∧
      (¬ schema.Contains .bare → ∃ verdict, result = .ok verdict) := by
  have hrelated : s.store.heap.Related schema.Declares v w := h.elim id Heap.Edited.related
  let scope := s.scope settings options.logFailures
  let scope' := s'.scope settings' options'.logFailures
  -- what is noted is left out, and the outcomes are compared as a whole
  have hlike : Likeness scope scope' (fun _ _ => True) Eq := .ofCollect hheap
  have halike : Alike (fun _ _ => True) Eq (schema.rootOutcome scope v)
      (schema.rootOutcome scope' w) := by
    rw [Schema.rootOutcome, Schema.rootOutcome, show scope'.maxDepth = scope.maxDepth from hdepth]
    exact hlike.rooted (outcome_of_related hlike _ hschema (fun _ => id) hrelated)
  obtain ⟨t, hrun⟩ := exists_run_eq_finish schema v hsettings hopts hsink
  obtain ⟨t', hrun'⟩ := exists_run_eq_finish schema w hsettings' hopts' hsink'
  refine ⟨_, t, t', hrun, hrun'.trans (congrArg (finish t') halike.result), fun hbare => ?_⟩
  cases hresult : (schema.outcome scope scope.maxDepth v).result with
  | ok verdict => exact ⟨verdict, Schema.rootOutcome_of_verdict hresult⟩
  | error fault =>
    have hraises := (outcome_raises_iff _ schema v fault).mp hresult
    exact absurd (hraises.contains_bare hschema (fun _ => id) hrelated) hbare

/-- An object of a list is edited: a key that is not declared is removed, an entry with the value
    `undefined` is dropped, the order of the keys is changed, and so are both classes. -/
theorem verdict_of_edited_object :
    let fields := [(Label.plain "n", Schema.primitive .number),
      (Label.plain "note", .union [.primitive .undefined, .literal (.str "ok") "\"ok\""])]
    let schema := Schema.array (.taggedUnion (.plain "kind") [(.plain "a", fields)])
    let cells := [.dict [(.str "kind", .str "a"), (.str "extra", .ref 0), (.str "note", .undefined),
        (.str "n", .int 1)],
      .view [(.str "n", .int 1), (.str "kind", .str "a")], .list [.ref 0], .tuple [.ref 1]]
    let s := Session.holding cells ⟨4, 16⟩
    ∃ t t', run schema (.ref 2) .null s = .ok true t ∧
      run schema (.ref 3) .null s = .ok true t' := by
  intro fields schema cells s
  have hleaf (child : Schema) (hc : child ∈ []) : child.Structural := absurd hc List.not_mem_nil
  have hschema : schema.Structural := by
    refine .of_children trivial fun child hc => ?_
    obtain rfl := List.mem_singleton.mp hc
    refine .of_children trivial fun field hf => ?_
    obtain rfl | rfl : field = _ ∨ field = _ := by simpa [fields, Schema.children] using hf
    · exact .of_children trivial hleaf
    · refine .of_children trivial fun member hm => ?_
      obtain rfl | rfl : member = _ ∨ member = _ := by simpa [Schema.children] using hm
      · exact .of_children trivial hleaf
      · exact .of_children ⟨rfl, .empty, rfl⟩ hleaf
  have hextra (name : Text) (htext : (Value.str "extra").text? = some name) :
      ¬ schema.Declares name := by
    obtain rfl : "extra" = name := Option.some.inj htext
    exact fun h => absurd (h.mem_lookupsTo (n := 4) rfl) (by decide)
  let front : List (Value × Value) := [(.str "kind", .str "a")]
  let note : Value × Value := (.str "note", .undefined)
  let back : List (Value × Value) := [(.str "n", .int 1)]
  have hremove : Mapping.Edit schema.Declares
      ⟨front ++ (.str "extra", .ref 0) :: note :: back, none⟩ ⟨front ++ note :: back, none⟩ :=
    .undeclared hextra
  have hdrop : Mapping.Edit schema.Declares ⟨front ++ note :: back, none⟩ ⟨front ++ back, none⟩ :=
    .undefined (by decide : (["kind", "note", "n"] : List Text).Nodup)
  have hswap : Mapping.Edit schema.Declares ⟨front ++ back, none⟩ ⟨back ++ front, none⟩ :=
    .reordered (.swap _ _ _) (by decide : (["kind", "n"] : List Text).Nodup)
  have hedits : Relation.EqvGen (Mapping.Edit schema.Declares)
      ⟨front ++ (.str "extra", .ref 0) :: note :: back, none⟩ ⟨back ++ front, none⟩ :=
    .trans _ _ _ (.rel _ _ hremove) (.trans _ _ _ (.rel _ _ hdrop) (.rel _ _ hswap))
  have hedited : s.store.heap.Edited schema.Declares (.ref 2) (.ref 3) := by
    have hlist : s.store.heap.sequence? (.ref 2) = some [.ref 0] := rfl
    have htuple : s.store.heap.sequence? (.ref 3) = some [.ref 1] := rfl
    refine .sequence hlist htuple rfl fun pair hpair => ?_
    obtain rfl := List.mem_singleton.mp hpair
    refine .mapping rfl rfl (fun _ _ => rfl) (fun _ _ => rfl) rfl ?_ ?_ hedits
    · decide
    · -- no value is edited in place, and the one that is removed is not looked at
      intro pair hpair name htext hname
      obtain rfl | rfl | rfl | rfl : pair = _ ∨ pair = _ ∨ pair = _ ∨ pair = _ := by
        simpa [front, note, back] using hpair
      · exact .same rfl rfl
      · exact absurd hname (hextra name htext)
      · exact .same rfl rfl
      · exact .same rfl rfl
  have hopts : Options.coerce s.store.heap .null = .ok .usual := rfl
  obtain ⟨result, t, t', hrun, hrun', -⟩ := verdict_of_related hschema (.inl rfl) (.inl rfl) rfl rfl
    hopts hopts Session.harmless_of_usual Session.harmless_of_usual (.inr hedited)
  obtain ⟨u, hu⟩ : ∃ u, run schema (.ref 2) .null s = .ok true u := ⟨_, rfl⟩
  cases result with
  | error fault => cases hu.symm.trans hrun
  | ok verdict =>
    obtain ⟨rfl, -⟩ := EStateM.Result.ok.inj (hu.symm.trans hrun)
    exact ⟨t, t', hrun, hrun'⟩

end Conform
