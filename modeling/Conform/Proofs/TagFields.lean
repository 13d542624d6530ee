import Conform.Proofs.Discipline
import Conform.Proofs.Dispatch
import Conform.Proofs.FieldPaths
import Conform.Proofs.ScriptSteps

namespace Conform

open Script

/-!
# The tag fields of variants

A tag is compared three times: construction compares the canonical form of a literal with that of the key
of its variant, dispatch compares the tag value with the keys as strings, and the literal compares
canonical forms again.  The three agree on strings in which no surrogates look like a pair, because nothing
but a string has the canonical form of a string.  And whatever the strings are, a value that has got to a
variant is not rejected by the literal there.

* `Selects` — a tagged union dispatches on a value to the variant with a key;
* `Selects.evaluate_eq`, `Selects.plan_eq` — it goes on to the fields of this variant;
* `Rejection.About` — a rejection is about a field of a value, or about a part of it;
* `Selects.outcome_spares_tag` — no rejection behind the dispatch is about a literal tag field;
* `literal_tags_never_blamed` — so it is with all tagged unions that a script makes;
* `literal_tag_of_pair` — a variant whose literal is not its key, and a path that seems to blame one.
-/

/-! ### Dispatch -/

/-- A tagged union dispatches on a value to the variant with a key: the value is a mapping that has the
    tag, and the tag value is a string with the content of the key. -/
structure Selects (heap : Heap) (tag key : Label) (v : Value) (m : Mapping) (tagValue : Value) :
    Prop where
  mapping : heap.mapping? v = some m
  has : m.has tag.content = .ok true
  read : m.read tag.content = .ok tagValue
  text : tagValue.text? = some key.content

theorem Eval.ofExcept_ok_bind {α β : Type} (a : α) (f : α → Eval β) :
    Eval.ofExcept (.ok a) >>= f = f a := rfl

/-- The variant with a key is found, whatever the other variants are. -/
theorem evaluateVariant_eq {scope : Scope} (tag : Label) {key key' : Label}
    {variants : List (Label × List (Label × Schema))} {fields : List (Label × Schema)} (m : Mapping)
    (hnames : DistinctNames variants) (hvariant : (key, fields) ∈ variants)
    (hkey : key'.content = key.content) :
    evaluateVariant scope tag variants key' m = evaluateFields scope fields m := by
  induction variants with
  | nil => cases hvariant
  | cons first rest ih =>
    obtain ⟨hfirst, hrest⟩ := List.nodup_cons.mp hnames
    rw [evaluateVariant.eq_def]
    dsimp only
    rcases List.mem_cons.mp hvariant with rfl | hvariant
    · rw [if_pos hkey.symm]
    · have hne : first.1.content ≠ key'.content := fun h =>
        hfirst (List.mem_map.mpr ⟨(key, fields), hvariant, hkey.symm.trans h.symm⟩)
      rw [if_neg hne]
      exact ih hrest hvariant

namespace Selects

variable {scope : Scope} {tag key : Label} {variants : List (Label × List (Label × Schema))}
  {fields : List (Label × Schema)} {v : Value} {m : Mapping} {tagValue : Value}

/-- A rule for the tag field is given the tag value. -/
theorem readOrUndefined_eq {heap : Heap} (h : Selects heap tag key v m tagValue) :
    m.readOrUndefined tag.content = .ok tagValue := by
  rw [Mapping.readOrUndefined, h.has]
  exact h.read

section Variants

variable (h : Selects scope.heap tag key v m tagValue) (hnames : DistinctNames variants)
  (hvariant : (key, fields) ∈ variants)
include h hnames hvariant

/-- The evaluation goes on to the fields of the variant. -/
theorem evaluate_eq :
    evaluate scope (.taggedUnion tag variants) v = guarded scope (evaluateFields scope fields m) := by
  obtain ⟨key', hlabel, hkey⟩ := Option.map_eq_some_iff.mp h.text
  have hfields : evaluateVariant scope tag variants key' m = evaluateFields scope fields m :=
    evaluateVariant_eq tag m hnames hvariant hkey
  rw [evaluate.eq_def]
  simp only [h.mapping, h.has, h.read, Eval.ofExcept_ok_bind, if_true, hlabel, hfields]

theorem plan_eq :
    (Schema.taggedUnion tag variants).plan scope.heap v = .inTurn (fieldParts m fields) := by
  have hselected : variantOf? variants tagValue = some fields :=
    (variantOf?_eq_some_iff hnames).mpr ⟨(key, fields), hvariant, rfl, h.text⟩
  simp only [Schema.plan, h.mapping, tagPlan, h.has, h.read, variantPlan, hselected]

end Variants

end Selects

/-! ### Literal tags -/

/-- A literal compares canonical forms, if a level is left for it. -/
theorem evaluate_literal {scope : Scope} {ctx : Context} (hdepth : ctx.depth < scope.maxDepth)
    (constant : Value) (canonical : Text) (v : Value) :
    evaluate scope (.literal constant canonical) v ctx =
      .ok (scope.heap.canonical? v == some canonical) ctx := by
  rw [evaluate.eq_def, guarded_of_lt hdepth]
  rfl

/-- A rejection is about a field of the value at a trail, or about a part of that field. -/
def Rejection.About (r : Rejection) (trail : List Segment) (field : Text) : Prop :=
  ∃ name : Label, name.content = field ∧ trail ++ [.field name] <+: r.trail

theorem Rejection.about_below_iff {r : Rejection} {trail : List Segment} {field : Text} :
    (r.below trail).About trail field ↔ r.About [] field := by
  simp only [About, below, List.prefix_append_right_inj, List.nil_append]

/-- Behind one field, no rejection is about another. -/
theorem Rejection.not_about_of_ne {r : Rejection} {name : Label} {field : Text}
    (h : name.content ≠ field) : ¬ (r.below [.field name]).About [] field := by
  rintro ⟨other, hother, hprefix⟩
  obtain ⟨hsegment, -⟩ := List.cons_prefix_cons.mp hprefix
  obtain rfl := Segment.field.inj hsegment
  exact h hother

/-- A field is the only one with its name. -/
theorem DistinctNames.eq_of_content {fields : List (Label × Schema)} (h : DistinctNames fields)
    {field field' : Label × Schema} (hf : field ∈ fields) (hf' : field' ∈ fields)
    (hname : field.1.content = field'.1.content) : field = field' :=
  List.inj_on_of_nodup_map h hf hf' hname

section Outcomes

variable {scope : Scope} {judge : Schema → Value → Outcome Bool}

/-- What is accepted of a part leaves no rejection behind. -/
theorem Part.rejections_of_accepted {part : Part} {w : Value} (hw : part.content = .ok w)
    (hresult : (judge part.rule w).result = .ok true) (hclean : (judge part.rule w).Clean) :
    (part.outcome scope judge).rejections = [] := by
  rw [Part.outcome_of_ok hw, Outcome.orElse_of_true _ hresult, Outcome.below, hclean hresult,
    List.map_nil]

/-- All rejections of a part are behind its place. -/
theorem Part.notesOnly_below {p : Rejection → Prop} {part : Part}
    (h : ∀ r : Rejection, p (r.below [part.place.segment])) :
    (part.outcome scope judge).NotesOnly p := by
  rw [Part.outcome]
  exact (Outcome.ofExcept_notesOnly _).bind fun w => .below fun r _ => h r

end Outcomes

namespace Selects

section Literal

variable {scope : Scope} {tag key name : Label} {variants : List (Label × List (Label × Schema))}
  {fields : List (Label × Schema)} {v : Value} {m : Mapping} {tagValue constant : Value}
  {canonical : Text} (h : Selects scope.heap tag key v m tagValue)
  (hnames : DistinctNames variants) (hvariant : (key, fields) ∈ variants)
  (hfields : DistinctNames fields) (hliteral : (name, .literal constant canonical) ∈ fields)
  (hname : name.content = tag.content)
  (hcanonical : scope.heap.canonical? tagValue = some canonical)
include h hnames hvariant hfields hliteral hname hcanonical

/-- No rejection behind the dispatch is about a literal tag field, if a level is left for the literal. -/
theorem outcome_spares_tag (levels : Nat) :
    ((Schema.taggedUnion tag variants).outcome scope (levels + 2) v).NotesOnly
      fun r => ¬ r.About [] tag.content := by
  rw [Schema.outcome, h.plan_eq hnames hvariant]
  refine Outcome.allOf_notesOnly fun part hpart => ?_
  obtain ⟨field, hf, rfl⟩ := List.mem_map.mp hpart
  by_cases hfield : field.1.content = tag.content
  · -- this is the tag field, and the literal accepts what was dispatched on
    obtain rfl := hfields.eq_of_content hf hliteral (hfield.trans hname.symm)
    have hread : m.readOrUndefined name.content = .ok tagValue := by
      rw [hname]
      exact h.readOrUndefined_eq
    have hresult :
        ((Schema.literal constant canonical).outcome scope (levels + 1) tagValue).result = .ok true := by
      simp only [Schema.outcome, Schema.plan, hcanonical, beq_self_eq_true]
      rfl
    intro r hr
    rw [Part.rejections_of_accepted hread hresult (Schema.outcome_clean _ _ _ _)] at hr
    cases hr
  · exact Part.notesOnly_below fun r => Rejection.not_about_of_ne hfield

/-- So an evaluation with two levels left adds no rejection about the tag field. -/
theorem exit_spares_tag {ctx : Context} (hdepth : ctx.depth + 2 ≤ scope.maxDepth) :
    ∃ added, ((evaluate scope (.taggedUnion tag variants) v).exit ctx).rejections =
        ctx.rejections ++ added ∧
      ∀ r ∈ added, ¬ r.About ctx.trail tag.content := by
  obtain ⟨levels, hlevels⟩ := Nat.exists_eq_add_of_le hdepth
  have hyields := evaluate_yields scope (.taggedUnion tag variants) v ctx.depth ctx rfl
  rw [show scope.maxDepth - ctx.depth = levels + 2 by omega] at hyields
  refine ⟨_, by rw [Outcome.exit_eq hyields, Outcome.settle], List.forall_mem_map.mpr fun r hr => ?_⟩
  rw [Rejection.about_below_iff]
  exact h.outcome_spares_tag hnames hvariant hfields hliteral hname hcanonical levels r hr

end Literal

end Selects

/-! ### Scripts -/

/-- In every schema of a script, every variant of every tagged union has one rule for the tag field; if
    this is a literal, its constant is a string with the units of the key of the variant, and so the key,
    unless there are surrogates that look like a pair.  Wherever the tagged union dispatches on a value to
    that variant, with two levels left, the fields of the variant are checked, the literal accepts the tag
    value, and no rejection that is noted is about the tag field. -/
theorem literal_tags_never_blamed (environment : Variables) (ops : List Operation) :
    let s := stateAfter (.start environment) ops
    ∀ node schema tag variants key fields, s.store.schemaOf? node = some schema →
      schema.Contains (.taggedUnion tag variants) → (key, fields) ∈ variants →
      ∃ name rule, (name, rule) ∈ fields ∧ name.content = tag.content ∧
        (∀ field ∈ fields, field.1.content = tag.content → field = (name, rule)) ∧
        ∀ constant canonical, rule = .literal constant canonical →
          (∃ text, constant.text? = some text ∧ text.SameUnits key.content ∧
            (text.Unpaired → key.content.Unpaired → text = key.content)) ∧
          ∀ (scope : Scope) (ctx : Context) v m tagValue, ctx.depth + 2 ≤ scope.maxDepth →
            Selects scope.heap tag key v m tagValue →
            evaluate scope (.taggedUnion tag variants) v =
                guarded scope (evaluateFields scope fields m) ∧
              m.readOrUndefined name.content = .ok tagValue ∧
              (∀ inner : Context, inner.depth = ctx.depth + 1 →
                evaluate scope rule tagValue inner = .ok true inner) ∧
              ∃ added, ((evaluate scope (.taggedUnion tag variants) v).exit ctx).rejections =
                  ctx.rejections ++ added ∧
                ∀ r ∈ added, ¬ r.About ctx.trail tag.content := by
  intro s node schema tag variants key fields hnode hcontains hvariant
  -- construction has checked the names of the fields, the tag field, and the canonical form of its literal
  have hcoherent : schema.Coherent := (coherent_stateAfter environment ops).schema hnode
  obtain ⟨hnames, hvariants⟩ := hcoherent (.taggedUnion tag variants) hcontains
  obtain ⟨hfields, ⟨name, rule⟩, hfind, hliteral⟩ := hvariants (key, fields) hvariant
  have hmem : (name, rule) ∈ fields := List.mem_of_find?_eq_some hfind
  have hname : name.content = tag.content := by simpa using List.find?_some hfind
  refine ⟨name, rule, hmem, hname, fun field hf hfield =>
    hfields.eq_of_content hf hmem (hfield.trans hname.symm), ?_⟩
  rintro constant canonical rfl
  obtain ⟨heap, hkey⟩ := hliteral constant canonical rfl
  have hinside : (Schema.taggedUnion tag variants).Contains (.literal constant canonical) :=
    .inside (Schema.mem_children_taggedUnion hvariant hmem) .self
  obtain ⟨heap', hconstant⟩ := hcoherent _ (hcontains.trans hinside)
  -- the constant and the key share a canonical form, which tells them apart up to their units
  obtain ⟨text, htext, hunits⟩ := (Label.canonical?_eq_iff hkey).mp hconstant
  refine ⟨⟨text, htext, hunits, hunits.eq⟩, ?_⟩
  intro scope ctx v m tagValue hdepth hselects
  -- what dispatch has found is a string with the content of the key
  have hcanonical : scope.heap.canonical? tagValue = some canonical :=
    (Label.canonical?_eq_iff hkey).mpr ⟨_, hselects.text, rfl⟩
  refine ⟨hselects.evaluate_eq hnames hvariant, hname ▸ hselects.readOrUndefined_eq,
    fun inner hinner => ?_,
    hselects.exit_spares_tag hnames hvariant hfields hmem hname hcanonical hdepth⟩
  rw [evaluate_literal (by omega), hcanonical, beq_self_eq_true]

/-- An optional tagged union with a variant that is given as a shape.  Of a value with the tag of this
    variant and another field that is rejected, only the other field is noted. -/
theorem literal_tags_never_blamed_of_shape :
    let ops : List Operation :=
      [.bind "literal" (.apply .literal (.value (.str "a"))), .bind "number" (.primitive .number),
        .bind "fields" (.entries .dict
          [(.value (.str "kind"), .name "literal"), (.value (.str "n"), .name "number")]),
        .bind "shape" (.apply .shape (.name "fields")),
        .bind "variants" (.entries .dict [(.value (.str "a"), .name "shape")]),
        .bind "union" (.taggedUnion (.value (.str "kind")) (.name "variants")),
        .bind "node" (.apply .optional (.name "union")),
        .bind "value" (.entries .dict
          [(.value (.str "kind"), .value (.str "a")), (.value (.str "n"), .value (.str "x"))])]
    let s := stateAfter (.start []) ops
    let fields := [(Label.plain "kind", Schema.literal (.str "a") "\"a\""),
      (Label.plain "n", Schema.primitive .number)]
    let union := Schema.taggedUnion (.plain "kind") [(.plain "a", fields)]
    let ctx : Context := ⟨1, [], [], []⟩
    s.store.schemaOf? (.ref 11) = some (.union [union, .primitive .undefined]) ∧
      ∃ r, ((evaluate (s.scope ⟨3, 200⟩ true) union (.ref 12)).exit ctx).rejections = [r] ∧
        r.trail = [.field (.plain "n")] ∧ r.code = .invalidField ∧ ¬ r.About [] "kind" := by
  intro ops s fields union ctx
  have hnode : s.store.schemaOf? (.ref 11) = some (.union [union, .primitive .undefined]) := rfl
  have hvalue : s.store.heap.mapping? (.ref 12) =
    some ⟨[(.str "kind", .str "a"), (.str "n", .str "x")], none⟩ := rfl
  have hmember : (Schema.union [union, .primitive .undefined]).Contains union :=
    .inside List.mem_cons_self .self
  obtain ⟨name, rule, -, -, hunique, hliteral⟩ :=
    literal_tags_never_blamed [] ops (.ref 11) _ _ _ (.plain "a") fields hnode hmember
      List.mem_cons_self
  cases hunique (.plain "kind", .literal (.str "a") "\"a\"") List.mem_cons_self rfl
  obtain ⟨-, hspared⟩ := hliteral _ _ rfl
  obtain ⟨-, -, -, added, hadded, habout⟩ :=
    hspared (s.scope ⟨3, 200⟩ true) ctx (.ref 12) _ (.str "a") (by decide) ⟨hvalue, rfl, rfl, rfl⟩
  obtain ⟨r, hexit, htrail, hcode⟩ : ∃ r,
      ((evaluate (s.scope ⟨3, 200⟩ true) union (.ref 12)).exit ctx).rejections = [r] ∧
        r.trail = [.field (.plain "n")] ∧ r.code = .invalidField := ⟨_, rfl, rfl, rfl⟩
  obtain rfl : added = [r] := hadded.symm.trans hexit
  exact ⟨hnode, r, hexit, htrail, hcode, habout r List.mem_cons_self⟩

/-- Two surrogates as the key of a variant, with a literal of the character for which they are the pair: the
    script makes the tagged union, though the key is not the constant.  And if a field without a name is
    dispatched to, the path of a rejection inside of it is that of the tag field, which was accepted. -/
theorem literal_tag_of_pair :
    let pair : Text := [0xd83d, 0xde00]
    let character : Text := [0x1f600]
    let ops : List Operation :=
      [.bind "literal" (.apply .literal (.value (.str character))),
        .bind "fields" (.entries .dict [(.value (.str "t"), .name "literal")]),
        .bind "variants" (.entries .dict [(.value (.str pair), .name "fields")]),
        .bind "union" (.taggedUnion (.value (.str "t")) (.name "variants"))]
    let inner := Schema.shape [(.plain "t", .primitive .number)]
    let fields := [(Label.plain "t", Schema.literal (.str "k") "\"k\""), (Label.plain "", inner)]
    let s := Session.holding
      [.dict [(.str "t", .str "x")], .dict [(.str "t", .str "k"), (.str "", .ref 0)]] ⟨4, 200⟩
    (pair ≠ character ∧ (stateAfter (.start []) ops).store.schemaOf? (.ref 6) =
      some (.taggedUnion (.plain "t")
        [(.plain pair, [(.plain "t", .literal (.str character) (Text.escaped .ascii character))])])) ∧
      ∃ message message' t,
        explain (.taggedUnion (.plain "t") [(.plain "k", fields)]) (.ref 1) s =
          .ok ⟨false, [⟨"t", .invalidField, message⟩, ⟨"", .invalidField, message'⟩]⟩ t := by
  intro pair character ops inner fields s
  exact ⟨⟨by decide, rfl⟩, _, _, _, rfl⟩

end Conform
