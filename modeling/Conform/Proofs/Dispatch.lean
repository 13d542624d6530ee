import Conform.Proofs.Height
import Conform.Proofs.Scalar
import Conform.Proofs.Variants
import Conform.Proofs.Verdict

namespace Conform

/-!
# Dispatch by a tag

A tagged union looks its variant up by the tag, where the plain union of the same shapes tries one
after the other.  What the tagged union accepts, the plain union accepts; and where the tag field of
every variant is a literal, the two accept the same, because such a literal is one of the key, and
nothing but that string has the canonical form of the key.  The last holds of strings in which no
surrogates look like a pair; and a test that raises for good is called by the plain union even where
the tagged union selects another variant.

* `plainUnion` — the union of the shapes of some variants;
* `HasLiteralTags` — the tag field of every variant is a literal;
* `Label.canonical?_eq_iff` — what has the canonical form of a label;
* `Accepts.of_taggedUnion`, `Accepts.taggedUnion_of_literalTags` — the two meanings compared;
* `dispatch_agrees_with_union` — tagged unions and plain unions as they are built and run;
* `union_differs_from_dispatch` — runs that come out differently.
-/

/-- The union of the shapes of some variants. -/
def plainUnion (rules : List (Label × List (Label × Schema))) : Schema :=
  .union (rules.map fun rule => .shape rule.2)

/-- The tag field of every variant is a literal. -/
def HasLiteralTags (tag : Label) (rules : List (Label × List (Label × Schema))) : Prop :=
  ∀ rule ∈ rules, ∃ name constant canonical,
    (rule.2.find? fun field => field.1.content == tag.content) =
      some (name, .literal constant canonical)

/-! ### Meanings -/

/-- What has the canonical form of a label is a string, which is the same as the label as far as units
    tell. -/
theorem Label.canonical?_eq_iff {heap heap' : Heap} {key : Label} {v : Value} {canonical : Text}
    (hkey : heap'.canonical? key.toValue = some canonical) :
    heap.canonical? v = some canonical ↔
      ∃ text, v.text? = some text ∧ text.SameUnits key.content := by
  rw [Heap.canonical?_eq_iff (Value.isScalar_toValue key) hkey]
  constructor
  · intro hsame
    cases key with
    | plain s | code c =>
      cases hsame with
      | @text _ _ s t hv hw hunits =>
        obtain rfl := Option.some.inj hw
        exact ⟨s, hv, hunits⟩
      | number _ hw => cases hw
  · rintro ⟨text, hv, hunits⟩
    exact .text hv key.text_toValue hunits

section Meanings

variable {heap : Heap} {passes : Test → Value → Prop} {v : Value} {tag : Label}
  {rules : List (Label × List (Label × Schema))}

/-- What the variant selected by the tag accepts, its shape accepts. -/
theorem Accepts.of_taggedUnion (h : Accepts heap passes (.taggedUnion tag rules) v) :
    Accepts heap passes (plainUnion rules) v := by
  obtain ⟨m, hm, tagValue, htag, fields, hvariant, hfields⟩ := accepts_taggedUnion_iff.mp h
  obtain ⟨rule, hrule, rfl⟩ := exists_of_variantOf? hvariant
  exact .union (List.mem_map_of_mem hrule) (.shape hm hfields)

/-- What a shape with a literal tag accepts, has the key of the variant as its tag, so that the
    variant is selected, unless there are surrogates that look like a pair. -/
theorem Accepts.taggedUnion_of_literalTags
    (hkeys : (rules.map fun rule => rule.1.content).Nodup)
    (hdeclares : ∀ rule ∈ rules, Build.DeclaresTag tag rule.1 rule.2)
    (hliterals : HasLiteralTags tag rules)
    (hunpaired : ∀ rule ∈ rules, rule.1.content.Unpaired)
    (htagUnpaired : ∀ m, heap.mapping? v = some m → (m.content tag.content).Unpaired)
    (h : Accepts heap passes (plainUnion rules) v) :
    Accepts heap passes (.taggedUnion tag rules) v := by
  obtain ⟨member, hmember, haccepts⟩ := accepts_union_iff.mp h
  obtain ⟨rule, hrule, rfl⟩ := List.mem_map.mp hmember
  obtain ⟨m, hm, hfields⟩ := accepts_shape_iff.mp haccepts
  obtain ⟨name, constant, canonical, hliteral⟩ := hliterals rule hrule
  obtain ⟨field, hfield, hchecked⟩ := hdeclares rule hrule
  obtain rfl : (name, .literal constant canonical) = field :=
    Option.some.inj (hliteral.symm.trans hfield)
  obtain ⟨heap', hcanonical⟩ := hchecked constant canonical rfl
  -- the literal is one of the key, and what it accepts is the same string
  have hname : name.content = tag.content := by simpa using List.find?_some hliteral
  have htagField := hfields _ (List.mem_of_find?_eq_some hliteral)
  rw [hname] at htagField
  have htext : (m.content tag.content).text? = some rule.1.content := by
    cases htagField with
    | literal hv =>
      obtain ⟨text, htext, hunits⟩ := (Label.canonical?_eq_iff hcanonical).mp hv
      rw [htext, hunits.eq (htagUnpaired m hm text htext) (hunpaired rule hrule)]
  -- what is not there is no string
  have htag : m.find? tag.content = some (m.content tag.content) := by
    cases hfind : m.find? tag.content with
    | some w => rw [Mapping.content, hfind, Option.getD_some]
    | none =>
      rw [Mapping.content, hfind] at htext
      cases htext
  refine .taggedUnion hm htag ?_ hfields
  exact (variantOf?_eq_some_iff hkeys).mpr ⟨rule, hrule, rfl, htext⟩

/-- A tagged union is lower than the plain union of its shapes. -/
theorem height_taggedUnion_le : (Schema.taggedUnion tag rules).height ≤ (plainUnion rules).height := by
  obtain ⟨n, hn⟩ := Nat.exists_eq_add_one_of_ne_zero (Nat.ne_of_gt (plainUnion rules).height_pos)
  rw [hn, Schema.height_le_succ_iff]
  intro child hc
  obtain ⟨rule, hrule, hc⟩ := List.mem_flatMap.mp hc
  have hshape : (Schema.shape rule.2).height ≤ n :=
    Schema.height_le_succ_iff.mp (Nat.le_of_eq hn) _ (List.mem_map_of_mem hrule)
  have hlt : child.height < (Schema.shape rule.2).height := Schema.height_child_lt hc
  omega

end Meanings

/-- A tagged union is conclusive if the plain union of its shapes is. -/
theorem Schema.Conclusive.taggedUnion {scope : Scope} {tag : Label}
    {rules : List (Label × List (Label × Schema))} (h : (plainUnion rules).Conclusive scope) :
    (Schema.taggedUnion tag rules).Conclusive scope := by
  refine .of_children nofun nofun fun child hc => ?_
  obtain ⟨rule, hrule, hc⟩ := List.mem_flatMap.mp hc
  have hshape : (Schema.shape rule.2).Conclusive scope := h.child (List.mem_map_of_mem hrule)
  exact hshape.child hc

/-! ### Runs -/

/-- A tagged union that has been made from a mapping of variants, and the plain union that is made
    of the shapes of its variants, whenever and wherever that is: both of them return a verdict for
    every calm value, if the bound on the depth leaves room for the plain union.  What the tagged
    union accepts, the plain union accepts, and they agree if the tag field of every variant is a
    literal and neither the keys nor the tag of the value have surrogates that look like a pair.  No
    shape among the variants is changed: the variants are its fields. -/
theorem dispatch_agrees_with_union {s : Session} {settings : Settings} {opts : Value}
    {options : Options} (hsettings : s.Settled settings)
    (hopts : Options.coerce s.store.heap opts = .ok options)
    (hsink : options.logFailures = true → ∀ sink, options.sink = some sink → s.Harmless sink) :
    ∀ store tag variants m made after, store.heap.mapping? variants = some m →
      DistinctKeys m.entries → Build.taggedUnion tag variants store = .ok made after →
      ∃ label rules, tag.label? = some label ∧
        after.schemaOf? made = some (.taggedUnion label rules) ∧
        List.Forall₂ (Build.IsVariantOf store label) m.entries rules ∧
        ∀ before later a nodes union, before.heap.cell a = .list nodes →
          List.Forall₂ (fun node rule => before.schemaOf? node = some (.shape rule.2)) nodes rules →
          Build.unionMany (.ref a) before = .ok union later →
          later.schemaOf? union = some (plainUnion rules) ∧
            ∀ v, s.store.heap.Calm v →
              (plainUnion rules).Conclusive (s.scope settings options.logFailures) →
              (plainUnion rules).height ≤ settings.maxDepth →
              ∃ byTag byTrial t t', run (.taggedUnion label rules) v opts s = .ok byTag t ∧
                run (plainUnion rules) v opts s = .ok byTrial t' ∧
                (byTag = true → byTrial = true) ∧
                (HasLiteralTags label rules → (∀ rule ∈ rules, rule.1.content.Unpaired) →
                  (∀ object, s.store.heap.mapping? v = some object →
                    (object.content label.content).Unpaired) → byTag = byTrial) := by
  intro store tag variants m made after hm hkeys hbuild
  obtain ⟨label, m', rules, hlabel, hm', hnames, hrules⟩ := Build.taggedUnion_spec hbuild
  obtain rfl : m = m' := Option.some.inj (hm.symm.trans hm')
  refine ⟨label, rules, hlabel, hnames.schemaOf?, hrules, ?_⟩
  intro before later a nodes union hcell hnodes hunion
  have hshapes : List.Forall₂ (fun node schema => before.schemaOf? node = some schema) nodes
      (rules.map fun rule => .shape rule.2) := List.forall₂_map_right_iff.mpr hnodes
  refine ⟨(Build.unionMany_spec hcell hshapes hunion).2.schemaOf?, ?_⟩
  intro v hcalm hconclusive hheight
  have htagged : (Schema.taggedUnion label rules).Conclusive
    (s.scope settings options.logFailures) := hconclusive.taggedUnion
  obtain ⟨byTag, t, hrun, hiff⟩ :=
    run_verdict_iff_accepts_cut hsettings hopts htagged hcalm hsink
  obtain ⟨byTrial, t', hrun', hiff'⟩ :=
    run_verdict_iff_accepts_cut hsettings hopts hconclusive hcalm hsink
  -- with room for both schemas, neither of them is cut
  rw [Schema.cut_of_height_le (Nat.le_trans height_taggedUnion_le hheight)] at hiff
  rw [Schema.cut_of_height_le hheight] at hiff'
  have hforward (h : byTag = true) : byTrial = true := hiff'.mpr (hiff.mp h).of_taggedUnion
  refine ⟨byTag, byTrial, t, t', hrun, hrun', hforward, fun hliterals hunpaired htag => ?_⟩
  have hdistinct : (rules.map fun rule => rule.1.content).Nodup := by
    rw [← Build.keys_of_variants hrules]
    exact hkeys
  have hdeclares (rule : Label × List (Label × Schema)) (hrule : rule ∈ rules) :
      Build.DeclaresTag label rule.1 rule.2 := by
    obtain ⟨entry, -, hentry⟩ := exists_mem_of_forall₂ hrules hrule
    exact hentry.tagField
  have hbackward (h : byTrial = true) : byTag = true :=
    hiff.mpr ((hiff'.mp h).taggedUnion_of_literalTags hdistinct hdeclares hliterals hunpaired htag)
  exact Bool.eq_iff_iff.mpr ⟨hforward, hbackward⟩

/-- Two variants with literal tags, of which the second one has a field of its own; one object has the
    tag of the second variant, and the other one has a tag that is no string. -/
theorem dispatch_agrees_with_union_of_two :
    let first := [(Label.plain "kind", Schema.literal (.str "a") "\"a\"")]
    let second := [(Label.plain "kind", Schema.literal (.str "b") "\"b\""),
      (Label.plain "n", Schema.primitive .number)]
    let rules := [(Label.plain "a", first), (Label.plain "b", second)]
    let heap := ⟨#[.validator ⟨"Shape", []⟩, .validator ⟨"Shape", []⟩,
      .dict [(.str "a", .ref 0), (.str "b", .ref 1)], .list [.ref 0, .ref 1]]⟩
    let store := { Store.empty with heap := heap, schemas := [(0, .shape first), (1, .shape second)] }
    let s := Session.holding
      [.dict [(.str "kind", .str "b"), (.str "n", .int 1)], .dict [(.str "kind", .int 1)]] ⟨3, 16⟩
    ∃ made after union later, Build.taggedUnion (.str "kind") (.ref 2) store = .ok made after ∧
      after.schemaOf? made = some (.taggedUnion (.plain "kind") rules) ∧
      Build.unionMany (.ref 3) store = .ok union later ∧
      later.schemaOf? union = some (plainUnion rules) ∧
      (∃ t t', run (.taggedUnion (.plain "kind") rules) (.ref 0) .null s = .ok true t ∧
        run (plainUnion rules) (.ref 0) .null s = .ok true t') ∧
      ∃ t t', run (.taggedUnion (.plain "kind") rules) (.ref 1) .null s = .ok false t ∧
        run (plainUnion rules) (.ref 1) .null s = .ok false t' := by
  intro first second rules heap store s
  have hopts : Options.coerce s.store.heap .null = .ok .usual := rfl
  obtain ⟨made, after, hbuild, hmade⟩ : ∃ made after,
      Build.taggedUnion (.str "kind") (.ref 2) store = .ok made after ∧
        after.schemaOf? made = some (.taggedUnion (.plain "kind") rules) := ⟨_, _, rfl, rfl⟩
  obtain ⟨union, later, hunion⟩ : ∃ union later, Build.unionMany (.ref 3) store = .ok union later :=
    ⟨_, _, rfl⟩
  have hkeys : DistinctKeys [(.str "a", .ref 0), (.str "b", .ref 1)] :=
    (by decide : (["a", "b"] : List Text).Nodup)
  obtain ⟨label, rules', hlabel, hmade', -, hruns⟩ :=
    dispatch_agrees_with_union (.inl rfl) hopts nofun store _ _ _ made after rfl hkeys hbuild
  cases hmade.symm.trans hmade'
  obtain ⟨hplain, hagree⟩ := hruns store later 3 _ union rfl (.cons rfl (.cons rfl .nil)) hunion
  have hconclusive : (plainUnion rules).Conclusive (s.scope ⟨3, 16⟩ false) :=
    .of_testsTo (n := 3) rfl nofun
  have hliterals : HasLiteralTags (.plain "kind") rules := by
    intro rule hrule
    obtain rfl | rfl : rule = (.plain "a", first) ∨ rule = (.plain "b", second) := by
      simpa [rules] using hrule
    · exact ⟨_, _, _, rfl⟩
    · exact ⟨_, _, _, rfl⟩
  have hheap : ∀ cell ∈ s.store.heap.cells.toList, cell.isGuarded = false := by decide
  have hunpaired : ∀ rule ∈ rules, rule.1.content.Unpaired := by decide
  have hruns (v : Value) (hv : ∀ object, s.store.heap.mapping? v = some object →
      (object.content "kind").Unpaired) :
      ∃ verdict t t', run (.taggedUnion (.plain "kind") rules) v .null s = .ok verdict t ∧
        run (plainUnion rules) v .null s = .ok verdict t' := by
    obtain ⟨byTag, byTrial, t, t', hrun, hrun', -, hequal⟩ :=
      hagree v (Heap.calm_of_unguarded hheap v) hconclusive (by decide)
    obtain rfl := hequal hliterals hunpaired hv
    exact ⟨byTag, t, t', hrun, hrun'⟩
  refine ⟨made, after, union, later, hbuild, hmade, hunion, hplain, ?_, ?_⟩
  · obtain ⟨verdict, t, t', hrun, hrun'⟩ := hruns (.ref 0) fun object hobject => by
      obtain rfl := Option.some.inj hobject
      exact Value.unpaired_ofString "b"
    obtain ⟨u, haccepts⟩ :
      ∃ u, run (.taggedUnion (.plain "kind") rules) (.ref 0) .null s = .ok true u := ⟨_, rfl⟩
    cases hrun.symm.trans haccepts
    exact ⟨t, t', hrun, hrun'⟩
  · obtain ⟨verdict, t, t', hrun, hrun'⟩ := hruns (.ref 1) fun object hobject => by
      obtain rfl := Option.some.inj hobject
      exact nofun
    obtain ⟨u, hrejects⟩ :
      ∃ u, run (.taggedUnion (.plain "kind") rules) (.ref 1) .null s = .ok false u := ⟨_, rfl⟩
    cases hrun.symm.trans hrejects
    exact ⟨t, t', hrun, hrun'⟩

/-- Two ways for a plain union to differ from the tagged union of the same shapes.  A test of the first
    variant that asks the program to end is called by the plain union only, as the second variant is the
    one for the tag.  A pair of surrogates is no key of the other tagged union, but has the canonical form
    of the key. -/
theorem union_differs_from_dispatch :
    let interrupt : Fault := ⟨.fatal "KeyboardInterrupt", none⟩
    let test := Test.plain (.caller none) fun _ _ => .error interrupt
    let first := [(Label.plain "x", Schema.predicate test (.str "f")),
      (Label.plain "t", Schema.literal (.str "a") "\"a\"")]
    let second := [(Label.plain "t", Schema.literal (.str "b") "\"b\"")]
    let third := [(Label.plain "t", Schema.literal (.str [0x1f600]) "\"\\ud83d\\ude00\"")]
    let rules := [(Label.plain "a", first), (Label.plain "b", second)]
    let others := [(Label.plain [0x1f600], third)]
    let heap := ⟨#[.validator ⟨"Shape", []⟩, .validator ⟨"Shape", []⟩, .validator ⟨"Shape", []⟩,
      .dict [(.str "a", .ref 0), (.str "b", .ref 1)], .dict [(.str [0x1f600], .ref 2)]]⟩
    let store := { Store.empty with
      heap := heap, schemas := [(0, .shape first), (1, .shape second), (2, .shape third)] }
    let s := Session.holding [.dict [(.str "t", .str "b"), (.str "x", .int 1)],
      .dict [(.str "t", .str [0xd83d, 0xde00])]] ⟨3, 16⟩
    (∃ made after t t', Build.taggedUnion (.str "t") (.ref 3) store = .ok made after ∧
      after.schemaOf? made = some (.taggedUnion (.plain "t") rules) ∧
      run (.taggedUnion (.plain "t") rules) (.ref 0) .null s = .ok true t ∧
      run (plainUnion rules) (.ref 0) .null s = .error (.fault interrupt) t') ∧
    ∃ made after t t', Build.taggedUnion (.str "t") (.ref 4) store = .ok made after ∧
      after.schemaOf? made = some (.taggedUnion (.plain "t") others) ∧
      run (.taggedUnion (.plain "t") others) (.ref 1) .null s = .ok false t ∧
      run (plainUnion others) (.ref 1) .null s = .ok true t' := by
  constructor
  · exact ⟨_, _, _, _, rfl, rfl, rfl, rfl⟩
  · exact ⟨_, _, _, _, rfl, rfl, rfl, rfl⟩

end Conform
