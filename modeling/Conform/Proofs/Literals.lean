import Conform.Proofs.Construction
import Conform.Proofs.Scalar
import Conform.Proofs.Totality

namespace Conform

/-!
# Literals of scalars

A literal of a scalar accepts the values that are the same scalar, and no others; a literal of
several scalars accepts those that are the same as one of them.  Strings are compared by the units of
UTF-16, which do not tell a pair of surrogates from the character that it stands for.

* `Heap.Matches` — a value has the canonical form that a literal asks for;
* `Schema.exists_union_verdict` — a union of literals has a verdict on every value, also on one
  whose look-ups would raise;
* `Build.exists_literal_iff` — of which scalars there are literals;
* `literals_accept_same_scalars` — what literals accept, as they are built and run;
* `values_sharing_texts_accepted` — values that are accepted though they are not the constant.
-/

/-! ### Verdicts of literals -/

/-- A value has the canonical form that a literal asks for. -/
def Heap.Matches (heap : Heap) (v : Value) (schema : Schema) : Prop :=
  ∃ constant canonical, schema = .literal constant canonical ∧ heap.canonical? v = some canonical

section Verdicts

variable {scope : Scope} {v : Value}

/-- A literal looks at the canonical form of a value only. -/
theorem Schema.exists_literal_verdict (hdepth : 0 < scope.maxDepth) (constant : Value)
    (canonical : Text) :
    ∃ verdict, ((Schema.literal constant canonical).rootOutcome scope v).result = .ok verdict ∧
      (verdict = true ↔ scope.heap.canonical? v = some canonical) := by
  obtain ⟨levels, hlevels⟩ := Nat.exists_eq_add_one_of_ne_zero (Nat.ne_of_gt hdepth)
  refine ⟨_, rootOutcome_of_verdict ?_, beq_iff_eq⟩
  rw [hlevels]
  rfl

/-- So does a union of literals, which needs one level more. -/
theorem Schema.exists_union_verdict (hdepth : 2 ≤ scope.maxDepth) {schemas : List Schema}
    (h : ∀ schema ∈ schemas, ∃ constant canonical, schema = .literal constant canonical) :
    ∃ verdict, ((Schema.union schemas).rootOutcome scope v).result = .ok verdict ∧
      (verdict = true ↔ ∃ schema ∈ schemas, scope.heap.Matches v schema) := by
  obtain ⟨levels, hlevels⟩ := Nat.exists_eq_add_of_le' hdepth
  have hdecides (schema : Schema) (hs : schema ∈ schemas) :
      (schema.outcome scope (levels + 1) v).Decides (scope.heap.Matches v schema) := by
    obtain ⟨constant, canonical, rfl⟩ := h schema hs
    refine (Outcome.Decides.of_result rfl).congr (beq_iff_eq.trans ?_)
    simp [Heap.Matches]
  have hunion : ((Schema.union schemas).outcome scope scope.maxDepth v).RaisesOnly
      (fun _ => False) := by
    intro fault hfault
    rw [outcome_raises_iff, hlevels] at hfault
    obtain ⟨raised, hfirst, -⟩ := hfault
    obtain ⟨schema, hs, hraises⟩ := hfirst.exists_mem
    -- a literal is no place that a fault comes from
    obtain ⟨constant, canonical, rfl⟩ := h schema hs
    exact hraises
  have hany : ((Schema.union schemas).outcome scope scope.maxDepth v).Decides
      (∃ schema ∈ schemas, scope.heap.Matches v schema) := by
    rw [hlevels]
    exact ((((Outcome.anyOf_decides hdecides).mapFault _).tentative).orElse
      (Outcome.refusal_decides scope _)).congr (iff_of_eq (or_false _))
  obtain ⟨verdict, hresult, hiff⟩ := Outcome.exists_verdict hunion hany
  exact ⟨verdict, rootOutcome_of_verdict hresult, hiff⟩

end Verdicts

/-- The run of a literal returns, and accepts what has the canonical form. -/
theorem exists_literal_run {s : Session} {settings : Settings} {opts : Value} {options : Options}
    (hsettings : s.Settled settings) (hdepth : 0 < settings.maxDepth)
    (hopts : Options.coerce s.store.heap opts = .ok options)
    (hsink : options.logFailures = true → ∀ sink, options.sink = some sink → s.Harmless sink)
    (constant : Value) (canonical : Text) (v : Value) :
    ∃ verdict t, run (.literal constant canonical) v opts s = .ok verdict t ∧
      (verdict = true ↔ s.store.heap.canonical? v = some canonical) := by
  let scope := s.scope settings options.logFailures
  obtain ⟨verdict, hresult, hiff⟩ : ∃ verdict,
      ((Schema.literal constant canonical).rootOutcome scope v).result = .ok verdict ∧
        (verdict = true ↔ s.store.heap.canonical? v = some canonical) :=
    Schema.exists_literal_verdict hdepth constant canonical
  obtain ⟨t, hrun⟩ := run_of_verdict hsettings hopts hsink hresult
  exact ⟨verdict, t, hrun, hiff⟩

/-! ### Literals as they are built and run -/

/-- A value has the canonical form that the literal of a scalar asks for if and only if it is the
    same scalar, as far as units tell. -/
theorem Heap.matches_iff {heap : Heap} {v c : Value} {schema : Schema} (hscalar : c.isScalar = true)
    (h : Build.IsLiteralOf c schema) : heap.Matches v schema ↔ v.SameUnits c := by
  obtain ⟨heap', canonical, hcanonical, rfl⟩ := h
  have hsame : heap.canonical? v = some canonical ↔ v.SameUnits c :=
    canonical?_eq_iff hscalar hcanonical
  simp [Matches, hsame]

theorem Heap.exists_matches_iff {heap : Heap} {v : Value} {constants : List Value}
    {schemas : List Schema} (h : List.Forall₂ Build.IsLiteralOf constants schemas)
    (hscalar : ∀ c ∈ constants, c.isScalar = true) :
    (∃ schema ∈ schemas, heap.Matches v schema) ↔ ∃ c ∈ constants, v.SameUnits c := by
  induction h with
  | nil => simp
  | @cons c schema constants schemas hc _ ih =>
    have hrest := ih fun c' hc' => hscalar c' (List.mem_cons_of_mem c hc')
    simp [hrest, matches_iff (hscalar c List.mem_cons_self) hc]

/-- Literals are made of all scalars but the integers of too many digits. -/
theorem Build.exists_literal_iff {c : Value} {s : Store} (hscalar : c.isScalar = true) :
    (∃ made after, Build.literal c s = .ok made after) ↔
      ∀ n, c = .int n → n.natAbs < digitBound := by
  rw [← Heap.canonical?_isSome_iff (h := s.heap) hscalar]
  constructor
  · rintro ⟨made, after, hbuild⟩
    obtain ⟨-, canonical, hcanonical, -⟩ := Build.literal_spec hbuild
    rw [hcanonical]
    rfl
  · intro hsome
    obtain ⟨canonical, hcanonical⟩ := Option.isSome_iff_exists.mp hsome
    have hconstant : s.heap.isCallable c = false := by
      cases c with
      | null | bool _ | int _ | float _ | str _ | code _ => rfl
      | _ => cases hscalar
    obtain ⟨after, hbuild⟩ := Build.exists_literal hconstant hcanonical
    exact ⟨_, after, hbuild⟩

/-- Literals are made of all scalars but the integers of too many digits.  A literal of a scalar
    accepts a value if and only if the value is the same scalar, and a literal of several scalars if
    and only if it is the same as one of them, unless there are surrogates in them that look like a
    pair.  The runs return, whatever the value is, and whatever session they are in. -/
theorem literals_accept_same_scalars {s : Session} {settings : Settings} {opts : Value}
    {options : Options} (hsettings : s.Settled settings) (hdepth : 0 < settings.maxDepth)
    (hopts : Options.coerce s.store.heap opts = .ok options)
    (hsink : options.logFailures = true → ∀ sink, options.sink = some sink → s.Harmless sink) :
    (∀ store c, c.isScalar = true →
      ((∃ made after, Build.literal c store = .ok made after) ↔
        ∀ n, c = .int n → n.natAbs < digitBound)) ∧
    (∀ store c made after, c.isScalar = true → Build.literal c store = .ok made after →
      ∃ schema, after.schemaOf? made = some schema ∧
        ∀ v, ∃ verdict t, run schema v opts s = .ok verdict t ∧
          (c.Unpaired → v.Unpaired → (verdict = true ↔ v.Same c))) ∧
    (2 ≤ settings.maxDepth → ∀ store constants items made after,
      store.heap.items? constants = some items → (∀ c ∈ items, c.isScalar = true) →
      Build.literals constants store = .ok made after →
      ∃ schema, after.schemaOf? made = some schema ∧
        ∀ v, ∃ verdict t, run schema v opts s = .ok verdict t ∧
          ((∀ c ∈ items, c.Unpaired) → v.Unpaired →
            (verdict = true ↔ ∃ c ∈ items, v.Same c))) := by
  refine ⟨fun store c hscalar => Build.exists_literal_iff hscalar, ?_, ?_⟩
  · intro store c made after hscalar hbuild
    obtain ⟨-, canonical, hcanonical, hnames⟩ := Build.literal_spec hbuild
    refine ⟨_, hnames.schemaOf?, fun v => ?_⟩
    obtain ⟨verdict, t, hrun, hiff⟩ :=
      exists_literal_run hsettings hdepth hopts hsink c canonical v
    refine ⟨verdict, t, hrun, fun hc hv => ?_⟩
    exact (hiff.trans (Heap.canonical?_eq_iff hscalar hcanonical)).trans (Value.sameUnits_iff hv hc)
  · intro hdepth store constants items made after hitems hscalar hbuild
    obtain ⟨-, schemas, hschemas, hnames⟩ := Build.literals_spec hitems hbuild
    have hliterals (schema : Schema) (hs : schema ∈ schemas) :
        ∃ constant canonical, schema = .literal constant canonical := by
      obtain ⟨c, -, heap, canonical, -, hschema⟩ := exists_mem_of_forall₂ hschemas hs
      exact ⟨c, canonical, hschema⟩
    refine ⟨_, hnames.schemaOf?, fun v => ?_⟩
    let scope := s.scope settings options.logFailures
    obtain ⟨verdict, hresult, hiff⟩ : ∃ verdict,
        ((Schema.union schemas).rootOutcome scope v).result = .ok verdict ∧
          (verdict = true ↔ ∃ schema ∈ schemas, s.store.heap.Matches v schema) :=
      Schema.exists_union_verdict hdepth hliterals
    obtain ⟨t, hrun⟩ := run_of_verdict hsettings hopts hsink hresult
    refine ⟨verdict, t, hrun, fun hitems hv => ?_⟩
    rw [hiff, Heap.exists_matches_iff hschemas hscalar]
    exact exists_congr fun c => and_congr_right fun hc => Value.sameUnits_iff hv (hitems c hc)

/-- The float 1.0 is the same as the integer 1, and true is neither null nor a string. -/
theorem literals_accept_same_scalars_of_one :
    let s := Session.holding [.list [.null, .str "a"]] ⟨2, 16⟩
    (∃ after schema t, Build.literal (.int 1) s.store = .ok (.ref 1) after ∧
      after.schemaOf? (.ref 1) = some schema ∧
      run schema (.float ⟨0x3ff0000000000000⟩) .null s = .ok true t) ∧
    ∃ after schema t, Build.literals (.ref 0) s.store = .ok (.ref 5) after ∧
      after.schemaOf? (.ref 5) = some schema ∧ run schema (.bool true) .null s = .ok false t := by
  intro s
  have hopts : Options.coerce s.store.heap .null = .ok .usual := rfl
  obtain ⟨-, hone, hseveral⟩ := literals_accept_same_scalars (.inl rfl) (by decide) hopts nofun
  constructor
  · have hcanonical : s.store.heap.canonical? (.int 1) = some "1" := by decide +kernel
    obtain ⟨after, hbuild⟩ := Build.exists_literal rfl hcanonical
    obtain ⟨schema, hschema, hruns⟩ := hone _ _ _ _ rfl hbuild
    obtain ⟨verdict, t, hrun, hiff⟩ := hruns (.float ⟨0x3ff0000000000000⟩)
    have hsame : Value.Same (.float ⟨0x3ff0000000000000⟩) (.int 1) := by
      refine .number (congrArg some (Binary64.integral?_eq_some_iff.mp ?_)) rfl
      decide +kernel
    obtain rfl : verdict = true := (hiff nofun nofun).mpr hsame
    exact ⟨after, schema, t, hbuild, hschema, hrun⟩
  · have hitems : s.store.heap.items? (.ref 0) = some [.null, .str "a"] := rfl
    have hbuild : ∃ after, Build.literals (.ref 0) s.store = .ok (.ref 5) after := ⟨_, rfl⟩
    obtain ⟨after, hbuild⟩ := hbuild
    obtain ⟨schema, hschema, hruns⟩ := hseveral (by decide) _ _ _ _ _ hitems (by decide) hbuild
    obtain ⟨verdict, t, hrun, hiff⟩ := hruns (.bool true)
    have hnone : ¬ ∃ c ∈ [Value.null, .str "a"], (Value.bool true).Same c := by
      rintro ⟨c, hc, hsame⟩
      cases hsame with
      | bool b => exact absurd hc (by decide)
      | text hv _ _ => cases hv
      | number hv _ => cases hv
    have hunpaired : ∀ c ∈ [Value.null, .str "a"], c.Unpaired := by
      intro c hc
      obtain rfl | rfl : c = .null ∨ c = .str "a" := by simpa using hc
      · exact nofun
      · exact Value.unpaired_ofString "a"
    obtain rfl : verdict = false := Bool.eq_false_iff.mpr fun htrue =>
      hnone ((hiff hunpaired nofun).mp htrue)
    exact ⟨after, schema, t, hbuild, hschema, hrun⟩

/-! ### Values that share a text -/

/-- The literal of a constant accepts whatever has the canonical form of the constant. -/
theorem Build.exists_literal_accepting {s : Session} {settings : Settings}
    (hsettings : s.Settled settings) (hdepth : 0 < settings.maxDepth) {constant v : Value}
    (hconstant : s.store.heap.isCallable constant = false)
    (hsome : (s.store.heap.canonical? constant).isSome)
    (hv : s.store.heap.canonical? v = s.store.heap.canonical? constant) :
    ∃ made after schema t, Build.literal constant s.store = .ok made after ∧
      after.schemaOf? made = some schema ∧ run schema v .null s = .ok true t := by
  obtain ⟨canonical, hcanonical⟩ := Option.isSome_iff_exists.mp hsome
  obtain ⟨after, hbuild⟩ := Build.exists_literal hconstant hcanonical
  obtain ⟨-, text, htext, hnames⟩ := Build.literal_spec hbuild
  have hopts : Options.coerce s.store.heap .null = .ok .usual := rfl
  obtain ⟨verdict, t, hrun, hiff⟩ :=
    exists_literal_run hsettings hdepth hopts nofun constant text v
  obtain rfl : verdict = true := hiff.mpr (hv.trans htext)
  exact ⟨_, after, _, t, hbuild, hnames.schemaOf?, hrun⟩

/-- A pair of surrogates is accepted by the literal of the character that it stands for, though the
    texts are not equal; and a tuple is accepted by the literal of a list of the same items. -/
theorem values_sharing_texts_accepted :
    let s := Session.holding [.list [.int 1], .tuple [.int 1]] ⟨2, 16⟩
    (¬ (Value.str [0xd83d, 0xde00]).Same (.str [0x1f600]) ∧
      ∃ made after schema t, Build.literal (.str [0x1f600]) s.store = .ok made after ∧
        after.schemaOf? made = some schema ∧
        run schema (.str [0xd83d, 0xde00]) .null s = .ok true t) ∧
    ∃ made after schema t, Build.literal (.ref 0) s.store = .ok made after ∧
      after.schemaOf? made = some schema ∧ run schema (.ref 1) .null s = .ok true t := by
  intro s
  refine ⟨⟨?_, ?_⟩, ?_⟩
  · rintro (_ | _ | ⟨hs, ht, h⟩ | ⟨hq, -⟩)
    · obtain rfl := Option.some.inj hs
      obtain rfl := Option.some.inj ht
      exact absurd h (by decide)
    · cases hq
  · have hshared : s.store.heap.canonical? (.str [0xd83d, 0xde00]) =
        s.store.heap.canonical? (.str [0x1f600]) := by decide +kernel
    exact Build.exists_literal_accepting (.inl rfl) (by decide) rfl rfl hshared
  · have hshared : s.store.heap.canonical? (.ref 1) = s.store.heap.canonical? (.ref 0) := by
      decide +kernel
    exact Build.exists_literal_accepting (.inl rfl) (by decide) rfl (by decide +kernel) hshared

end Conform
