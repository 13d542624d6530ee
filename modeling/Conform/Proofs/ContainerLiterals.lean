import Conform.Proofs.Readability

namespace Conform

/-!
# Literals of containers

A literal of a list, a tuple or a dictionary accepts the values that have the structure of its
constant, and no others.  The keys of dictionaries are compared by their texts: a string key counts
as the same as the number that is written like it.

* `Value.ShownKey` — the texts of keys, were they those that are shown for them;
* `Heap.isSome_canonical?_of_flat` — a dictionary of plain values has a canonical form;
* `Build.exists_container_verdict` — a literal of a container looks at the structure;
* `container_literals_accept_same_structure` — what literals of containers accept, as they are built
  and run.
-/

variable {s : Session} {settings : Settings} {opts : Value} {options : Options}

/-- A literal of a container has a verdict on every value: whether it has the structure that the
    constant had when the literal was built, as far as units tell. -/
theorem Build.exists_container_verdict (hsettings : s.Settled settings)
    (hdepth : 0 < settings.maxDepth) (hopts : Options.coerce s.store.heap opts = .ok options)
    (hsink : options.logFailures = true → ∀ sink, options.sink = some sink → s.Harmless sink)
    {store after : Store} {c made : Value} (hc : store.heap.IsContainer c)
    (hbuild : Build.literal c store = .ok made after) :
    ∃ schema, after.schemaOf? made = some schema ∧
      ∀ v, ∃ verdict t, run schema v opts s = .ok verdict t ∧
        (verdict = true ↔ s.store.heap.SameUnits Value.JsonKey store.heap v c) := by
  obtain ⟨-, canonical, hcanonical, hnames⟩ := Build.literal_spec hbuild
  refine ⟨_, hnames.schemaOf?, fun v => ?_⟩
  obtain ⟨verdict, t, hrun, hiff⟩ := exists_literal_run hsettings hdepth hopts hsink c canonical v
  exact ⟨verdict, t, hrun, hiff.trans (Heap.canonical?_eq_iff_sameUnits hc hcanonical)⟩

/-- A literal of a list, a tuple or a dictionary accepts a value if and only if it has the same
    structure, where the keys of dictionaries are the same if they have one text.  A key that is an
    integer of too many digits has none, and the floats that are not finite have their names in
    JSON.  Containers of different structure share no canonical form.  This is for values that are
    nested fewer than 300 levels, so that no call stack is exhausted by writing them, and for strings
    in which no surrogates look like a pair. -/
theorem container_literals_accept_same_structure (hsettings : s.Settled settings)
    (hdepth : 0 < settings.maxDepth) (hopts : Options.coerce s.store.heap opts = .ok options)
    (hsink : options.logFailures = true → ∀ sink, options.sink = some sink → s.Harmless sink) :
    (∀ store c made after, store.heap.IsContainer c → store.heap.NestsBelow 300 c →
      store.heap.Unpaired Value.JsonKey c → Build.literal c store = .ok made after →
      ∃ schema, after.schemaOf? made = some schema ∧
        ∀ v, ∃ verdict t, run schema v opts s = .ok verdict t ∧
          (s.store.heap.NestsBelow 300 v → s.store.heap.Unpaired Value.JsonKey v →
            (verdict = true ↔ s.store.heap.SameStructure Value.JsonKey store.heap v c))) ∧
    (∀ (h h' : Heap) (v w : Value) (text : Text), h'.IsContainer w → h.NestsBelow 300 v →
      h'.NestsBelow 300 w → h.Unpaired Value.JsonKey v → h'.Unpaired Value.JsonKey w →
      h.canonical? v = some text → h'.canonical? w = some text →
      h.SameStructure Value.JsonKey h' v w) := by
  constructor
  · intro store c made after hc _ hcunpaired hbuild
    obtain ⟨schema, hschema, hruns⟩ :=
      Build.exists_container_verdict hsettings hdepth hopts hsink hc hbuild
    refine ⟨schema, hschema, fun v => ?_⟩
    obtain ⟨verdict, t, hrun, hiff⟩ := hruns v
    refine ⟨verdict, t, hrun, fun _ hvunpaired => hiff.trans ?_⟩
    exact ⟨fun hunits => hunits.same hvunpaired hcunpaired, fun hsame => hsame.mono fun _ _ =>
      congrArg Text.units⟩
  · intro h h' v w text hw _ _ hvunpaired hwunpaired ht hu
    exact (Heap.sameUnits_of_canonical? hw ht hu).same hvunpaired hwunpaired

/-- A dictionary is the same as another one whose key is null instead of a string, but a list is not
    the same as the string that is written like it. -/
theorem container_literals_accept_same_structure_of_null_key :
    let s := Session.holding [.dict [(.str "null", .ref 1)], .list [.str "a"],
      .dict [(.null, .ref 3)], .tuple [.str "a"], .dict [(.null, .str "[\"a\"]")]] ⟨2, 16⟩
    ∃ after schema t t', Build.literal (.ref 0) s.store = .ok (.ref 5) after ∧
      after.schemaOf? (.ref 5) = some schema ∧ run schema (.ref 2) .null s = .ok true t ∧
      run schema (.ref 4) .null s = .ok false t' := by
  intro s
  have hopts : Options.coerce s.store.heap .null = .ok .usual := rfl
  obtain ⟨haccepts, -⟩ :=
    container_literals_accept_same_structure (.inl rfl) (by decide) hopts nofun
  have hcanonical : s.store.heap.canonical? (.ref 0) = some ("\x7b\"null\":[\"a\"]\x7d" : Text) := by
    decide +kernel
  obtain ⟨after, hbuild⟩ := Build.exists_literal rfl hcanonical
  -- the dictionaries are flat enough, and there are no surrogates in them
  have hitem (text : String) : s.store.heap.NestsBelow 298 (.str text) ∧
      s.store.heap.Unpaired Value.JsonKey (.str text) :=
    ⟨Heap.nestsBelow_scalar rfl, Heap.unpaired_scalar rfl (Value.unpaired_ofString text)⟩
  have hlist {a : Addr} {text : String} (hs : s.store.heap.sequence? (.ref a) = some [.str text]) :
      s.store.heap.NestsBelow 299 (.ref a) ∧ s.store.heap.Unpaired Value.JsonKey (.ref a) :=
    ⟨Heap.nestsBelow_sequence hs fun item h => List.mem_singleton.mp h ▸ (hitem text).1,
      Heap.unpaired_sequence hs fun item h => List.mem_singleton.mp h ▸ (hitem text).2⟩
  have hdictionary {a : Addr} {key v : Value} (hd : s.store.heap.dictionary? (.ref a) = some [(key, v)])
      (hkey : key.jsonKey? = some ("null" : Text)) (hv : s.store.heap.NestsBelow 299 v ∧
        s.store.heap.Unpaired Value.JsonKey v) :
      s.store.heap.NestsBelow 300 (.ref a) ∧ s.store.heap.Unpaired Value.JsonKey (.ref a) := by
    refine ⟨Heap.nestsBelow_dictionary hd fun entry h => List.mem_singleton.mp h ▸ hv.1,
      Heap.unpaired_dictionary hd fun entry h => ?_⟩
    rw [List.mem_singleton.mp h]
    refine ⟨fun text htext => ?_, hv.2⟩
    obtain rfl := Option.some.inj (hkey.symm.trans (Value.jsonKey_iff.mp htext))
    exact Text.unpaired_ofString "null"
  have hconstant := hdictionary (a := 0) rfl rfl (hlist rfl)
  have haccepted := hdictionary (a := 2) rfl rfl (hlist rfl)
  have hrefused := hdictionary (a := 4) (v := .str "[\"a\"]") rfl rfl
    ⟨Heap.nestsBelow_scalar rfl, (hitem _).2⟩
  obtain ⟨schema, hschema, hruns⟩ := haccepts _ _ _ _ (.inr rfl) hconstant.1 hconstant.2 hbuild
  obtain ⟨verdict, t, hrun, hiff⟩ := hruns (.ref 2)
  obtain ⟨verdict', t', hrun', hiff'⟩ := hruns (.ref 4)
  have hsame : s.store.heap.SameStructure Value.JsonKey s.store.heap (.ref 2) (.ref 0) := by
    refine .dictionary rfl rfl rfl (fun pair hpair => ?_) fun pair hpair => ?_
    · rw [List.mem_singleton.mp hpair]
      exact ⟨"null", "null", .null, .text rfl, rfl⟩
    · rw [List.mem_singleton.mp hpair]
      refine .sequence rfl rfl rfl fun pair hpair => ?_
      rw [List.mem_singleton.mp hpair]
      exact .text rfl rfl rfl
  have hdifferent : ¬ s.store.heap.SameStructure Value.JsonKey s.store.heap (.ref 4) (.ref 0) := by
    intro hsame
    obtain ⟨-, hentries⟩ := hsame.of_dictionary rfl rfl
    -- the string under the key would have to be a list
    cases (hentries ((.null, .str "[\"a\"]"), (.str "null", .ref 1)) List.mem_cons_self).2 with
    | text _ hw _ => cases hw
    | sequence hv _ _ _ => cases hv
    | dictionary hv _ _ _ _ => cases hv
  obtain rfl : verdict = true := (hiff haccepted.1 haccepted.2).mpr hsame
  obtain rfl : verdict' = false := Bool.eq_false_iff.mpr fun htrue =>
    hdifferent ((hiff' hrefused.1 hrefused.2).mp htrue)
  exact ⟨after, schema, t, t', hbuild, hschema, hrun, hrun'⟩

/-! ### Keys that are shown alike -/

/-- The text of a key as it is shown: an integer has it, however many digits it has, and the floats
    that are not finite go by the names under which they are shown. -/
def Value.ShownKey : Value → Text → Prop := Value.KeyText displayNames fun _ => True

/-- A dictionary of plain values has a canonical form. -/
theorem Heap.isSome_canonical?_of_flat {h : Heap} {a : Addr} {entries : List (Value × Value)}
    (hd : h.dictionary? (.ref a) = some entries)
    (hentries : ∀ entry ∈ entries, entry.1.Plain ∧ entry.2.Plain) :
    (h.canonical? (.ref a)).isSome := by
  have hunfold : h.canonical? (.ref a) = h.jsonWithin? canonicalStyle (998 + 1 + 1) [] (.ref a) :=
    rfl
  rw [hunfold, jsonWithin?_eq_jsonObject? hd List.not_mem_nil, isSome_jsonObject?_iff]
  intro entry he
  obtain ⟨hkey, hvalue⟩ := hentries entry he
  refine ⟨hkey, ?_⟩
  rw [jsonWithin?_of_isScalar hvalue.1]
  exact Value.isSome_scalarText?_iff.mpr hvalue

/-- A dictionary of one entry is refused by the literal of another one, if their keys have no text
    in common in canonical forms, even if they are shown alike. -/
theorem refused_of_keys {key key' : Value} (hkey : key.Plain)
    (hdifferent : ∀ text text', key'.JsonKey text → key.JsonKey text' → ¬ text.SameUnits text')
    (hshown : ∃ text, key'.ShownKey text ∧ key.ShownKey text) :
    let s := Session.holding [.dict [(key, .null)], .dict [(key', .null)]] ⟨2, 16⟩
    s.store.heap.SameStructure Value.ShownKey s.store.heap (.ref 1) (.ref 0) ∧
      ∃ after schema t, Build.literal (.ref 0) s.store = .ok (.ref 2) after ∧
        after.schemaOf? (.ref 2) = some schema ∧ run schema (.ref 1) .null s = .ok false t := by
  intro s
  have hopts : Options.coerce s.store.heap .null = .ok .usual := rfl
  have hsame : s.store.heap.SameStructure Value.ShownKey s.store.heap (.ref 1) (.ref 0) := by
    refine .dictionary rfl rfl rfl (fun pair hpair => ?_) fun pair hpair => ?_
    · rw [List.mem_singleton.mp hpair]
      obtain ⟨text, htext, htext'⟩ := hshown
      exact ⟨text, text, htext, htext', rfl⟩
    · rw [List.mem_singleton.mp hpair]
      exact .null
  -- the literal is built, so that its verdict is a matter of structure
  have hsome : (s.store.heap.canonical? (.ref 0)).isSome := by
    have hd : s.store.heap.dictionary? (.ref 0) = some [(key, .null)] := rfl
    refine Heap.isSome_canonical?_of_flat hd fun entry he => ?_
    rw [List.mem_singleton.mp he]
    exact ⟨hkey, rfl, nofun⟩
  obtain ⟨canonical, hcanonical⟩ := Option.isSome_iff_exists.mp hsome
  obtain ⟨after, hbuild⟩ := Build.exists_literal rfl hcanonical
  obtain ⟨schema, hschema, hruns⟩ :=
    Build.exists_container_verdict (.inl rfl) (by decide) hopts nofun (.inr rfl) hbuild
  obtain ⟨verdict, t, hrun, hiff⟩ := hruns (.ref 1)
  have hnot : ¬ s.store.heap.SameUnits Value.JsonKey s.store.heap (.ref 1) (.ref 0) := by
    intro hsame
    obtain ⟨-, hentries⟩ := hsame.of_dictionary rfl rfl
    obtain ⟨text, text', htext, htext', hunits⟩ :=
      (hentries ((key', .null), (key, .null)) List.mem_cons_self).1
    exact hdifferent text text' htext htext' hunits
  obtain rfl : verdict = false := Bool.eq_false_iff.mpr fun htrue => hnot (hiff.mp htrue)
  exact ⟨hsame, after, schema, t, hbuild, hschema, hrun⟩

/-- An integer of one digit too many is shown like the string of its digits, and what is not a
    number like the string of its name; but a dictionary with the one as its key is not accepted by
    the literal of a dictionary with the other one. -/
theorem keys_shown_alike_refused :
    (let s := Session.holding [.dict [(.str (toString (digitBound : Int)), .null)],
      .dict [(.int digitBound, .null)]] ⟨2, 16⟩
     s.store.heap.SameStructure Value.ShownKey s.store.heap (.ref 1) (.ref 0) ∧
      ∃ after schema t, Build.literal (.ref 0) s.store = .ok (.ref 2) after ∧
        after.schemaOf? (.ref 2) = some schema ∧ run schema (.ref 1) .null s = .ok false t) ∧
    (let s := Session.holding [.dict [(.float ⟨0x7ff8000000000000⟩, .null)],
      .dict [(.str "nan", .null)]] ⟨2, 16⟩
     s.store.heap.SameStructure Value.ShownKey s.store.heap (.ref 1) (.ref 0) ∧
      ∃ after schema t, Build.literal (.ref 0) s.store = .ok (.ref 2) after ∧
        after.schemaOf? (.ref 2) = some schema ∧ run schema (.ref 1) .null s = .ok false t) := by
  constructor
  · refine refused_of_keys ⟨rfl, nofun⟩ (fun text _ hint => ?_) ⟨_, .int trivial, .text rfl⟩
    have hplain : (Value.int digitBound).Plain :=
      Value.isSome_jsonKey?_iff.mp (Option.isSome_iff_exists.mpr ⟨text, Value.jsonKey_iff.mp hint⟩)
    have hlt := hplain.2 _ rfl
    rw [Int.natAbs_natCast] at hlt
    exact absurd hlt (Nat.lt_irrefl _)
  · have hnan : Binary64.text displayNames ⟨0x7ff8000000000000⟩ = "nan" := by decide +kernel
    refine refused_of_keys ⟨rfl, nofun⟩ (fun text text' hstring hfloat => ?_) ⟨"nan", .text rfl, ?_⟩
    · have hname : Value.jsonKey? (.float ⟨0x7ff8000000000000⟩) = some ("NaN" : Text) := by
        decide +kernel
      obtain rfl := Option.some.inj (Value.jsonKey_iff.mp hstring)
      obtain rfl := Option.some.inj (hname.symm.trans (Value.jsonKey_iff.mp hfloat))
      exact fun hunits => absurd hunits.symm (by decide)
    · have hshown : Value.ShownKey (.float ⟨0x7ff8000000000000⟩)
          (Binary64.text displayNames ⟨0x7ff8000000000000⟩) := .float _
      rwa [hnan] at hshown

end Conform
