import Conform.Proofs.Variants
import Conform.Proofs.Verdict

namespace Conform

/-!
# Intersected shapes

An intersection of shapes asks every shape whether all its fields accept; one shape of the same
names, in which every name has the intersection of the rules declared for it, asks for every name
whether all these rules accept.  The two come to the same, and to the same at every bound on the
depth that reaches the rules at all, because the rules lie two levels below the root on both sides.

* `declaredUnder` — the rules that some shapes declare for a name;
* `Merges` — the fields of the one shape;
* `accepts_cut_merge_iff` — the two meanings, cut at the same depth;
* `Build.Intersects`, `Build.IsMerge` — validators and mappings as they are made for it;
* `intersected_shapes_merge` — the two validators as they are built and run.
-/

/-! ### Merged fields -/

/-- The rules that some shapes declare for a name, shape by shape. -/
def declaredUnder (key : Text) (shapes : List (List (Label × Schema))) : List Schema :=
  shapes.flatMap fun fields => (fields.filter fun field => field.1.content = key).map Prod.snd

/-- A name belongs to one of some shapes. -/
def IsDeclared (key : Text) (shapes : List (List (Label × Schema))) : Prop :=
  ∃ fields ∈ shapes, ∃ field ∈ fields, field.1.content = key

/-- Fields for every name of some shapes, in any order; the rule of a name is the intersection of
    all that is declared for it. -/
structure Merges (shapes : List (List (Label × Schema))) (merged : List (Label × Schema)) :
    Prop where
  rule : ∀ field ∈ merged, field.2 = .intersection (declaredUnder field.1.content shapes)
  names : ∀ key, (∃ field ∈ merged, field.1.content = key) ↔ IsDeclared key shapes

variable {shapes : List (List (Label × Schema))} {merged : List (Label × Schema)}

theorem mem_declaredUnder_iff {key : Text} {rule : Schema} :
    rule ∈ declaredUnder key shapes ↔
      ∃ fields ∈ shapes, ∃ field ∈ fields, field.1.content = key ∧ field.2 = rule := by
  simp only [declaredUnder, List.mem_flatMap, List.mem_map, List.mem_filter, decide_eq_true_eq,
    and_assoc]

/-- To go through the merged fields, and through the rules of each, is to go through the fields of
    every shape. -/
theorem Merges.forall_iff (h : Merges shapes merged) {p : Text → Schema → Prop} :
    (∀ field ∈ merged, ∀ rule ∈ declaredUnder field.1.content shapes, p field.1.content rule) ↔
      ∀ fields ∈ shapes, ∀ field ∈ fields, p field.1.content field.2 := by
  constructor
  · intro hall fields hfields field hfield
    have hdeclared : IsDeclared field.1.content shapes := ⟨fields, hfields, field, hfield, rfl⟩
    obtain ⟨other, hother, hname⟩ := (h.names field.1.content).mpr hdeclared
    have hrule := hall other hother field.2
      (mem_declaredUnder_iff.mpr ⟨fields, hfields, field, hfield, hname.symm, rfl⟩)
    rwa [hname] at hrule
  · rintro hall other - rule hrule
    obtain ⟨fields, hfields, field, hfield, hname, rfl⟩ := mem_declaredUnder_iff.mp hrule
    rw [← hname]
    exact hall fields hfields field hfield

/-! ### Meanings -/

section Meanings

variable {heap : Heap} {passes : Test → Value → Prop} {v : Value}

/-- What an intersection of shapes accepts when it is cut below its fields. -/
theorem accepts_cut_shapes_iff (levels : Nat) (hne : shapes ≠ []) :
    Accepts heap passes ((Schema.intersection (shapes.map .shape)).cut (levels + 2)) v ↔
      ∃ m, heap.mapping? v = some m ∧ ∀ fields ∈ shapes, ∀ field ∈ fields,
        Accepts heap passes (field.2.cut levels) (m.content field.1.content) := by
  have hshape (fields : List (Label × Schema)) :
      Accepts heap passes ((Schema.shape fields).cut (levels + 1)) v ↔
        ∃ m, heap.mapping? v = some m ∧ ∀ field ∈ fields,
          Accepts heap passes (field.2.cut levels) (m.content field.1.content) := by
    rw [Schema.cut, Schema.mapChildren, accepts_shape_iff]
    simp only [List.forall_mem_map]
  rw [Schema.cut, Schema.mapChildren, accepts_intersection_iff]
  simp only [List.forall_mem_map, hshape]
  constructor
  · intro hall
    -- some shape says that the value is a mapping; an empty intersection would not
    obtain ⟨first, hfirst⟩ := List.exists_mem_of_ne_nil shapes hne
    obtain ⟨m, hm, -⟩ := hall first hfirst
    refine ⟨m, hm, fun fields hfields => ?_⟩
    obtain ⟨m', hm', hfield⟩ := hall fields hfields
    obtain rfl := Option.some.inj (hm.symm.trans hm')
    exact hfield
  · rintro ⟨m, hm, hall⟩ fields hfields
    exact ⟨m, hm, hall fields hfields⟩

/-- What a shape of intersections accepts when it is cut below the intersections. -/
theorem accepts_cut_merged_iff (h : Merges shapes merged) (levels : Nat) :
    Accepts heap passes ((Schema.shape merged).cut (levels + 2)) v ↔
      ∃ m, heap.mapping? v = some m ∧ ∀ field ∈ merged,
        ∀ rule ∈ declaredUnder field.1.content shapes,
          Accepts heap passes (rule.cut levels) (m.content field.1.content) := by
  have hrule (field : Label × Schema) (hfield : field ∈ merged) (w : Value) :
      Accepts heap passes (field.2.cut (levels + 1)) w ↔
        ∀ rule ∈ declaredUnder field.1.content shapes, Accepts heap passes (rule.cut levels) w := by
    rw [h.rule field hfield, Schema.cut, Schema.mapChildren, accepts_intersection_iff]
    simp only [List.forall_mem_map]
  rw [Schema.cut, Schema.mapChildren, accepts_shape_iff]
  simp only [List.forall_mem_map]
  exact exists_congr fun m => and_congr_right fun _ =>
    forall₂_congr fun field hfield => hrule field hfield _

/-- An intersection of shapes and the merged shape mean the same, cut at the same depth. -/
theorem accepts_cut_merge_iff (h : Merges shapes merged) (hne : shapes ≠ []) (levels : Nat) :
    Accepts heap passes ((Schema.intersection (shapes.map .shape)).cut (levels + 2)) v ↔
      Accepts heap passes ((Schema.shape merged).cut (levels + 2)) v := by
  rw [accepts_cut_shapes_iff levels hne, accepts_cut_merged_iff h levels]
  exact exists_congr fun m => and_congr_right fun _ =>
    (h.forall_iff (p := fun key rule => Accepts heap passes (rule.cut levels) (m.content key))).symm

end Meanings

/-- The merged shape is conclusive if the intersection is. -/
theorem Schema.Conclusive.merge {scope : Scope} (h : Merges shapes merged)
    (hconclusive : (Schema.intersection (shapes.map .shape)).Conclusive scope) :
    (Schema.shape merged).Conclusive scope := by
  refine .of_children nofun nofun fun child hc => ?_
  obtain ⟨field, hfield, rfl⟩ := List.mem_map.mp hc
  rw [h.rule field hfield]
  refine .of_children nofun nofun fun rule hrule => ?_
  obtain ⟨fields, hfields, declared, hdeclared, -, rfl⟩ := mem_declaredUnder_iff.mp hrule
  have hshape : (Schema.shape fields).Conclusive scope :=
    hconclusive.child (List.mem_map_of_mem hfields)
  exact hshape.child (List.mem_map_of_mem hdeclared)

/-! ### Validators -/

namespace Build

variable {s t : Store}

/-- A validator that has been made, now or earlier, as the intersection of a list of validators with
    some schemas. -/
def Intersects (s : Store) (v : Value) (schemas : List Schema) : Prop :=
  ∃ before after a nodes, before.heap.cell a = .list nodes ∧
    List.Forall₂ (fun node schema => before.schemaOf? node = some schema) nodes schemas ∧
    intersectMany (.ref a) before = .ok v after ∧ after.Grows s

theorem Intersects.names {v : Value} {schemas : List Schema} (h : Intersects s v schemas) :
    s.Names v (.intersection schemas) := by
  obtain ⟨before, after, a, nodes, hcell, hnodes, hmade, hgrows⟩ := h
  exact (intersectMany_spec hcell hnodes hmade).2.later hgrows

/-- The entries of a mapping from which the merged shape is made: under every name of some shapes
    stands an intersection of what is declared for it. -/
structure IsMerge (s : Store) (shapes : List (List (Label × Schema)))
    (entries : List (Value × Value)) : Prop where
  rules : ∀ entry ∈ entries, ∃ name, entry.1.label? = some name ∧
    Intersects s entry.2 (declaredUnder name.content shapes)
  names : ∀ key, (∃ entry ∈ entries, entry.1.text? = some key) ↔ IsDeclared key shapes

/-- A validator as a child is taken as it is. -/
theorem child_of_names {place : Text} {v made : Value} {schema found : Schema}
    (hv : s.Names v schema) (h : child place v s = .ok (made, found) t) :
    t = s ∧ found = schema := by
  rw [child, bind_of_ok (get_eq s), hv.schemaOf?] at h
  cases h
  exact ⟨rfl, rfl⟩

/-- An entry of a mapping of validators, and the field that it makes in a shape. -/
def IsFieldOf (s : Store) (entry : Value × Value) (field : Label × Schema) : Prop :=
  entry.1.label? = some field.1 ∧ ∀ schema, s.Names entry.2 schema → field.2 = schema

/-- The fields of a shape are those of the mapping that it is made from, in their order. -/
theorem shape_spec {fields v : Value} {m : Mapping} (hm : s.heap.mapping? fields = some m)
    (h : shape fields s = .ok v t) :
    ∃ rules, t.Names v (.shape rules) ∧ List.Forall₂ (IsFieldOf s) m.entries rules := by
  obtain ⟨⟨made, schemas⟩, u, hshape, h⟩ := bind_eq_ok_iff.mp h
  obtain ⟨rfl, rfl⟩ := EStateM.Result.ok.inj h
  obtain ⟨rules, u', hrules, hshape⟩ := bind_eq_ok_iff.mp hshape
  obtain ⟨view, w, -, hshape⟩ := bind_eq_ok_iff.mp hshape
  obtain ⟨v, w', hadd, hshape⟩ := bind_eq_ok_iff.mp hshape
  obtain ⟨hmade, rfl⟩ := EStateM.Result.ok.inj hshape
  obtain ⟨rfl, -⟩ := Prod.mk.inj hmade
  refine ⟨_, (addValidator_spec hadd).2, ?_⟩
  rw [List.forall₂_map_right_iff]
  rw [fieldRules, bind_of_ok (get_eq s), hm] at hrules
  refine (forEntries_spec (fun entry s' rule t' hs' hrule => ?_) (.refl s) hrules).2
  -- one entry, in the store that the entries before it have left
  cases hkey : entry.1.label? with
  | none =>
    simp only [hkey] at hrule
    obtain ⟨shown, x, -, hrefuse⟩ := bind_eq_ok_iff.mp hrule
    cases hrefuse
  | some name =>
    simp only [hkey] at hrule
    obtain ⟨⟨made, schema⟩, x, hchild, hrule⟩ := bind_eq_ok_iff.mp hrule
    obtain ⟨rfl, rfl⟩ := EStateM.Result.ok.inj hrule
    refine ⟨child_adds _ _ _ _ _ hchild, hkey, fun declared hnames => ?_⟩
    exact (child_of_names (hnames.later hs') hchild).2

/-- A shape made from such entries is the merged shape. -/
theorem IsMerge.merges {entries : List (Value × Value)} (h : IsMerge s shapes entries)
    (hfields : List.Forall₂ (IsFieldOf s) entries merged) : Merges shapes merged where
  rule field hfield := by
    obtain ⟨entry, hentry, hkey, hrule⟩ := exists_mem_of_forall₂ hfields hfield
    obtain ⟨name, hname, hintersects⟩ := h.rules entry hentry
    obtain rfl := Option.some.inj (hkey.symm.trans hname)
    exact hrule _ hintersects.names
  names key := by
    rw [← h.names key]
    constructor
    · rintro ⟨field, hfield, rfl⟩
      obtain ⟨entry, hentry, hkey, -⟩ := exists_mem_of_forall₂ hfields hfield
      exact ⟨entry, hentry, by rw [Value.text?, hkey, Option.map_some]⟩
    · rintro ⟨entry, hentry, htext⟩
      obtain ⟨field, hfield, hkey, -⟩ := exists_mem_of_forall₂ hfields.flip hentry
      rw [Value.text?, hkey, Option.map_some] at htext
      exact ⟨field, hfield, Option.some.inj htext⟩

end Build

/-! ### Runs -/

/-- An intersection that has been made of a list of shapes, and the one shape that has been made
    from a mapping of each of their names to the intersection of what they declare for it: both of
    them return the same verdict for every calm value, at every bound on the depth that is at least
    two. -/
theorem intersected_shapes_merge {s : Session} {settings : Settings} {opts : Value}
    {options : Options} (hsettings : s.Settled settings)
    (hopts : Options.coerce s.store.heap opts = .ok options)
    (hsink : options.logFailures = true → ∀ sink, options.sink = some sink → s.Harmless sink)
    (hdepth : 2 ≤ settings.maxDepth) :
    ∀ shapes, shapes ≠ [] → ∀ store both, Build.Intersects store both (shapes.map .shape) →
      ∀ before after table m single, before.heap.mapping? table = some m →
        Build.IsMerge before shapes m.entries → Build.shape table before = .ok single after →
        ∃ merged, store.schemaOf? both = some (.intersection (shapes.map .shape)) ∧
          after.schemaOf? single = some (.shape merged) ∧ Merges shapes merged ∧
          ∀ v, s.store.heap.Calm v →
            (Schema.intersection (shapes.map .shape)).Conclusive
              (s.scope settings options.logFailures) →
            ∃ verdict t t', run (.intersection (shapes.map .shape)) v opts s = .ok verdict t ∧
              run (.shape merged) v opts s = .ok verdict t' := by
  intro shapes hne store both hboth before after table m single hm hmerge hsingle
  obtain ⟨merged, hnames, hfields⟩ := Build.shape_spec hm hsingle
  have hmerges : Merges shapes merged := hmerge.merges hfields
  refine ⟨merged, hboth.names.schemaOf?, hnames.schemaOf?, hmerges, fun v hcalm hconclusive => ?_⟩
  obtain ⟨verdict, t, hrun, hiff⟩ :=
    run_verdict_iff_accepts_cut hsettings hopts hconclusive hcalm hsink
  obtain ⟨verdict', t', hrun', hiff'⟩ :=
    run_verdict_iff_accepts_cut hsettings hopts (hconclusive.merge hmerges) hcalm hsink
  -- the bound on the depth leaves the same number of levels for the rules on both sides
  obtain ⟨levels, hlevels⟩ := Nat.exists_eq_add_of_le' hdepth
  rw [hlevels] at hiff hiff'
  have hsame : verdict = verdict' := Bool.eq_iff_iff.mpr
    ((hiff.trans (accepts_cut_merge_iff hmerges hne levels)).trans hiff'.symm)
  subst hsame
  exact ⟨verdict, t, t', hrun, hrun'⟩

/-- Two shapes that share one of two names.  Both validators accept an object that has what all
    three rules ask for, and both reject one whose shared field has only the first of its rules. -/
theorem intersected_shapes_merge_of_two :
    let word := Schema.literal (.str "x") "\"x\""
    let first := [(Label.plain "a", Schema.primitive .string), (.plain "b", .primitive .number)]
    let second := [(Label.plain "a", word)]
    let merged := [(Label.plain "b", Schema.intersection [.primitive .number]),
      (.plain "a", .intersection [.primitive .string, word])]
    let validators := [.shape first, .shape second, .primitive .string, .primitive .number, word]
    let cells := validators.map (fun schema => Cell.validator ⟨schema.className, []⟩) ++
      [.list [.ref 0, .ref 1], .list [.ref 2, .ref 4], .list [.ref 3]]
    let store := { Store.empty with
      heap := ⟨cells.toArray⟩, schemas := validators.zipIdx.map fun entry => (entry.2, entry.1) }
    let s := Session.holding [.dict [(.str "a", .str "x"), (.str "b", .int 1)],
      .dict [(.str "a", .str "y"), (.str "b", .int 1)]] ⟨3, 16⟩
    ∃ both after single later, Build.intersectMany (.ref 5) store = .ok both after ∧
      after.schemaOf? both = some (.intersection [.shape first, .shape second]) ∧
      (do
        let count ← Build.intersectMany (.ref 7)
        let text ← Build.intersectMany (.ref 6)
        Build.shape (← Build.allocate (.dict [(.str "b", count), (.str "a", text)]))) store =
        .ok single later ∧
      later.schemaOf? single = some (.shape merged) ∧
      (∃ t t', run (.intersection [.shape first, .shape second]) (.ref 0) .null s = .ok true t ∧
        run (.shape merged) (.ref 0) .null s = .ok true t') ∧
      ∃ t t', run (.intersection [.shape first, .shape second]) (.ref 1) .null s = .ok false t ∧
        run (.shape merged) (.ref 1) .null s = .ok false t' := by
  intro word first second merged validators cells store s
  have hopts : Options.coerce s.store.heap .null = .ok .usual := rfl
  -- the stores that the steps leave behind, one after the other
  let dict := Cell.dict [(.str "b", .ref 9), (.str "a", .ref 11)]
  let store₁ := Build.combined .intersection [(.ref 3, .primitive .number)] store
  let store₂ := Build.combined .intersection [(.ref 2, .primitive .string), (.ref 4, word)] store₁
  let store₃ := { store₂ with heap := store₂.heap.push dict }
  have hcount : Build.intersectMany (.ref 7) store = .ok (.ref 9) store₁ :=
    Build.combine_eq rfl (.cons rfl .nil) "intersection" .intersection
  have htext : Build.intersectMany (.ref 6) store₁ = .ok (.ref 11) store₂ :=
    Build.combine_eq rfl (.cons rfl (.cons rfl .nil)) "intersection" .intersection
  have htable : Build.allocate dict store₂ = .ok (.ref 12) store₃ := rfl
  obtain ⟨both, after, hboth, hbothSchema⟩ : ∃ both after,
      Build.intersectMany (.ref 5) store = .ok both after ∧
        after.schemaOf? both = some (.intersection [.shape first, .shape second]) :=
    ⟨_, _, rfl, rfl⟩
  obtain ⟨single, later, hsingle, hsingleSchema⟩ : ∃ single later,
      Build.shape (.ref 12) store₃ = .ok single later ∧
        later.schemaOf? single = some (.shape merged) := ⟨_, _, rfl, rfl⟩
  have hgrows : store₂.Grows store₃ := Build.grows_push store₂ dict
  have hmerge : Build.IsMerge store₃ [first, second] [(.str "b", .ref 9), (.str "a", .ref 11)] := by
    constructor
    · intro entry hentry
      rcases List.mem_cons.mp hentry with rfl | hentry
      · have hlater := (Build.intersectMany_spec rfl (.cons rfl (.cons rfl .nil)) htext).1
        exact ⟨.plain "b", rfl, store, store₁, 7, _, rfl, .cons rfl .nil, hcount,
          hlater.trans hgrows⟩
      · obtain rfl := List.mem_singleton.mp hentry
        exact ⟨.plain "a", rfl, store₁, store₂, 6, _, rfl, .cons rfl (.cons rfl .nil), htext,
          hgrows⟩
    · intro key
      have htexts : (∃ entry ∈ [(Value.str "b", Value.ref 9), (.str "a", .ref 11)],
          entry.1.text? = some key) ↔ "b" = key ∨ "a" = key := by
        simp [Value.text?, Value.label?, Label.content]
      have hnames : IsDeclared key [first, second] ↔ ("a" = key ∨ "b" = key) ∨ "a" = key := by
        simp only [IsDeclared, List.exists_mem_cons_iff, first, second]
        simp [Label.content]
      rw [htexts, hnames]
      exact ⟨fun h => .inl h.symm, fun h => h.elim Or.symm .inr⟩
  have hmembers : List.Forall₂ (fun node schema => store.schemaOf? node = some schema)
      [.ref 0, .ref 1] ([first, second].map .shape) := .cons rfl (.cons rfl .nil)
  obtain ⟨merged', -, hmerged', -, hruns⟩ :=
    intersected_shapes_merge (.inl rfl) hopts Session.harmless_of_usual (by decide)
      [first, second] (List.cons_ne_nil _ _) after both
      ⟨store, after, 5, _, rfl, hmembers, hboth, .refl after⟩ store₃ later (.ref 12) _ single rfl
      hmerge hsingle
  cases hsingleSchema.symm.trans hmerged'
  have hheap : ∀ cell ∈ s.store.heap.cells.toList, cell.isGuarded = false := by decide
  have hagree (v : Value) : ∃ verdict t t',
      run (.intersection [.shape first, .shape second]) v .null s = .ok verdict t ∧
        run (.shape merged) v .null s = .ok verdict t' :=
    hruns v (Heap.calm_of_unguarded hheap v)
      (.of_testsTo (n := 3) rfl fun _ he => absurd he List.not_mem_nil)
  refine ⟨both, after, single, later, hboth, hbothSchema, ?_, hsingleSchema, ?_, ?_⟩
  · rw [Build.bind_of_ok hcount, Build.bind_of_ok htext, Build.bind_of_ok htable, hsingle]
  · obtain ⟨verdict, t, t', hrun, hrun'⟩ := hagree (.ref 0)
    obtain ⟨u, haccepts⟩ :
      ∃ u, run (.shape merged) (.ref 0) .null s = .ok true u := ⟨_, rfl⟩
    cases hrun'.symm.trans haccepts
    exact ⟨t, t', hrun, hrun'⟩
  · obtain ⟨verdict, t, t', hrun, hrun'⟩ := hagree (.ref 1)
    obtain ⟨u, hrejects⟩ :
      ∃ u, run (.shape merged) (.ref 1) .null s = .ok false u := ⟨_, rfl⟩
    cases hrun'.symm.trans hrejects
    exact ⟨t, t', hrun, hrun'⟩

/-- With one level the shapes of an intersection are out of reach, and a shape without fields is
    not. -/
example :
    let s := Session.holding [.dict []] ⟨1, 16⟩
    (∃ t, run (.intersection [.shape []]) (.ref 0) .null s = .ok false t) ∧
      ∃ t, run (.shape []) (.ref 0) .null s = .ok true t :=
  ⟨⟨_, rfl⟩, ⟨_, rfl⟩⟩

end Conform
