import Mathlib.Logic.Relation
import Conform.Proofs.Containment
import Conform.Proofs.Positions
import Conform.Proofs.Rendering

namespace Conform

open Relation

/-!
# What an evaluation can see of the objects

The texts of a value, and the verdict of a schema without predicates together with what it notes, depend
on the objects that can be reached from the value, and on no others.  So an evaluation comes to the
same in two heaps that have these objects in common.

* `Cell.parts`, `Heap.PartOf` — what an object holds directly;
* `Heap.Untouched` — a value from which only objects are reached that two heaps have in common;
* `Heap.Untouched.canonical?_eq`, `Heap.Untouched.render_eq` — such a value has the same texts;
* `Schema.plan_of_untouched` — every node has the same plan for it;
* `Schema.rootOutcome_of_untouched` — every schema without predicates comes to the same outcome.
-/

/-! ### Reached objects -/

/-- The value of an attribute that is no fixed text. -/
def Attribute.value? : Attribute → Option Value
  | .text _ => none
  | .value v => some v

/-- Keys and values of entries. -/
def entryParts (entries : List (Value × Value)) : List Value :=
  entries.flatMap fun entry => [entry.1, entry.2]

/-- What an object holds directly, as far as anything of it can be shown or looked up. -/
def Cell.parts : Cell → List Value
  | .list items | .tuple items | .set items | .frozenSet items | .stream items => items
  | .dict entries | .orderedDict entries | .view entries | .guarded entries _ => entryParts entries
  | .options logFailures target => [.bool logFailures, target]
  | .validator portrait => portrait.attributes.filterMap fun shown => shown.2.value?
  | .foreign _ _ _ | .function _ | .sink _ => []

theorem mem_entryParts_fst {entries : List (Value × Value)} {entry : Value × Value}
    (h : entry ∈ entries) : entry.1 ∈ entryParts entries :=
  List.mem_flatMap.mpr ⟨entry, h, List.mem_cons_self⟩

theorem mem_entryParts_snd {entries : List (Value × Value)} {entry : Value × Value}
    (h : entry ∈ entries) : entry.2 ∈ entryParts entries :=
  List.mem_flatMap.mpr ⟨entry, h, List.mem_cons_of_mem _ List.mem_cons_self⟩

namespace Heap

variable {h h' : Heap} {v w : Value}

/-- A value is held directly by an object. -/
def PartOf (h : Heap) (w v : Value) : Prop := ∃ c, h.cellOf? v = some c ∧ w ∈ c.parts

/-- Every object that can be reached from a value is the same in another heap. -/
def Untouched (h h' : Heap) (v : Value) : Prop :=
  ∀ a, ReflTransGen h.PartOf (.ref a) v → h'.cell a = h.cell a

theorem Untouched.part (hv : h.Untouched h' v) (hw : h.PartOf w v) : h.Untouched h' w :=
  fun a ha => hv a (ha.tail hw)

theorem Untouched.cell_eq {a : Addr} (hv : h.Untouched h' (.ref a)) : h'.cell a = h.cell a :=
  hv a .refl

theorem Untouched.cellOf?_eq (hv : h.Untouched h' v) : h'.cellOf? v = h.cellOf? v := by
  cases v with
  | ref a => exact congrArg some hv.cell_eq
  | _ => rfl

/-- What is no object is untouched. -/
theorem untouched_of_addr? (hv : v.addr? = none) : h.Untouched h' v := by
  intro a ha
  rcases ha.cases_tail with rfl | ⟨w, -, c, hc, -⟩
  · cases hv
  · rw [cellOf?, hv] at hc
    cases hc

/-- An object is untouched if it is the same, and all that it holds is untouched. -/
theorem untouched_ref {a : Addr} (ha : h'.cell a = h.cell a)
    (hparts : ∀ w ∈ (h.cell a).parts, h.Untouched h' w) : h.Untouched h' (.ref a) := by
  intro b hb
  rcases hb.cases_tail with heq | ⟨w, hbw, c, hc, hw⟩
  · cases heq
    exact ha
  · obtain rfl := Option.some.inj hc
    exact hparts w hw b hbw

section Views

variable (hv : h.Untouched h' v)
include hv

theorem Untouched.typeName_eq : h'.typeName v = h.typeName v := by
  cases v with
  | ref a => exact congrArg Cell.typeName hv.cell_eq
  | _ => rfl

theorem Untouched.sequence?_eq : h'.sequence? v = h.sequence? v := by
  rw [sequence?, sequence?, hv.cellOf?_eq]

theorem Untouched.mapping?_eq : h'.mapping? v = h.mapping? v := by
  rw [mapping?, mapping?, hv.cellOf?_eq]

/-- The items of a sequence are untouched, as the sequence is. -/
theorem Untouched.item {items : List Value} (hs : h.sequence? v = some items) (hw : w ∈ items) :
    h.Untouched h' w := by
  rw [sequence?] at hs
  cases hc : h.cellOf? v with
  | none =>
    rw [hc] at hs
    cases hs
  | some c =>
    rw [hc] at hs
    refine hv.part ⟨c, hc, ?_⟩
    cases c with
    | list _ | tuple _ =>
      obtain rfl := Option.some.inj hs
      exact hw
    | _ => cases hs

/-- So is what a mapping holds under a string. -/
theorem Untouched.found {m : Mapping} {key : Text} (hm : h.mapping? v = some m)
    (hw : m.find? key = some w) : h.Untouched h' w := by
  obtain ⟨c, hc, hcm⟩ := Option.bind_eq_some_iff.mp hm
  obtain ⟨entry, hentry, rfl⟩ := Option.map_eq_some_iff.mp hw
  have hmem := List.mem_of_find?_eq_some hentry
  refine hv.part ⟨c, hc, ?_⟩
  cases c with
  | dict _ | orderedDict _ | view _ | guarded _ _ =>
    obtain rfl := Option.some.inj hcm
    exact mem_entryParts_snd hmem
  | _ => cases hcm

theorem Untouched.content {m : Mapping} (hm : h.mapping? v = some m) (key : Text) :
    h.Untouched h' (m.content key) := by
  rw [Mapping.content]
  cases hw : m.find? key with
  | none => exact untouched_of_addr? rfl
  | some w => exact hv.found hm hw

end Views

/-! ### Texts -/

/-- Computations that agree on the members of a list agree on the list. -/
theorem mapM_congr_of_mem {m : Type → Type} [Monad m] [LawfulMonad m] {α β : Type}
    {f g : α → m β} {l : List α} (hfg : ∀ a ∈ l, f a = g a) : l.mapM f = l.mapM g := by
  induction l with
  | nil => rfl
  | cons a rest ih =>
    rw [List.mapM_cons, List.mapM_cons, hfg a List.mem_cons_self,
      ih fun b hb => hfg b (List.mem_cons_of_mem a hb)]

theorem displayEntries_congr {inner inner' : Value → Except Fault Text}
    {entries : List (Value × Value)} (hinner : ∀ w ∈ entryParts entries, inner' w = inner w) :
    displayEntries inner' entries = displayEntries inner entries := by
  rw [displayEntries, displayEntries]
  congr 1
  refine mapM_congr_of_mem fun entry hentry => ?_
  rw [hinner _ (mem_entryParts_fst hentry), hinner _ (mem_entryParts_snd hentry)]

/-- The display of an object depends on the displays of its parts. -/
theorem displayCell_congr {inner inner' : Value → Except Fault Text} (c : Cell)
    (hinner : ∀ w ∈ c.parts, inner' w = inner w) : displayCell inner' c = displayCell inner c := by
  have hmap {l : List Value} (hl : ∀ w ∈ l, inner' w = inner w) :
      l.mapM inner' = l.mapM inner := mapM_congr_of_mem hl
  cases c with
  | list items => rw [displayCell, displayCell, hmap (l := items) hinner]
  | tuple items =>
    -- a tuple of one item has a comma of its own
    rcases items with _ | ⟨item, _ | ⟨next, rest⟩⟩
    · rfl
    · rw [displayCell, displayCell, hinner item List.mem_cons_self]
    · simp only [displayCell, hmap (l := item :: next :: rest) hinner]
  | set items | frozenSet items =>
    cases items with
    | nil => rfl
    | cons item rest => simp only [displayCell, hmap (l := item :: rest) hinner]
  | dict entries => exact displayEntries_congr hinner
  | view entries => rw [displayCell, displayCell, displayEntries_congr hinner]
  | orderedDict entries =>
    cases entries with
    | nil => rfl
    | cons first rest =>
      simp only [displayCell]
      congr 1
      refine mapM_congr_of_mem fun entry hentry => ?_
      rw [hinner _ (mem_entryParts_fst hentry), hinner _ (mem_entryParts_snd hentry)]
  | options logFailures sink =>
    rw [displayCell, displayCell, hinner _ List.mem_cons_self,
      hinner _ (List.mem_cons_of_mem _ List.mem_cons_self)]
  | validator portrait =>
    rw [displayCell, displayCell]
    congr 1
    refine mapM_congr_of_mem fun ⟨name, content⟩ hattribute => ?_
    cases content with
    | text s => rfl
    | value w =>
      have hw : w ∈ (Cell.validator portrait).parts := List.mem_filterMap.mpr ⟨_, hattribute, rfl⟩
      simp only [hinner w hw]
  | foreign className shown truth => cases shown <;> rfl
  | guarded _ _ | stream _ | function _ | sink _ => rfl

theorem Untouched.displayWithin_eq (hv : h.Untouched h' v) (fuel : Nat) (enclosing : List Addr) :
    h'.displayWithin fuel enclosing v = h.displayWithin fuel enclosing v := by
  induction fuel generalizing enclosing v with
  | zero => rfl
  | succ fuel ih =>
    cases v with
    | ref a =>
      rw [displayWithin, displayWithin, hv.cell_eq]
      split
      · rfl
      · exact displayCell_congr _ fun w hw => ih (hv.part ⟨_, rfl, hw⟩) _
    | _ => rfl

theorem Untouched.safeDisplay_eq (hv : h.Untouched h' v) : h'.safeDisplay v = h.safeDisplay v := by
  rw [safeDisplay, safeDisplay, display, display, hv.displayWithin_eq, hv.typeName_eq]

section Texts

variable (style : JsonStyle) (fallback : Value → Option Text)
  {inner inner' : Value → Option Text}

theorem jsonArray?_congr (items : List Value) (hinner : ∀ w ∈ items, inner' w = inner w) :
    jsonArray? { style with fallback := fallback } inner' items = jsonArray? style inner items := by
  rw [jsonArray?_eq, jsonArray?_eq, mapM_congr_of_mem hinner]

theorem jsonObject?_congr (entries : List (Value × Value))
    (hinner : ∀ w ∈ entryParts entries, inner' w = inner w) :
    jsonObject? { style with fallback := fallback } inner' entries =
      jsonObject? style inner entries := by
  rw [jsonObject?_eq, jsonObject?_eq]
  congr 1
  refine mapM_congr_of_mem fun entry hentry => ?_
  rw [entryText?, entryText?, hinner _ (mem_entryParts_snd hentry)]

/-- The JSON text of an untouched value, if whatever has no JSON text has the same fallback. -/
theorem Untouched.jsonWithin?_eq
    (hfallback : ∀ w, h.Untouched h' w → fallback w = style.fallback w) (hv : h.Untouched h' v)
    (fuel : Nat) (enclosing : List Addr) :
    h'.jsonWithin? { style with fallback := fallback } fuel enclosing v =
      h.jsonWithin? style fuel enclosing v := by
  induction fuel generalizing enclosing v with
  | zero => rfl
  | succ fuel ih =>
    have hshown : jsonFallback? { style with fallback := fallback } v = jsonFallback? style v :=
      congrArg (Option.map _) (hfallback v hv)
    cases v with
    | ref a =>
      -- what is reached from the parts of an object is reached from the object
      have hpart (w : Value) (hw : w ∈ (h.cell a).parts) :
          h'.jsonWithin? { style with fallback := fallback } fuel (a :: enclosing) w =
            h.jsonWithin? style fuel (a :: enclosing) w := ih (hv.part ⟨_, rfl, hw⟩) _
      rw [jsonWithin?, jsonWithin?, hv.cell_eq]
      cases hc : h.cell a with
      | list items | tuple items =>
        rw [hc] at hpart
        simp only [jsonArray?_congr style fallback items hpart]
      | dict entries | orderedDict entries =>
        rw [hc] at hpart
        simp only [jsonObject?_congr style fallback entries hpart]
      | _ => exact hshown
    | undefined | bytes _ | type _ | builtin _ => exact hshown
    | null | bool _ | int _ | float _ | str _ | code _ => rfl

end Texts

/-- An untouched value has the same canonical form. -/
theorem Untouched.canonical?_eq (hv : h.Untouched h' v) : h'.canonical? v = h.canonical? v := by
  have hjson : h'.json? canonicalStyle v = h.json? canonicalStyle v :=
    hv.jsonWithin?_eq canonicalStyle canonicalStyle.fallback (fun _ _ => rfl) nestingLimit []
  cases v with
  | undefined => rfl
  | float x =>
    rw [canonical?, canonical?, hjson]
  | _ => exact hjson

theorem Untouched.rendering_eq (hv : h.Untouched h' v) : h'.rendering v = h.rendering v := by
  by_cases hdefined : v = .undefined
  · subst hdefined
    rfl
  · have hjson : h'.json? h'.renderStyle v = h.json? h.renderStyle v :=
      hv.jsonWithin?_eq h.renderStyle h'.renderStyle.fallback
        (fun w hw => congrArg some hw.safeDisplay_eq) nestingLimit []
    rw [rendering_of_ne hdefined, rendering_of_ne hdefined, hjson, hv.safeDisplay_eq]

/-- An untouched value is quoted alike. -/
theorem Untouched.render_eq (hv : h.Untouched h' v) (limit : Int) :
    h'.render limit v = h.render limit v := by
  rw [render, render, hv.rendering_eq]

end Heap

/-! ### Plans -/

/-- A refusal for the tag of a mapping quotes the tag, if anything. -/
theorem find?_of_tagPlan_refuse {tag : Label} {variants : List (Label × List (Label × Schema))}
    {m : Mapping} {w : Value} {cause : Cause} (hplan : tagPlan tag variants m = .refuse cause)
    (hw : cause.quoted? = some w) : m.find? tag.content = some w := by
  rw [tagPlan] at hplan
  rcases hhas : m.has tag.content with fault | _ | _ <;> simp only [hhas] at hplan
  · cases hplan
  · cases hplan
    cases hw
  · cases hread : m.read tag.content with
    | error fault =>
      simp only [hread] at hplan
      cases hplan
    | ok tagValue =>
      simp only [hread, variantPlan] at hplan
      split at hplan <;> cases hplan
      obtain rfl := Option.some.inj hw
      exact Mapping.find?_of_read hread

/-- The one value that a refusal at once may quote is the value itself, or what it holds as its tag. -/
theorem Schema.quoted?_of_plan_refuse {heap : Heap} {schema : Schema} {v w : Value} {cause : Cause}
    (hplan : schema.plan heap v = .refuse cause) (hw : cause.quoted? = some w) :
    w = v ∨ ∃ m key, heap.mapping? v = some m ∧ m.find? key = some w := by
  -- nothing but the value itself and the tag that was found is quoted in a refusal
  cases schema with
  | shape fields =>
    rw [plan] at hplan
    cases hm : heap.mapping? v <;> rw [hm] at hplan <;> cases hplan
    exact .inl (Option.some.inj hw).symm
  | array member =>
    rw [plan] at hplan
    cases hs : heap.sequence? v <;> rw [hs] at hplan <;> cases hplan
    exact .inl (Option.some.inj hw).symm
  | tuple members =>
    rw [plan] at hplan
    cases hs : heap.sequence? v with
    | none =>
      rw [hs] at hplan
      cases hplan
      exact .inl (Option.some.inj hw).symm
    | some items =>
      simp only [hs] at hplan
      split at hplan <;> cases hplan
      cases hw
  | taggedUnion tag variants =>
    rw [plan] at hplan
    cases hm : heap.mapping? v with
    | none =>
      rw [hm] at hplan
      cases hplan
      cases hw
    | some m =>
      rw [hm] at hplan
      exact .inr ⟨m, _, rfl, find?_of_tagPlan_refuse hplan hw⟩
  | primitive kind | literal constant canonical | union members | intersection members
  | predicate test name | bare => cases hplan

/-! ### Evaluations -/

namespace Outcome

variable {α : Type} {check check' : α → Outcome Bool} {l : List α}
  (h : ∀ a ∈ l, check' a = check a)
include h

theorem allOf_congr : allOf check' l = allOf check l := by
  induction l with
  | nil => rfl
  | cons a rest ih =>
    rw [allOf, allOf, h a List.mem_cons_self, ih fun b hb => h b (List.mem_cons_of_mem a hb)]

theorem anyOf_congr : anyOf check' l = anyOf check l := by
  induction l with
  | nil => rfl
  | cons a rest ih =>
    rw [anyOf, anyOf, h a List.mem_cons_self, ih fun b hb => h b (List.mem_cons_of_mem a hb)]

theorem each_congr : each check' l = each check l := by
  induction l with
  | nil => rfl
  | cons a rest ih =>
    rw [each, each, h a List.mem_cons_self, ih fun b hb => h b (List.mem_cons_of_mem a hb)]

end Outcome

section Evaluations

variable {scope : Scope} {heap' : Heap} {schema child : Schema} {v w : Value}

/-- The report about a part quotes its content. -/
theorem Place.quoted?_cause (w : Value) (place : Place) : (place.cause w).quoted? = some w := by
  cases place <;> rfl

/-- A cause is noted alike if what it quotes is untouched. -/
theorem refusal_of_untouched {cause : Cause}
    (hquoted : ∀ w, cause.quoted? = some w → scope.heap.Untouched heap' w) :
    Outcome.refusal { scope with heap := heap' } cause = Outcome.refusal scope cause := by
  obtain ⟨front, back, hframe⟩ := cause.exists_frame
  have hmessage : cause.message (Scope.quote { scope with heap := heap' }) =
      cause.message scope.quote := by
    rw [hframe, hframe]
    cases hw : cause.quoted? with
    | none => rfl
    | some w =>
      have hquote : Scope.quote { scope with heap := heap' } w = scope.quote w :=
        (hquoted w hw).render_eq scope.renderLimit
      rw [Option.map_some, Option.map_some, hquote]
  rw [Outcome.refusal, Outcome.refusal, Scope.note, Scope.note, hmessage]

theorem refusal_of_quoted {cause : Cause} (hv : scope.heap.Untouched heap' v)
    (hquoted : cause.quoted? = some v) :
    Outcome.refusal { scope with heap := heap' } cause = Outcome.refusal scope cause := by
  refine refusal_of_untouched fun w hw => ?_
  obtain rfl : v = w := Option.some.inj (hquoted.symm.trans hw)
  exact hv

/-- A part has the same outcome, if its content is untouched and its rule has. -/
theorem Part.outcome_of_untouched {judge judge' : Schema → Value → Outcome Bool} {part : Part}
    (h : ∀ w, part.content = .ok w →
      scope.heap.Untouched heap' w ∧ judge' part.rule w = judge part.rule w) :
    part.outcome { scope with heap := heap' } judge' = part.outcome scope judge := by
  rw [outcome, outcome]
  cases hw : part.content with
  | error fault => rw [Outcome.bind_of_error rfl, Outcome.bind_of_error rfl]
  | ok w =>
    obtain ⟨huntouched, hrule⟩ := h w hw
    have hrefusal : Outcome.refusal { scope with heap := heap' } (part.place.cause w) =
        Outcome.refusal scope (part.place.cause w) :=
      refusal_of_quoted huntouched (part.place.quoted?_cause w)
    rw [Outcome.ofExcept_ok_bind, Outcome.ofExcept_ok_bind, hrule, hrefusal]

section Levels

variable (hv : scope.heap.Untouched heap' v)
include hv

/-- What is one step away from an untouched value is untouched. -/
theorem Heap.Untouched.step {trail : List Segment}
    (hstep : Schema.Step scope.heap schema v trail child w) : scope.heap.Untouched heap' w := by
  cases hstep with
  | field hm hf => exact hv.content hm _
  | element hs hi => exact hv.item hs (List.mem_of_getElem? hi)
  | position hs hm hi => exact hv.item hs (List.mem_of_getElem? hi)
  | alternative hm => exact hv
  | conjunct hm => exact hv
  | variant hm htag hvariant hf => exact hv.content hm _

/-- At every node, an untouched value has the same plan. -/
theorem Schema.plan_of_untouched (schema : Schema) :
    schema.plan heap' v = schema.plan scope.heap v := by
  unfold plan
  rw [hv.canonical?_eq, hv.mapping?_eq, hv.sequence?_eq]

/-- One level: a node does the same with an untouched value in both heaps, if its children do. -/
theorem Schema.plan_outcome_of_untouched {judge judge' : Schema → Value → Outcome Bool}
    (hpure : ∀ test name, schema ≠ .predicate test name)
    (hjudge : ∀ rule ∈ schema.children, ∀ w, scope.heap.Untouched heap' w →
      judge' rule w = judge rule w) :
    (schema.plan heap' v).outcome { scope with heap := heap' } judge' v =
      (schema.plan scope.heap v).outcome scope judge v := by
  -- the rules of the plan are children, for which the judges agree on what is untouched
  have hrules := schema.rules_plan_subset scope.heap v
  rw [plan_of_untouched hv]
  cases hplan : schema.plan scope.heap v with
  | answer verdict | raise fault => rfl
  | refuse cause =>
    refine refusal_of_untouched fun w hw => ?_
    rcases quoted?_of_plan_refuse hplan hw with rfl | ⟨m, key, hm, hfind⟩
    · exact hv
    · exact hv.found hm hfind
  | inTurn parts =>
    rw [hplan] at hrules
    refine Outcome.allOf_congr fun part hpart => part.outcome_of_untouched fun w hw => ?_
    have huntouched := hv.step (step_of_content hplan hpart hw)
    exact ⟨huntouched, hjudge _ (hrules (List.mem_map_of_mem hpart)) w huntouched⟩
  | anyOf members =>
    rw [hplan] at hrules
    have hmembers : Outcome.anyOf (judge' · v) members = Outcome.anyOf (judge · v) members :=
      Outcome.anyOf_congr fun member hm => hjudge member (hrules hm) v hv
    rw [Plan.outcome, Plan.outcome, hmembers, refusal_of_quoted hv rfl]
  | allOf members =>
    rw [hplan] at hrules
    have hmembers : Outcome.each (judge' · v) members = Outcome.each (judge · v) members :=
      Outcome.each_congr fun member hm => hjudge member (hrules hm) v hv
    rw [Plan.outcome, Plan.outcome, hmembers]
    refine bind_congr fun verdicts => ?_
    rw [refusal_of_quoted hv rfl]
  | call test name => exact absurd (eq_of_plan hplan) (hpure test name)

/-- All levels: a schema without predicates does the same with an untouched value in both heaps. -/
theorem Schema.outcome_of_untouched (levels : Nat) (hpure : schema.EveryTest fun _ _ => False) :
    schema.outcome { scope with heap := heap' } levels v = schema.outcome scope levels v := by
  induction levels generalizing schema v with
  | zero => exact refusal_of_untouched nofun
  | succ levels ih =>
    rw [outcome, outcome]
    refine plan_outcome_of_untouched hv (fun test name hschema => ?_) fun rule hrule w hw => ?_
    · exact hpure test name (hschema ▸ .self)
    · exact ih hw (hpure.child hrule)

theorem Schema.rootOutcome_of_untouched (hpure : schema.EveryTest fun _ _ => False) :
    schema.rootOutcome { scope with heap := heap' } v = schema.rootOutcome scope v := by
  have hstack : Outcome.refusal { scope with heap := heap' } .noStack =
      Outcome.refusal scope .noStack := refusal_of_untouched nofun
  rw [rootOutcome, rootOutcome, outcome_of_untouched hv _ hpure, Outcome.rooted, Outcome.rooted,
    hstack]

end Levels

end Evaluations

end Conform
