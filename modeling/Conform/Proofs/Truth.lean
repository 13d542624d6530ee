import Conform.Proofs.Path
import Conform.Proofs.Reasons
import Conform.Proofs.Verdict

namespace Conform

/-!
# Truthful diagnostics

Every failure of an explanation stands at a part of the value that its path leads to, and its
code says something true about that part, which the schema asks of it at that position.

* `Schema.SimpleFields` — every declared field has a simple name;
* `Schema.Blames` — what each code says about a node and the value that the node is evaluated
  on;
* `outcome_truthful` — every rejection of an evaluation is blamed on a position of the schema;
* `Failure.Truthful`, `explain_failures_truthful` — and so is every failure of an explanation,
  by its path.
-/

/-! ### Simple field names -/

namespace Schema

/-- The names of the fields that a node itself declares. -/
def fieldNames : Schema → List Label
  | .shape fields => fields.map Prod.fst
  | .taggedUnion _ variants => variants.flatMap fun variant => variant.2.map Prod.fst
  | _ => []

/-- Every field that is declared in a schema has a simple name. -/
def SimpleFields (schema : Schema) : Prop :=
  ∀ node, schema.Contains node → ∀ name ∈ node.fieldNames, name.Simple

theorem SimpleFields.child {schema node : Schema} (h : schema.SimpleFields)
    (hc : node ∈ schema.children) : node.SimpleFields :=
  fun inner hi => h inner (.inside hc hi)

theorem SimpleFields.of_children {schema : Schema} (hself : ∀ name ∈ schema.fieldNames, name.Simple)
    (h : ∀ child ∈ schema.children, child.SimpleFields) : schema.SimpleFields := by
  intro node hnode
  cases hnode with
  | self => exact hself
  | inside hc hn => exact h _ hc node hn

variable {heap : Heap} {schema child node : Schema} {v w x : Value} {trail : List Segment}

/-- The names on the way of a step are those of declared fields. -/
theorem Step.mem_fieldNames (h : Step heap schema v trail child w) {name : Label}
    (hname : .field name ∈ trail) : name ∈ schema.fieldNames := by
  cases h with
  | field hm hf =>
    cases List.mem_singleton.mp hname
    exact List.mem_map_of_mem hf
  | variant hm htag hvariant hf =>
    cases List.mem_singleton.mp hname
    obtain ⟨variant, hv, rfl⟩ := exists_of_variantOf? hvariant
    exact List.mem_flatMap.mpr ⟨variant, hv, List.mem_map_of_mem hf⟩
  | element hs hi => cases List.mem_singleton.mp hname
  | position hs hm hi => cases List.mem_singleton.mp hname
  | alternative hm => cases hname
  | conjunct hm => cases hname

/-- So are the names on the way to a position. -/
theorem At.mem_fieldNames {d : Nat} (h : At heap schema v trail d node x) {name : Label}
    (hname : .field name ∈ trail) : ∃ inner, schema.Contains inner ∧ name ∈ inner.fieldNames := by
  induction h with
  | root => cases hname
  | step hs _ ih =>
    rcases List.mem_append.mp hname with hname | hname
    · exact ⟨_, .self, hs.mem_fieldNames hname⟩
    · obtain ⟨inner, hinner, hname⟩ := ih hname
      exact ⟨inner, .inside hs.mem_children hinner, hname⟩

theorem Step.simple (h : Step heap schema v trail child w) (hfields : schema.SimpleFields) :
    ∀ segment ∈ trail, segment.Simple := by
  intro segment hsegment
  cases segment with
  | field name => exact hfields _ .self _ (h.mem_fieldNames hsegment)
  | index i => trivial

/-! ### What the codes say -/

/-- What a failure code says, in a scope, about a node at nesting depth `d` and the value `x`
    that the node is evaluated on: about the value itself, or about the part `w` of it at the
    end of a further trail.  That a child rejects a part means that the part is not in the
    meaning of the child, cut where the bound on the depth is reached. -/
inductive Blames (scope : Scope) (d : Nat) :
    Schema → Value → FailureCode → List Segment → Value → Prop where
  | shapeType {fields : List (Label × Schema)} {x : Value} (h : scope.heap.mapping? x = none) :
    Blames scope d (.shape fields) x .invalidType [] x
  | arrayType {member : Schema} {x : Value} (h : scope.heap.sequence? x = none) :
    Blames scope d (.array member) x .invalidType [] x
  | tupleType {members : List Schema} {x : Value} (h : scope.heap.sequence? x = none) :
    Blames scope d (.tuple members) x .invalidType [] x
  | tupleLength {members : List Schema} {x : Value} {items : List Value}
    (hs : scope.heap.sequence? x = some items) (hlen : items.length ≠ members.length) :
    Blames scope d (.tuple members) x .lengthMismatch [] x
  | missingField {node child : Schema} {x : Value} {name : Label}
    (hs : Step scope.heap node x [.field name] child .undefined)
    (h : ¬ Accepts scope.heap scope.passes (child.cut (scope.maxDepth - (d + 1))) .undefined) :
    Blames scope d node x .missingField [.field name] .undefined
  | invalidField {node child : Schema} {x w : Value} {name : Label}
    (hs : Step scope.heap node x [.field name] child w) (hw : w ≠ .undefined)
    (h : ¬ Accepts scope.heap scope.passes (child.cut (scope.maxDepth - (d + 1))) w) :
    Blames scope d node x .invalidField [.field name] w
  | invalidElement {node child : Schema} {x w : Value} {i : Nat}
    (hs : Step scope.heap node x [.index i] child w)
    (h : ¬ Accepts scope.heap scope.passes (child.cut (scope.maxDepth - (d + 1))) w) :
    Blames scope d node x .invalidElement [.index i] w
  | noMatch {members : List Schema} {x : Value}
    (h : ∀ member ∈ members,
      ¬ Accepts scope.heap scope.passes (member.cut (scope.maxDepth - (d + 1))) x) :
    Blames scope d (.union members) x .noMatch [] x
  | intersectionFailed {members : List Schema} {member : Schema} {x : Value}
    (hm : member ∈ members)
    (h : ¬ Accepts scope.heap scope.passes (member.cut (scope.maxDepth - (d + 1))) x) :
    Blames scope d (.intersection members) x .intersectionFailed [] x
  | missingTag {tag : Label} {variants : List (Label × List (Label × Schema))} {x : Value}
    (h : ∀ m, scope.heap.mapping? x = some m → m.find? tag.content = none) :
    Blames scope d (.taggedUnion tag variants) x .missingTag [] x
  | unknownTag {tag : Label} {variants : List (Label × List (Label × Schema))} {x tagValue : Value}
    {m : Mapping} (hm : scope.heap.mapping? x = some m) (htag : m.find? tag.content = some tagValue)
    (hvariant : variantOf? variants tagValue = none) :
    Blames scope d (.taggedUnion tag variants) x .unknownTag [] x
  | predicateError {test : Test} {name x : Value} {fault : Fault}
    (h : scope.raises test x fault) (hfatal : fault.isFatal = false) :
    Blames scope d (.predicate test name) x .predicateError [] x
  | depthExceeded {node : Schema} {x : Value} (h : d = scope.maxDepth) :
    Blames scope d node x .depthExceeded [] x

theorem Blames.follow_eq {scope : Scope} {d : Nat} {code : FailureCode}
    (h : Blames scope d node x code trail w) : scope.heap.follow x trail = some w := by
  cases h with
  | missingField hs h => exact hs.follow_eq
  | invalidField hs hw h => exact hs.follow_eq
  | invalidElement hs h => exact hs.follow_eq
  | _ => rfl

theorem Blames.simple {scope : Scope} {d : Nat} {code : FailureCode}
    (h : Blames scope d node x code trail w) (hfields : node.SimpleFields) :
    ∀ segment ∈ trail, segment.Simple := by
  cases h with
  | missingField hs h => exact hs.simple hfields
  | invalidField hs hw h => exact hs.simple hfields
  | invalidElement hs h => exact hs.simple hfields
  | _ => exact nofun

theorem At.simple {d : Nat} (h : At heap schema v trail d node x) (hfields : schema.SimpleFields) :
    node.SimpleFields ∧ ∀ segment ∈ trail, segment.Simple := by
  induction h with
  | root => exact ⟨hfields, nofun⟩
  | step hs _ ih =>
    obtain ⟨hnode, htrail⟩ := ih (hfields.child hs.mem_children)
    refine ⟨hnode, fun segment hsegment => ?_⟩
    rcases List.mem_append.mp hsegment with hsegment | hsegment
    · exact hs.simple hfields segment hsegment
    · exact htrail segment hsegment

/-! ### Blame along an evaluation -/

/-- A rejection is blamed on a position below a node at depth `d`. -/
def Blamed (scope : Scope) (d : Nat) (schema : Schema) (v : Value) (r : Rejection) : Prop :=
  ∃ above below k node x w, r.trail = above ++ below ∧ At scope.heap schema v above k node x ∧
    Blames scope (d + k) node x r.code below w

variable {scope : Scope} {d : Nat} {r : Rejection}

/-- What is blamed on a position below a child is blamed on that position below the parent. -/
theorem Blamed.step (h : Blamed scope (d + 1) child w r)
    (hs : Step scope.heap schema v trail child w) : Blamed scope d schema v (r.below trail) := by
  obtain ⟨above, below, k, node, x, y, htrail, hat, hblames⟩ := h
  refine ⟨trail ++ above, below, k + 1, node, x, y, ?_, .step hs hat, ?_⟩
  · rw [Rejection.below, htrail, List.append_assoc]
  · rw [show d + (k + 1) = d + 1 + k by omega]
    exact hblames

theorem Blamed.simple (h : Blamed scope d schema v r) (hfields : schema.SimpleFields) :
    ∀ segment ∈ r.trail, segment.Simple := by
  obtain ⟨above, below, k, node, x, w, htrail, hat, hblames⟩ := h
  obtain ⟨hnode, habove⟩ := hat.simple hfields
  rw [htrail]
  exact List.forall_mem_append.mpr ⟨habove, hblames.simple hnode⟩

theorem mem_note {cause : Cause} (h : r ∈ scope.note cause) :
    r.trail = [] ∧ r.code = cause.code := by
  rw [Scope.note] at h
  split at h
  · obtain rfl := List.mem_singleton.mp h
    exact ⟨rfl, rfl⟩
  · cases h

theorem Blamed.of_note {cause : Cause} (hr : r ∈ scope.note cause)
    (h : Blames scope d schema v cause.code [] v) : Blamed scope d schema v r := by
  obtain ⟨htrail, hcode⟩ := mem_note hr
  rw [← hcode] at h
  exact ⟨[], [], 0, schema, v, v, htrail, .root, h⟩

/-- A refusal on a calm value is about that value. -/
theorem blames_of_plan_refuse {cause : Cause} (hcalm : scope.heap.Calm v)
    (h : schema.plan scope.heap v = .refuse cause) : Blames scope d schema v cause.code [] v := by
  cases schema with
  | shape fields =>
    rw [plan] at h
    cases hm : scope.heap.mapping? v with
    | none =>
      obtain rfl : Cause.noObject v = cause := by simpa [hm] using h
      exact .shapeType hm
    | some m => simp [hm] at h
  | array member =>
    rw [plan] at h
    cases hs : scope.heap.sequence? v with
    | none =>
      obtain rfl : Cause.noSequence .array v = cause := by simpa [hs] using h
      exact .arrayType hs
    | some items => simp [hs] at h
  | tuple members =>
    rw [plan] at h
    cases hs : scope.heap.sequence? v with
    | none =>
      obtain rfl : Cause.noSequence .tuple v = cause := by simpa [hs] using h
      exact .tupleType hs
    | some items =>
      by_cases hlen : items.length = members.length
      · simp [hs, hlen] at h
      · obtain rfl : Cause.wrongLength members.length items.length = cause := by
          simpa [hs, hlen] using h
        exact .tupleLength hs hlen
  | taggedUnion tag variants =>
    rw [plan] at h
    cases hm : scope.heap.mapping? v with
    | none =>
      obtain rfl : Cause.noTag tag = cause := by simpa [hm] using h
      exact .missingTag (by simp [hm])
    | some m =>
      simp only [hm, tagPlan_eq (hcalm.mapping hm)] at h
      -- the tag is missing, or what stands there is no key of a variant
      cases htag : m.find? tag.content with
      | none =>
        obtain rfl : Cause.noTag tag = cause := by simpa [htag] using h
        refine .missingTag fun n hn => ?_
        obtain rfl : m = n := by simpa [hm] using hn
        exact htag
      | some tagValue =>
        simp only [htag, variantPlan] at h
        cases hvariant : variantOf? variants tagValue with
        | none =>
          obtain rfl : Cause.noVariant tag tagValue = cause := by simpa [hvariant] using h
          exact .unknownTag hm htag hvariant
        | some fields => simp [hvariant] at h
  | primitive kind | literal constant canonical | union members | intersection members
  | predicate test name | bare => cases h

/-- The rejection of a part is blamed on its place. -/
theorem blames_of_part {place : Place} (hs : Step scope.heap schema v [place.segment] child w)
    (h : ¬ Accepts scope.heap scope.passes (child.cut (scope.maxDepth - (d + 1))) w) :
    Blames scope d schema v (place.cause w).code [place.segment] w := by
  cases place with
  | field name =>
    -- the code depends on the value alone, not on whether the key is there
    by_cases hw : w = .undefined
    · subst hw
      exact .missingField hs h
    · simp only [Place.cause, Cause.code, hw, if_false]
      exact .invalidField hs hw h
  | item rule i => exact .invalidElement hs h

end Schema

/-! ### Evaluations -/

section Evaluations

open Schema

variable {scope : Scope} {schema : Schema} {v : Value}

/-- A verdict against a calm value means that the cut schema does not accept it. -/
theorem not_accepts_of_outcome {levels : Nat} (hcalm : scope.heap.Calm v)
    (h : (schema.outcome scope levels v).result = .ok false) :
    ¬ Accepts scope.heap scope.passes (schema.cut levels) v := by
  intro haccepts
  have hverdict := (outcome_decides scope levels schema hcalm false h).mpr haccepts
  cases hverdict

/-- One level: if what the children leave is blamed on positions below them, then what a
    rejection by the node leaves is blamed on positions below the node. -/
theorem Plan.Rejects.blamed {judge : Schema → Value → Outcome Bool} {d : Nat} {plan : Plan}
    {rejections : List Rejection} (h : plan.Rejects scope judge v rejections)
    (hplan : schema.plan scope.heap v = plan) (hclean : ∀ rule w, (judge rule w).Clean)
    (hcalm : scope.heap.Calm v)
    (hchild : ∀ {trail child w}, Step scope.heap schema v trail child w →
      (judge child w).result = .ok false →
        (∀ r ∈ (judge child w).rejections, Blamed scope (d + 1) child w r) ∧
        ¬ Accepts scope.heap scope.passes (child.cut (scope.maxDepth - (d + 1))) w) :
    ∀ r ∈ rejections, Blamed scope d schema v r := by
  intro r hr
  cases h with
  | answer => cases hr
  | refuse cause => exact .of_note hr (blames_of_plan_refuse hcalm hplan)
  | @inTurn front back part w hfront hw hpart =>
    have hmem : part ∈ front ++ part :: back := List.mem_append_right _ List.mem_cons_self
    have hs := step_of_content hplan hmem hw
    obtain ⟨hbelow, hnot⟩ := hchild hs hpart
    obtain ⟨r', hr', rfl⟩ := List.mem_map.mp hr
    rcases List.mem_append.mp hr' with hr' | hr'
    · exact (hbelow r' hr').step hs
    · -- the note about the part is blamed on this node, at the place of the part
      obtain ⟨htrail, hcode⟩ := mem_note hr'
      refine ⟨[], [part.place.segment], 0, schema, v, w, ?_, .root, ?_⟩
      · rw [Rejection.below, htrail]
        rfl
      · show Blames scope d schema v r'.code _ w
        rw [hcode]
        exact blames_of_part hs hnot
  | @anyOf members hall =>
    obtain rfl : schema = .union members := Schema.eq_of_plan hplan
    rcases List.mem_append.mp hr with hr | hr
    · obtain ⟨member, hm, hr⟩ := List.mem_flatMap.mp hr
      have hs : Step scope.heap (.union members) v [] member v := .alternative hm
      exact ((hchild hs (hall member hm)).1 r hr).step hs
    · exact .of_note hr (.noMatch fun member hm => (hchild (.alternative hm) (hall member hm)).2)
  | @allOf members verdicts hverdicts hfalse =>
    obtain rfl : schema = .intersection members := Schema.eq_of_plan hplan
    rcases List.mem_append.mp hr with hr | hr
    · obtain ⟨member, hm, hr⟩ := List.mem_flatMap.mp hr
      have hs : Step scope.heap (.intersection members) v [] member v := .conjunct hm
      obtain ⟨verdict, -, hverdict⟩ := Outcome.exists_verdict_of_mem hverdicts hm
      cases verdict with
      | true =>
        -- a member that accepts leaves nothing
        rw [hclean member v hverdict] at hr
        cases hr
      | false => exact ((hchild hs hverdict).1 r hr).step hs
    · obtain ⟨member, hm, hmember⟩ := Outcome.exists_mem_of_verdict hverdicts hfalse
      exact .of_note hr (.intersectionFailed hm (hchild (.conjunct hm) hmember).2)
  | fails htest => cases hr
  | @raises test name fault htest hfatal shown sentence hcause =>
    obtain rfl : schema = .predicate test name := Schema.eq_of_plan hplan
    exact .of_note hr (.predicateError (Test.raises_iff.mpr htest) hfatal)

/-- What is left by a rejected value is blamed on positions of the schema.  The induction is on
    the number of levels that are left at the node, which is at depth `d`. -/
theorem outcome_truthful (levels : Nat) {d : Nat} (hd : d + levels = scope.maxDepth)
    (hcalm : scope.heap.Calm v) (h : (schema.outcome scope levels v).result = .ok false) :
    ∀ r ∈ (schema.outcome scope levels v).rejections, Blamed scope d schema v r := by
  induction levels generalizing d schema v with
  | zero => exact fun r hr => .of_note hr (.depthExceeded hd)
  | succ levels ih =>
    have hrejects := Plan.rejects_of_false (outcome_clean scope levels) h
    refine hrejects.blamed rfl (outcome_clean scope levels) hcalm fun {trail child w} hs hw => ?_
    -- the child is one level deeper, and has one level less
    have hlevels : scope.maxDepth - (d + 1) = levels := by omega
    have hcalmw := hs.calm hcalm
    refine ⟨ih (by omega) hcalmw hw, ?_⟩
    rw [hlevels]
    exact not_accepts_of_outcome hcalmw hw

end Evaluations

/-! ### Explanations -/

/-- A failure is truthful: its path is that of exactly one trail; the trail leads from the root to
    a part of the value; and there is a node of the schema, at a position on the trail, about which
    and about whose value the code says something true that concerns that part. -/
def Failure.Truthful (scope : Scope) (schema : Schema) (v : Value) (failure : Failure) : Prop :=
  ∃ trail w, (∀ segment ∈ trail, segment.Simple) ∧ pathText trail = failure.path ∧
    (∀ other, (∀ segment ∈ other, segment.Simple) → pathText other = failure.path →
      other = trail) ∧
    scope.heap.follow v trail = some w ∧
    ∃ above below d node x, trail = above ++ below ∧
      Schema.At scope.heap schema v above d node x ∧
      Schema.Blames scope d node x failure.code below w

/-- What is blamed on a position below the root is reported truthfully. -/
theorem Schema.Blamed.truthful {scope : Scope} {schema : Schema} {v : Value} {r : Rejection}
    (h : Blamed scope 0 schema v r) (hfields : schema.SimpleFields) :
    r.report.Truthful scope schema v := by
  have hsimple := h.simple hfields
  obtain ⟨above, below, d, node, x, w, htrail, hat, hblames⟩ := h
  rw [Nat.zero_add] at hblames
  refine ⟨r.trail, w, hsimple, rfl, fun other hother hpath => ?_, ?_, above, below, d, node, x,
    htrail, hat, hblames⟩
  · exact pathText_injective hother hsimple hpath
  · have hx : scope.heap.follow v above = some x := hat.follow_eq
    rw [htrail, Heap.follow_append, hx]
    exact hblames.follow_eq

/-- Every failure of an explanation is the report of a rejection that is blamed on a position. -/
theorem exists_blamed_of_explain {s : Session} {settings : Settings} {schema : Schema} {v : Value}
    (hsettings : s.Settled settings) (hspares : schema.SparesStack (s.scope settings true))
    (hcalm : s.store.heap.Calm v) {explanation : Explanation} {t : Session}
    (h : explain schema v s = .ok explanation t) {failure : Failure}
    (hfailure : failure ∈ explanation.failures) :
    ∃ r : Rejection, r.report = failure ∧ Schema.Blamed (s.scope settings true) 0 schema v r := by
  obtain ⟨hresult, hfailures⟩ := outcome_of_explain schema v hsettings hspares hcalm h rfl
  rw [hfailures] at hfailure
  obtain ⟨r, hr, rfl⟩ := List.mem_map.mp hfailure
  cases hvalid : explanation.valid with
  | true =>
    -- an accepted value has no failures
    rw [hvalid] at hresult
    rw [schema.outcome_clean _ _ v hresult] at hr
    cases hr
  | false =>
    rw [hvalid] at hresult
    exact ⟨r, rfl, outcome_truthful settings.maxDepth (Nat.zero_add _) hcalm hresult r hr⟩

end Conform
