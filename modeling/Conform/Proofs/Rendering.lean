import Conform.Proofs.FieldPaths
import Conform.Proofs.KeptSettings

namespace Conform

open Script

/-!
# Rendered values

Every value has a rendering: its JSON text, or else its display, or else the name of its type.  What is
quoted of a value in a message is the rendering, cut to the limit of the settings, and a limit that can
be loaded leaves room for the ellipsis.

* `Heap.Renders` — the three ways to render a value, each where those before it fail;
* `truncate_of_lt` — how much of a long rendering is kept;
* `Cause.quoted?`, `Cause.exists_frame` — the one value that a message may quote;
* `outcome_notes_causes` — every rejection notes a cause, in quotes of its scope;
* `rendering_total_and_bounded` — renderings, and quotes at any time of a script.
-/

/-! ### Renderings -/

namespace Heap

/-- The rendering of a value: of an object without a JSON text its display, and of one that cannot be
    shown the name of its type. -/
inductive Renders (h : Heap) : Value → Text → Prop where
  | undefined : Renders h .undefined "undefined"
  | json {v : Value} {text : Text} (hv : v ≠ .undefined)
    (ht : h.json? h.renderStyle v = some text) : Renders h v text
  | display {v : Value} {text : Text} (hv : v ≠ .undefined)
    (hjson : h.json? h.renderStyle v = none) (ht : h.display v = .ok text) : Renders h v text
  | typeName {v : Value} {fault : Fault} (hv : v ≠ .undefined)
    (hjson : h.json? h.renderStyle v = none) (hfault : h.display v = .error fault) :
    Renders h v ("<" ++ h.typeName v ++ ">")

variable {h : Heap} {v : Value} {text : Text}

theorem rendering_of_ne (hv : v ≠ .undefined) :
    h.rendering v = (h.json? h.renderStyle v).getD (h.safeDisplay v) := by
  unfold rendering
  split
  · exact absurd rfl hv
  · split <;> rename_i hjson
    · rw [hjson, Option.getD_some]
    · rw [hjson, Option.getD_none]

/-- Every value has one rendering. -/
theorem renders_iff : h.Renders v text ↔ text = h.rendering v := by
  constructor
  · intro hrenders
    -- every rule says which of the earlier texts are not there
    cases hrenders with
    | undefined => rfl
    | json hv ht => rw [rendering_of_ne hv, ht, Option.getD_some]
    | display hv hjson ht => rw [rendering_of_ne hv, hjson, Option.getD_none, safeDisplay, ht]
    | typeName hv hjson hfault =>
      rw [rendering_of_ne hv, hjson, Option.getD_none, safeDisplay, hfault]
  · rintro rfl
    by_cases hv : v = .undefined
    · subst hv
      exact .undefined
    · rw [rendering_of_ne hv]
      cases hjson : h.json? h.renderStyle v with
      | some text => exact .json hv hjson
      | none =>
        rw [Option.getD_none, safeDisplay]
        cases hdisplay : h.display v with
        | ok text => exact .display hv hjson hdisplay
        | error fault => exact .typeName hv hjson hdisplay

end Heap

/-- A text beyond the limit is cut, and an ellipsis takes the place of its last three code points. -/
theorem truncate_of_lt {limit : Int} {text : Text} (hlimit : 3 ≤ limit)
    (h : limit < text.length) :
    truncate limit text = text.take (limit - 3).toNat ++ "..." := by
  rw [truncate, if_pos h, sliceTo, if_pos (by omega)]

/-! ### Quotes in messages -/

/-- The value that the message of a cause quotes.  The sentence of a fault that a test has raised is none:
    it stands in the message as the fault has it, and is not cut to the limit for values. -/
def Cause.quoted? : Cause → Option Value
  | .noObject v | .noSequence _ v | .field _ v | .element _ v | .noMember _ v | .someMember _ v
  | .noVariant _ v => some v
  | .wrongLength _ _ | .noTag _ | .raised _ _ _ | .tooDeep _ | .noStack => none

/-- A message without a quote is always the same. -/
theorem Cause.message_of_none {cause : Cause} (h : cause.quoted? = none)
    (quote quote' : Value → Text) : cause.message quote = cause.message quote' := by
  cases cause <;> first | rfl | cases h

theorem Cause.exists_frame_of_none {cause : Cause} (h : cause.quoted? = none) :
    ∃ front back, ∀ quote : Value → Text,
      cause.message quote = front ++ (cause.quoted?.map quote).getD [] ++ back := by
  refine ⟨cause.message fun _ => [], [], fun quote => ?_⟩
  rw [h, Option.map_none, Option.getD_none, List.append_nil, List.append_nil]
  exact message_of_none h _ _

/-- A message is the same around the quote, whatever is quoted. -/
theorem Cause.exists_frame (cause : Cause) :
    ∃ front back, ∀ quote : Value → Text,
      cause.message quote = front ++ (cause.quoted?.map quote).getD [] ++ back := by
  -- two causes end in their quote, the others have words behind it
  cases cause with
  | noObject v =>
    exact ⟨"Shape expected an object, got: ", [], fun _ => (List.append_nil _).symm⟩
  | noSequence rule v =>
    exact ⟨rule.title ++ " expected a sequence, got: ", [], fun _ => (List.append_nil _).symm⟩
  | field name v =>
    refine ⟨"Member of shape ", " for " ++ name.inline ++ " does not match expected type",
      fun quote => ?_⟩
    simp only [message, quoted?, Option.map_some, Option.getD_some, List.append_assoc]
  | element rule v =>
    refine ⟨"Member of " ++ rule.name ++ " \"", "\" does not match expected type", fun quote => ?_⟩
    simp only [message, quoted?, Option.map_some, Option.getD_some, List.append_assoc]
  | noMember count v =>
    refine ⟨"Member of union \"", "\" does not match any of " ++ toString count ++ " members",
      fun quote => ?_⟩
    simp only [message, quoted?, Option.map_some, Option.getD_some, List.append_assoc]
  | someMember verdicts v =>
    refine ⟨"Member of intersection \"", "\" failed " ++ toString (verdicts.count false) ++ " of " ++
      toString verdicts.length ++ " members", fun quote => ?_⟩
    simp only [message, quoted?, Option.map_some, Option.getD_some, List.append_assoc]
  | noVariant tag v =>
    exact ⟨"Tagged union has no variant for " ++ tag.inline ++ "=", [],
      fun _ => (List.append_nil _).symm⟩
  | wrongLength _ _ | noTag _ | raised _ _ _ | tooDeep _ | noStack => exact exists_frame_of_none rfl

/-! ### Rejections -/

section Notes

variable {scope : Scope}

/-- A rejection notes a cause, in quotes of its scope. -/
def Scope.Notes (scope : Scope) (r : Rejection) : Prop :=
  ∃ cause : Cause, r.code = cause.code ∧ r.message = cause.message scope.quote

theorem refusal_notes_cause (cause : Cause) : (Outcome.refusal scope cause).NotesOnly scope.Notes := by
  intro r hr
  rw [Outcome.refusal, Scope.note] at hr
  split at hr
  · obtain rfl := List.mem_singleton.mp hr
    exact ⟨cause, rfl, rfl⟩
  · cases hr

variable {schema : Schema} {v : Value}

/-- One level: the rejections of a plan note causes, if those of its rules do. -/
theorem Plan.outcome_notes_causes {judge : Schema → Value → Outcome Bool}
    (hjudge : ∀ rule w, (judge rule w).NotesOnly scope.Notes) (plan : Plan) :
    (plan.outcome scope judge v).NotesOnly scope.Notes := by
  cases plan with
  | answer verdict => exact Outcome.ofExcept_notesOnly _
  | raise fault => exact Outcome.ofExcept_notesOnly _
  | refuse cause => exact refusal_notes_cause cause
  | inTurn parts =>
    refine Outcome.allOf_notesOnly fun part _ => ?_
    rw [Part.outcome]
    refine .bind (Outcome.ofExcept_notesOnly _) fun w => .below ?_
    -- further out, a rejection has another trail, but the same code and the same message
    exact (hjudge part.rule w).orElse (refusal_notes_cause _)
  | anyOf members =>
    have hany : (Outcome.anyOf (judge · v) members).NotesOnly scope.Notes :=
      Outcome.anyOf_notesOnly fun member _ => hjudge member v
    exact .orElse (.tentative hany) (refusal_notes_cause _)
  | allOf members =>
    refine .bind (Outcome.each_notesOnly fun member _ => hjudge member v) fun verdicts => ?_
    cases verdicts.all id with
    | true => exact Outcome.ofExcept_notesOnly (.ok true)
    | false => exact refusal_notes_cause _
  | call test name =>
    have htest : (test.outcome scope v).NotesOnly scope.Notes := by
      intro r hr
      rw [Test.outcome_rejections] at hr
      cases hr
    refine htest.recover fun fault => ?_
    rw [faultOutcome]
    split
    · exact Outcome.ofExcept_notesOnly _
    · split
      · exact .bind (Outcome.ofExcept_notesOnly _) fun shown => refusal_notes_cause _
      · exact Outcome.ofExcept_notesOnly (.ok false)

/-- All levels: every rejection of an evaluation notes a cause. -/
theorem outcome_notes_causes (levels : Nat) (schema : Schema) (v : Value) :
    (schema.outcome scope levels v).NotesOnly scope.Notes := by
  induction levels generalizing schema v with
  | zero => exact refusal_notes_cause _
  | succ levels ih => exact Plan.outcome_notes_causes ih _

theorem rootOutcome_notes_causes (schema : Schema) (v : Value) :
    (schema.rootOutcome scope v).NotesOnly scope.Notes := by
  refine (outcome_notes_causes _ schema v).recover fun fault => ?_
  split
  · exact refusal_notes_cause _
  · exact Outcome.ofExcept_notesOnly _

end Notes

/-! ### Bounded quotes -/

/-- A message is that of a cause, and all that it shows of values is one quote at most, which is cut to a
    limit. -/
def Heap.QuotesWithin (heap : Heap) (limit : Nat) (code : FailureCode) (message : Text) : Prop :=
  ∃ (cause : Cause) (front back : Text), cause.code = code ∧
    (∀ quote : Value → Text,
      cause.message quote = front ++ (cause.quoted?.map quote).getD [] ++ back) ∧
    message = front ++ (cause.quoted?.map (heap.render limit)).getD [] ++ back ∧
    ∀ w, cause.quoted? = some w → (heap.render limit w).length ≤ limit

section Quotes

variable {s t : Session} {settings : Settings} {schema : Schema} {v : Value}

theorem Scope.Notes.quotesWithin {collect : Bool} {r : Rejection}
    (h : (s.scope settings collect).Notes r) (hlimit : 3 ≤ settings.renderLimit) :
    s.store.heap.QuotesWithin settings.renderLimit r.code r.message := by
  obtain ⟨cause, hcode, hmessage⟩ := h
  obtain ⟨front, back, hframe⟩ := cause.exists_frame
  refine ⟨cause, front, back, hcode.symm, hframe, ?_, fun w _ => ?_⟩
  · rw [hmessage, hframe]
    rfl
  · exact Int.ofNat_le.mp (length_truncate_le (Int.ofNat_le.mpr hlimit) _)

theorem quotes_of_judge (hlimits : s.limits = .ok settings) (hlimit : 3 ≤ settings.renderLimit)
    {collect verdict : Bool} {rejections : List Rejection}
    (h : judge collect schema v s = .ok (verdict, rejections) t) :
    ∀ r ∈ rejections, s.store.heap.QuotesWithin settings.renderLimit r.code r.message := by
  rw [judge_eq schema v (Session.settled_iff.mpr hlimits) collect rfl] at h
  intro r hr
  cases hresult : (schema.rootOutcome (s.scope settings collect) v).result with
  | error fault =>
    rw [hresult] at h
    cases h
  | ok found =>
    rw [hresult] at h
    obtain ⟨hpair, -⟩ := EStateM.Result.ok.inj h
    obtain ⟨-, rfl⟩ := Prod.mk.inj hpair
    exact (rootOutcome_notes_causes schema v r hr).quotesWithin hlimit

theorem quotes_of_explain (hlimits : s.limits = .ok settings) (hlimit : 3 ≤ settings.renderLimit)
    {explanation : Explanation} (h : explain schema v s = .ok explanation t) :
    ∀ failure ∈ explanation.failures,
      s.store.heap.QuotesWithin settings.renderLimit failure.code failure.message := by
  obtain ⟨⟨verdict, rejections⟩, u, hjudge, hpure⟩ := SessionM.bind_eq_ok_iff.mp h
  obtain ⟨rfl, -⟩ := EStateM.Result.ok.inj hpure
  intro failure hfailure
  dsimp only at hfailure
  split at hfailure
  · cases hfailure
  · obtain ⟨r, hr, rfl⟩ := List.mem_map.mp hfailure
    exact quotes_of_judge hlimits hlimit hjudge r hr

end Quotes

/-- Every value has one rendering, and with a limit of three characters or more it is kept as it is if it
    is within the limit, and cut there with an ellipsis at its end otherwise.

    At any time of a script, the settings that are in force allow at least sixteen characters; in all
    sessions that the next step goes through, the messages of rejections and of failures quote one value
    at most, in no more characters than that. -/
theorem rendering_total_and_bounded :
    (∀ (heap : Heap) (v : Value), ∃ full, (∀ text, heap.Renders v text ↔ text = full) ∧
      ∀ limit : Int, 3 ≤ limit →
        (full.length ≤ limit → heap.render limit v = full) ∧
        (limit < full.length →
          heap.render limit v = full.take (limit - 3).toNat ++ "...") ∧
        (heap.render limit v).length ≤ limit) ∧
      ∀ (environment : Variables) (ops : List Operation) (settings : Settings),
        (stateAfter (.start environment) ops).limits = .ok settings →
        16 ≤ settings.renderLimit ∧
        ∀ s, (stateAfter (.start environment) ops).Leads s → ∀ (schema : Schema) (v : Value),
          (∀ collect verdict rejections t,
            judge collect schema v s = .ok (verdict, rejections) t → ∀ r ∈ rejections,
              s.store.heap.QuotesWithin settings.renderLimit r.code r.message) ∧
          ∀ explanation t, explain schema v s = .ok explanation t →
            ∀ failure ∈ explanation.failures,
              s.store.heap.QuotesWithin settings.renderLimit failure.code failure.message := by
  refine ⟨fun heap v => ⟨heap.rendering v, fun text => Heap.renders_iff, fun limit hlimit => ?_⟩,
    fun environment ops settings hlimits => ?_⟩
  · exact ⟨truncate_of_le, truncate_of_lt hlimit, length_truncate_le hlimit _⟩
  · have hleast := (within_of_limits hlimits).le_renderLimit
    have hroom : 3 ≤ settings.renderLimit := Nat.le_trans (by decide) hleast
    refine ⟨hleast, fun s hs schema v => ⟨fun collect verdict rejections t hjudge => ?_,
      fun explanation t hexplain => ?_⟩⟩
    · exact quotes_of_judge (hs.limits.trans hlimits) hroom hjudge
    · exact quotes_of_explain (hs.limits.trans hlimits) hroom hexplain

/-- A list that contains itself has no JSON text; its display is cut behind two characters.  A string is
    quoted in no more than the sixteen characters that the environment allows. -/
theorem rendering_total_and_bounded_of_cycle :
    let heap : Heap := ⟨#[.list [.ref 0, .null]]⟩
    let s := Session.start [("REIFY_RENDER_LIMIT", "16")]
    (heap.Renders (.ref 0) "[[...], None]" ∧ heap.render 5 (.ref 0) = "[[...") ∧
      ∃ failure t,
        explain (.shape []) (.str "a long enough string") s = .ok ⟨false, [failure]⟩ t ∧
        failure.message = "Shape expected an object, got: \"a long enoug..." ∧
        s.store.heap.QuotesWithin 16 failure.code failure.message := by
  intro heap s
  obtain ⟨hrenderings, hquotes⟩ := rendering_total_and_bounded
  refine ⟨?_, ?_⟩
  · obtain ⟨full, hfull, hlimit⟩ := hrenderings heap (.ref 0)
    obtain rfl : "[[...], None]" = full := (hfull _).mp (Heap.renders_iff.mpr (by decide))
    refine ⟨(hfull _).mpr rfl, ?_⟩
    rw [(hlimit 5 (by decide)).2.1 (by decide)]
    decide
  · have hlimits : (Script.stateAfter s []).limits = .ok ⟨128, 16⟩ := rfl
    have hexplain : ∃ failure t,
        explain (.shape []) (.str "a long enough string") s = .ok ⟨false, [failure]⟩ t ∧
        failure.message = "Shape expected an object, got: \"a long enoug..." :=
      ⟨_, _, rfl, by decide⟩
    obtain ⟨failure, t, hexplain, hmessage⟩ := hexplain
    obtain ⟨-, hall⟩ := hquotes _ [] _ hlimits
    exact ⟨failure, t, hexplain, hmessage,
      (hall s (.refl s) _ _).2 _ t hexplain failure List.mem_cons_self⟩

end Conform
