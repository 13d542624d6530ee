import Mathlib.Data.List.TakeWhile
import Conform.Proofs.Truth

namespace Conform

/-!
# The paths of fields

A path is the text of the segments on the way to a part of the value, without the dots in front.  Not
only the dot that separates the first field from the root is dropped, but all dots with which the name
of this field may start; and a field whose name is made of dots has the path of the root.

* `Outcome.NotesOnly` — every rejection of an outcome has a property;
* `outcome_notes_positions` — all rejections stand at positions of the schema, whether the evaluation
  has a verdict or ends in a fault;
* `dropDots` — what a path leaves of a text;
* `pathText_field` — the path behind a field;
* `pathText_eq_nil_iff` — the trails with the path of the root;
* `path_of_explanation` — the path of every failure of an explanation.
-/

/-! ### What is noted -/

namespace Outcome

variable {α β : Type} {p : Rejection → Prop}

/-- Every rejection of an outcome has a property. -/
def NotesOnly (p : Rejection → Prop) (o : Outcome α) : Prop := ∀ r ∈ o.rejections, p r

theorem ofExcept_notesOnly (result : Except Fault α) : (ofExcept result).NotesOnly p := nofun

/-- The note of a cause stands where the cause arises. -/
theorem refusal_notesOnly (scope : Scope) (cause : Cause)
    (h : ∀ code message, p ⟨[], code, message⟩) : (refusal scope cause).NotesOnly p := by
  intro r hr
  rw [refusal, Scope.note] at hr
  split at hr
  · obtain rfl := List.mem_singleton.mp hr
    exact h _ _
  · cases hr

theorem NotesOnly.bind {o : Outcome α} {next : α → Outcome β} (ho : o.NotesOnly p)
    (hnext : ∀ a, (next a).NotesOnly p) : (o >>= next).NotesOnly p := by
  cases hr : o.result with
  | error fault =>
    rw [bind_of_error hr]
    exact ho
  | ok a =>
    rw [bind_of_ok hr]
    exact List.forall_mem_append.mpr ⟨ho, hnext a⟩

theorem NotesOnly.recover {o : Outcome α} {handle : Fault → Outcome α} (ho : o.NotesOnly p)
    (hhandle : ∀ fault, (handle fault).NotesOnly p) : (o.recover handle).NotesOnly p := by
  rw [Outcome.recover]
  cases o.result with
  | ok a => exact ho
  | error fault => exact List.forall_mem_append.mpr ⟨ho, hhandle fault⟩

theorem NotesOnly.below {o : Outcome α} {trail : List Segment}
    (h : o.NotesOnly fun r => p (r.below trail)) : (o.below trail).NotesOnly p :=
  List.forall_mem_map.mpr h

theorem NotesOnly.tentative {o : Outcome Bool} (h : o.NotesOnly p) : o.tentative.NotesOnly p := by
  rw [Outcome.tentative]
  split
  · exact h
  · exact fun _ hr => absurd hr List.not_mem_nil

theorem NotesOnly.orElse {o rest : Outcome Bool} (ho : o.NotesOnly p) (hrest : rest.NotesOnly p) :
    (o.orElse rest).NotesOnly p := by
  apply ho.bind
  intro verdict
  cases verdict with
  | true => exact ofExcept_notesOnly _
  | false => exact hrest

theorem NotesOnly.andThen {o rest : Outcome Bool} (ho : o.NotesOnly p) (hrest : rest.NotesOnly p) :
    (o.andThen rest).NotesOnly p := by
  apply ho.bind
  intro verdict
  cases verdict with
  | true => exact hrest
  | false => exact ofExcept_notesOnly _

section Lists

variable {check : α → Outcome Bool} {l : List α} (h : ∀ a ∈ l, (check a).NotesOnly p)
include h

theorem allOf_notesOnly : (allOf check l).NotesOnly p := by
  induction l with
  | nil => exact ofExcept_notesOnly _
  | cons a rest ih =>
    exact (h a List.mem_cons_self).andThen (ih fun b hb => h b (List.mem_cons_of_mem a hb))

theorem anyOf_notesOnly : (anyOf check l).NotesOnly p := by
  induction l with
  | nil => exact ofExcept_notesOnly _
  | cons a rest ih =>
    exact (h a List.mem_cons_self).orElse (ih fun b hb => h b (List.mem_cons_of_mem a hb))

theorem each_notesOnly : (each check l).NotesOnly p := by
  induction l with
  | nil => exact ofExcept_notesOnly _
  | cons a rest ih =>
    refine (h a List.mem_cons_self).bind fun verdict => ?_
    exact (ih fun b hb => h b (List.mem_cons_of_mem a hb)).bind fun _ => ofExcept_notesOnly _

end Lists

end Outcome

/-! ### Positions of rejections -/

namespace Schema

/-- A trail leads from the root of a schema and a value to a node and a part of the value. -/
def Reaches (heap : Heap) (schema : Schema) (v : Value) (trail : List Segment) : Prop :=
  ∃ d node x, At heap schema v trail d node x

variable {heap : Heap} {schema child : Schema} {v w : Value} {s t : List Segment}

theorem Reaches.root : Reaches heap schema v [] := ⟨0, schema, v, .root⟩

theorem Reaches.step (h : Reaches heap child w t) (hs : Step heap schema v s child w) :
    Reaches heap schema v (s ++ t) := by
  obtain ⟨d, node, x, hat⟩ := h
  exact ⟨d + 1, node, x, .step hs hat⟩

end Schema

section Evaluations

variable {scope : Scope} {schema : Schema} {v : Value}

/-- One level: the rejections of a plan stand at positions, if those of its rules do. -/
theorem Plan.outcome_notes_positions {judge : Schema → Value → Outcome Bool} {plan : Plan}
    (hplan : schema.plan scope.heap v = plan)
    (hjudge : ∀ rule w,
      (judge rule w).NotesOnly fun r => Schema.Reaches scope.heap rule w r.trail) :
    (plan.outcome scope judge v).NotesOnly fun r => Schema.Reaches scope.heap schema v r.trail := by
  have here (cause : Cause) : (Outcome.refusal scope cause).NotesOnly fun r =>
      Schema.Reaches scope.heap schema v r.trail :=
    Outcome.refusal_notesOnly scope cause fun _ _ => .root
  cases plan with
  | answer verdict => exact Outcome.ofExcept_notesOnly _
  | raise fault => exact Outcome.ofExcept_notesOnly _
  | refuse cause => exact here cause
  | inTurn parts =>
    apply Outcome.allOf_notesOnly
    intro part hpart
    rw [Part.outcome]
    cases hw : part.content with
    | error fault => exact Outcome.ofExcept_notesOnly (.error fault)
    | ok w =>
      rw [Outcome.ofExcept_ok_bind]
      have hstep := Schema.step_of_content hplan hpart hw
      refine .below (.orElse (fun r hr => ?_) (Outcome.refusal_notesOnly scope _ fun _ _ => ?_))
      · exact (hjudge part.rule w r hr).step hstep
      · exact Schema.Reaches.root.step hstep
  | anyOf members =>
    obtain rfl : schema = .union members := Schema.eq_of_plan hplan
    -- a member of a union stands where the union stands, and so does its own rejection
    refine .orElse (.tentative ?_) (here _)
    have hany : (Outcome.anyOf (judge · v) members).NotesOnly fun r =>
        Schema.Reaches scope.heap (.union members) v r.trail :=
      Outcome.anyOf_notesOnly fun member hm r hr => (hjudge member v r hr).step (.alternative hm)
    exact hany
  | allOf members =>
    obtain rfl : schema = .intersection members := Schema.eq_of_plan hplan
    refine .bind (Outcome.each_notesOnly fun member hm r hr => ?_) fun verdicts => ?_
    · exact (hjudge member v r hr).step (.conjunct hm)
    · cases verdicts.all id with
      | true => exact Outcome.ofExcept_notesOnly (.ok true)
      | false => exact here _
  | call test name =>
    -- a test notes nothing here; what is noted is that it has rejected
    have htest : (test.outcome scope v).NotesOnly fun r =>
        Schema.Reaches scope.heap schema v r.trail := by
      intro r hr
      rw [Test.outcome_rejections] at hr
      cases hr
    refine htest.recover fun fault => ?_
    rw [faultOutcome]
    split
    · exact Outcome.ofExcept_notesOnly _
    · split
      · exact .bind (Outcome.ofExcept_notesOnly _) fun cause => here cause
      · exact Outcome.ofExcept_notesOnly (.ok false)

/-- All levels: every rejection of an evaluation stands at a position, whatever ends it. -/
theorem outcome_notes_positions (levels : Nat) (schema : Schema) (v : Value) :
    (schema.outcome scope levels v).NotesOnly fun r =>
      Schema.Reaches scope.heap schema v r.trail := by
  induction levels generalizing schema v with
  | zero => exact Outcome.refusal_notesOnly scope _ fun _ _ => .root
  | succ levels ih => exact Plan.outcome_notes_positions rfl ih

/-- So does every rejection of a top-level call: an exhausted stack is noted at the root. -/
theorem rootOutcome_notes_positions (schema : Schema) (v : Value) :
    (schema.rootOutcome scope v).NotesOnly fun r =>
      Schema.Reaches scope.heap schema v r.trail := by
  refine (outcome_notes_positions _ schema v).recover fun fault => ?_
  split
  · exact Outcome.refusal_notesOnly scope _ fun _ _ => .root
  · exact Outcome.ofExcept_notesOnly _

end Evaluations

/-! ### Texts of trails -/

/-- A text without the dots in front. -/
def dropDots (s : Text) : Text := s.dropWhile (· = ('.' : CodePoint))

/-- A text starts with a dot. -/
def StartsWithDot (s : Text) : Prop := s.head? = some '.'

/-- A segment is a field, and its name consists of dots. -/
def Segment.AllDots : Segment → Prop
  | .field name => ∀ c ∈ name.inline, c = '.'
  | .index _ => False

/-- A text is left as it is, unless it starts with a dot. -/
theorem dropDots_eq_self_iff {s : Text} : dropDots s = s ↔ ¬ StartsWithDot s := by
  rw [dropDots, StartsWithDot, List.dropWhile_eq_self_iff]
  cases s with
  | nil => simp
  | cons c rest => simp

/-- Behind a field, the path is the name with the text of what follows, without the dots in front. -/
theorem pathText_field (name : Label) (rest : List Segment) :
    pathText (.field name :: rest) = dropDots (name.inline ++ trailText rest) := by
  rw [pathText_eq, trailText_cons, dropDots]
  simp [Segment.start, Segment.body]

/-- The path is that of the root if and only if there are nothing but fields on the way, and their
    names consist of dots. -/
theorem pathText_eq_nil_iff (trail : List Segment) :
    pathText trail = [] ↔ ∀ segment ∈ trail, segment.AllDots := by
  rw [pathText_eq, List.dropWhile_eq_nil_iff]
  induction trail with
  | nil => simp [trailText]
  | cons segment rest ih =>
    have hsegment : (∀ c ∈ segment.start :: segment.body, decide (c = ('.' : CodePoint)) = true) ↔
        segment.AllDots := by
      cases segment with
      | field name => simp [Segment.start, Segment.body, Segment.AllDots]
      | index i =>
        refine iff_of_false (fun h => ?_) id
        have hdot : ('[' : CodePoint) = '.' := of_decide_eq_true (h _ List.mem_cons_self)
        exact absurd hdot (by decide)
    rw [trailText_cons, ← List.cons_append, List.forall_mem_append, hsegment, ih,
      List.forall_mem_cons]

/-- Where every declared name has another character than dots in it, no position but the root has the
    path of the root. -/
theorem Schema.Reaches.pathText_eq_nil_iff {heap : Heap} {schema : Schema} {v : Value}
    {trail : List Segment} (h : Reaches heap schema v trail)
    (hnames : ∀ node, schema.Contains node → ∀ name ∈ node.fieldNames,
      ∃ c ∈ name.inline, c ≠ '.') : pathText trail = [] ↔ trail = [] := by
  obtain ⟨d, node, x, hat⟩ := h
  rw [Conform.pathText_eq_nil_iff]
  refine ⟨fun hdots => ?_, by rintro rfl; exact nofun⟩
  cases trail with
  | nil => rfl
  | cons segment rest =>
    have hsegment := hdots segment List.mem_cons_self
    cases segment with
    | index i => exact hsegment.elim
    | field name =>
      obtain ⟨inner, hinner, hname⟩ := hat.mem_fieldNames List.mem_cons_self
      obtain ⟨c, hc, hne⟩ := hnames inner hinner name hname
      exact absurd (hsegment c hc) hne

/-! ### Explanations -/

/-- Every failure of an explanation reports a rejection at a position, and shows its path.  Behind a
    field of the root, this is the name of the field with the text of the segments below it, without
    the dots in front: so it is that text itself unless it starts with a dot.  The path is that of
    the root only if all segments are fields whose names consist of dots; where every declared name
    has another character in it, this is the root alone. -/
theorem path_of_explanation {s : Session} {settings : Settings} {schema : Schema} {v : Value}
    (hsettings : s.Settled settings) {explanation : Explanation} {t : Session}
    (hexplain : explain schema v s = .ok explanation t) :
    ∃ rejections : List Rejection, explanation.failures = rejections.map Rejection.report ∧
      ∀ r ∈ rejections, Schema.Reaches s.store.heap schema v r.trail ∧
        (∀ name rest, r.trail = .field name :: rest →
          r.report.path = dropDots (name.inline ++ trailText rest) ∧
          (r.report.path = name.inline ++ trailText rest ↔
            ¬ StartsWithDot (name.inline ++ trailText rest))) ∧
        (r.report.path = [] ↔ ∀ segment ∈ r.trail, segment.AllDots) ∧
        ((∀ node, schema.Contains node → ∀ name ∈ node.fieldNames,
          ∃ c ∈ name.inline, c ≠ '.') → (r.report.path = [] ↔ r.trail = [])) := by
  rw [explain_eq schema v hsettings rfl] at hexplain
  cases hr : (schema.rootOutcome (s.scope settings true) v).result with
  | error fault =>
    rw [hr] at hexplain
    cases hexplain
  | ok valid =>
    rw [hr] at hexplain
    obtain ⟨rfl, -⟩ := EStateM.Result.ok.inj hexplain
    refine ⟨_, rfl, fun r hmem => ?_⟩
    have hreached := rootOutcome_notes_positions schema v r hmem
    refine ⟨hreached, fun name rest htrail => ?_, pathText_eq_nil_iff r.trail,
      hreached.pathText_eq_nil_iff⟩
    have hpath : r.report.path = dropDots (name.inline ++ trailText rest) := by
      rw [Rejection.report, htrail, pathText_field]
    refine ⟨hpath, ?_⟩
    rw [hpath]
    exact dropDots_eq_self_iff

/-- A field with dots inside of its name and behind it, which holds a list of objects, and a field
    with dots in front of its name. -/
theorem path_of_dotted_fields :
    let schema := Schema.intersection
      [.shape [(.plain "a.b.", .array (.shape [(.plain "", .primitive .number)]))],
        .shape [(.plain "..c", .primitive .number)]]
    let s := Session.holding
      [.dict [(.str "", .null)], .list [.ref 0], .dict [(.str "a.b.", .ref 1)]] ⟨5, 16⟩
    ∃ explanation t, explain schema (.ref 2) s = .ok explanation t ∧
      explanation.failures.map Failure.path = (["a.b.[0].", "a.b.[0]", "a.b.", "c", ""] : List Text) ∧
      ∃ rejections : List Rejection, explanation.failures = rejections.map Rejection.report ∧
        ∀ r ∈ rejections, ∀ name rest, r.trail = .field name :: rest →
          r.report.path = dropDots (name.inline ++ trailText rest) := by
  intro schema s
  have hexplain : ∃ failures t, explain schema (.ref 2) s = .ok ⟨false, failures⟩ t ∧
      failures.map Failure.path = (["a.b.[0].", "a.b.[0]", "a.b.", "c", ""] : List Text) :=
    ⟨_, _, rfl, by decide⟩
  obtain ⟨failures, t, hexplain, hpaths⟩ := hexplain
  obtain ⟨rejections, hfailures, hall⟩ := path_of_explanation (.inl rfl) hexplain
  refine ⟨_, t, hexplain, hpaths, rejections, hfailures, fun r hr name rest htrail => ?_⟩
  exact ((hall r hr).2.1 name rest htrail).1

/-- The name of a field is a dot: what is reported about its value has the path of the root. -/
theorem path_of_dot :
    let schema := Schema.shape [(.plain ".", .primitive .number)]
    ∃ failure t, explain schema (.ref 0) (Session.holding [.dict [(.str ".", .str "x")]] ⟨3, 16⟩) =
        .ok ⟨false, [failure]⟩ t ∧
      failure.code = .invalidField ∧ failure.path = [] ∧ failure.location = "<root>" :=
  ⟨_, _, rfl, rfl, by decide, by decide⟩

end Conform
