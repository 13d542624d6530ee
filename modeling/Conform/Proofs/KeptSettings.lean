import Mathlib.Data.List.Induction
import Conform.Proofs.ScriptSteps

namespace Conform

open Script

/-!
# Kept settings

Settings are loaded when they are first needed, and kept until they are cleared.  Until then it makes no
difference what becomes of the environment.  Settings that cannot be loaded are not kept in any form: the
next step that needs them loads again.

* `Settings.Within` — the bounds of the limits;
* `Session.Uses`, `Session.Refuses` — what reads and evaluations come to under some limits;
* `exists_load_of_loaded` — kept settings were loaded since the last clearing, when none were kept;
* `play_alike` — while settings are kept, the environment makes no difference;
* `settings_stable_between_clears` — the settings that are used at any time.
-/

/-! ### Limits in use -/

/-- The limits lie within their bounds. -/
structure Settings.Within (settings : Settings) : Prop where
  one_le_maxDepth : 1 ≤ settings.maxDepth
  maxDepth_le : settings.maxDepth ≤ 256
  le_renderLimit : 16 ≤ settings.renderLimit

theorem Settings.within_of_load {environment : Variables} {file : String} {settings : Settings}
    (h : load environment file = .ok settings) : settings.Within := by
  rw [load] at h
  cases hdepth : maxDepthLimit.read (textOf? environment file maxDepthLimit.variableName) with
  | error v =>
    cases hrender : renderLimitLimit.read
      (textOf? environment file renderLimitLimit.variableName) <;> simp [hdepth, hrender] at h
  | ok depth =>
    cases hrender : renderLimitLimit.read
      (textOf? environment file renderLimitLimit.variableName) with
    | error w => simp [hdepth, hrender] at h
    | ok render =>
      simp only [hdepth, hrender] at h
      obtain rfl := Except.ok.inj h
      obtain ⟨hleast, hgreatest⟩ := Limit.within_of_read (by decide) (by decide) hdepth
      obtain ⟨hrenderLeast, -⟩ := Limit.within_of_read (by decide) (by decide) hrender
      exact ⟨hleast, hgreatest 256 rfl, hrenderLeast⟩

namespace Session

variable {s t : Session} {settings : Settings}

/-- Every read gives the same settings, and every evaluation is bound by them: its own depth and
    quotes, and those of the validators that it calls as tests.  Such a call inherits the limits of the
    evaluation around it, where a top-level call reads the settings.  The two agree, as the evaluation
    has read its limits from the settings that are kept, and a test can change neither these nor the
    heap. -/
structure Uses (s : Session) (settings : Settings) : Prop where
  read : readSettings s = .ok settings { s with loaded := some settings }
  judged : ∀ (collect : Bool) (schema : Schema) (v : Value) (o : Outcome Bool),
    schema.rootOutcome ⟨s.store.heap, settings.maxDepth, settings.renderLimit, collect⟩ v = o →
    judge collect schema v s =
      finish (s.evaluated settings o.calls) (o.result.map fun verdict => (verdict, o.rejections))
  nested : ∀ (collect : Bool) (name : Option Text) (schema : Schema) (v : Value) (o : Outcome Bool),
    schema.rootOutcome ⟨s.store.heap, settings.maxDepth, settings.renderLimit, false⟩ v = o →
    (Test.validating name schema).outcome (s.scope settings collect) v =
      ⟨o.result, [], ⟨.validating name schema, v⟩ :: o.calls⟩

/-- Every read and every evaluation ends in complaints, and changes nothing. -/
structure Refuses (s : Session) (complaints : List Complaint) : Prop where
  read : readSettings s = .error (.invalid complaints) s
  judged : ∀ (collect : Bool) (schema : Schema) (v : Value),
    judge collect schema v s = .error (.invalid complaints) s

theorem uses_of_limits (h : s.limits = .ok settings) : s.Uses settings where
  read := readSettings_of_settled (settled_iff.mpr h)
  judged collect schema v _ ho := judge_eq schema v (settled_iff.mpr h) collect ho
  nested collect name schema v o ho := by
    rw [Test.outcome_validating]
    show _ = (⟨o.result, [], ⟨.validating name schema, v⟩ :: o.calls⟩ : Conform.Outcome Bool)
    rw [← ho]
    rfl

theorem refuses_of_limits {complaints : List Complaint} (h : s.limits = .error complaints) :
    s.Refuses complaints :=
  ⟨readSettings_of_complaints h, judge_of_complaints h⟩

end Session

/-! ### Where kept settings come from -/

/-- Settings that are kept were loaded since the last clearing, in a step before which none were kept,
    and from the environment of that time. -/
theorem exists_load_of_loaded {environment : Variables} {ops : List Operation} {settings : Settings}
    (h : (stateAfter (.start environment) ops).loaded = some settings) :
    ∃ before op later, ops = before ++ op :: later ∧ (∀ o ∈ op :: later, o ≠ .clearSettings) ∧
      (stateAfter (.start environment) before).loaded = none ∧
      Settings.load (stateAfter (.start environment) before).environment
        (stateAfter (.start environment) before).envFile = .ok settings := by
  induction ops using List.reverseRecOn with
  | nil => cases h
  | append_singleton ops op ih =>
    rw [stateAfter_append] at h
    -- settings that were kept before the last step were loaded before it
    have extend (hop : op ≠ .clearSettings)
        (hkept : (stateAfter (.start environment) ops).loaded = some settings) :
        ∃ before op' later, ops ++ [op] = before ++ op' :: later ∧
          (∀ o ∈ op' :: later, o ≠ .clearSettings) ∧
          (stateAfter (.start environment) before).loaded = none ∧
          Settings.load (stateAfter (.start environment) before).environment
            (stateAfter (.start environment) before).envFile = .ok settings := by
      obtain ⟨before, op', later, rfl, hlater, hloaded⟩ := ih hkept
      refine ⟨before, op', later ++ [op], by simp, ?_, hloaded⟩
      rw [← List.cons_append]
      exact List.forall_mem_append.mpr ⟨hlater, List.forall_mem_singleton.mpr hop⟩
    replace h : (step (stateAfter (.start environment) ops) op).2.loaded = some settings := h
    obtain ⟨-, hafter⟩ | ⟨henvironment, environment', file, hafter⟩ | ⟨hclear, -, hleads⟩ :=
      step_cases (stateAfter (.start environment) ops) op
    · rw [hafter] at h
      cases h
    · rw [hafter] at h
      exact extend (by rintro rfl; exact henvironment) h
    · rcases hleads.loaded with hsame | ⟨hnone, kept, hload, hkept⟩
      · exact extend hclear (hsame.symm.trans h)
      · obtain rfl := Option.some.inj (hkept.symm.trans h)
        exact ⟨ops, op, [], rfl, List.forall_mem_singleton.mpr hclear, hnone, hload⟩

/-- The limits that are in force at any time are within their bounds. -/
theorem within_of_limits {environment : Variables} {ops : List Operation} {settings : Settings}
    (h : (stateAfter (.start environment) ops).limits = .ok settings) : settings.Within := by
  rw [Session.limits] at h
  cases hloaded : (stateAfter (.start environment) ops).loaded with
  | some kept =>
    rw [hloaded] at h
    obtain rfl := Except.ok.inj h
    obtain ⟨before, op, later, -, -, -, hload⟩ := exists_load_of_loaded hloaded
    exact Settings.within_of_load hload
  | none =>
    rw [hloaded] at h
    exact Settings.within_of_load h

/-! ### While settings are kept -/

/-- Settings stay in every step that does not clear them. -/
theorem loaded_step {s : Session} {settings : Settings} {op : Operation}
    (hs : s.loaded = some settings) (hclear : op ≠ .clearSettings) :
    (step s op).2.loaded = some settings := by
  obtain ⟨rfl, -⟩ | ⟨-, environment, file, hafter⟩ | ⟨-, -, hleads⟩ := step_cases s op
  · exact absurd rfl hclear
  · rw [hafter]
    exact hs
  · rcases hleads.loaded with hsame | ⟨hnone, -⟩
    · exact hsame.trans hs
    · cases hs.symm.trans hnone

/-- Where settings cannot be loaded, none are kept after a step either. -/
theorem loaded_step_of_complaints {s : Session} {complaints : List Complaint} (op : Operation)
    (hs : s.loaded = none) (hload : Settings.load s.environment s.envFile = .error complaints) :
    (step s op).2.loaded = none := by
  obtain ⟨-, hafter⟩ | ⟨-, environment, file, hafter⟩ | ⟨-, -, hleads⟩ := step_cases s op
  · rw [hafter]
  · rw [hafter]
    exact hs
  · rcases hleads.loaded with hsame | ⟨-, settings, hok, -⟩
    · exact hsame.trans hs
    · cases hload.symm.trans hok

section Kept

variable {s t : Session} {settings : Settings} (h : s.Agrees t) (hs : s.loaded = some settings)
  (ht : t.loaded = some settings)
include h hs ht

/-- A step that does not clear the settings has the same outcome in any environment, and the settings
    stay. -/
theorem step_alike {op : Operation} (hclear : op ≠ .clearSettings) :
    (step t op).1 = (step s op).1 ∧ (step s op).2.Agrees (step t op).2 ∧
      (step s op).2.loaded = some settings ∧ (step t op).2.loaded = some settings := by
  have hstart : Session.Agrees { s with journal := .empty } { t with journal := .empty } :=
    ⟨h.store, h.names, h.logLevel, h.sinks, rfl, h.limits⟩
  have halike : Session.EndAlike (perform op { s with journal := .empty })
      (perform op { t with journal := .empty }) := by
    by_cases henvironment : op.SetsEnvironment
    · -- the environments may differ afterwards as well, since the settings are kept
      obtain ⟨result, environment, file, hperform⟩ := perform_setsEnvironment henvironment
      have hset : Session.Agrees
          { s with
            journal := .empty, environment := environment s.environment, envFile := file s.envFile }
          { t with
            journal := .empty, environment := environment t.environment
            envFile := file t.envFile } :=
        ⟨h.store, h.names, h.logLevel, h.sinks, rfl, by simp only [Session.limits, hs, ht]⟩
      rw [hperform, hperform]
      cases result with
      | ok answer => exact .ok hset
      | error problem => exact .error hset
    · exact (perform_orderly henvironment hclear _).regular.alike _ hstart
  obtain ⟨houtcome, hafter⟩ := step_of_endAlike halike
  exact ⟨houtcome, hafter, loaded_step hs hclear, loaded_step ht hclear⟩

/-- So have the steps of a script. -/
theorem play_alike {ops : List Operation} (hclear : ∀ op ∈ ops, op ≠ .clearSettings) :
    play t ops = play s ops ∧ (stateAfter s ops).loaded = some settings := by
  induction ops generalizing s t with
  | nil => exact ⟨rfl, hs⟩
  | cons op rest ih =>
    obtain ⟨hop, hrest⟩ := List.forall_mem_cons.mp hclear
    obtain ⟨houtcome, hafter, hs', ht'⟩ := step_alike h hs ht hop
    obtain ⟨hplay, hloaded⟩ := ih hafter hs' ht' hrest
    exact ⟨congrArg₂ List.cons houtcome hplay, hloaded⟩

end Kept

/-! ### Stability -/

/-- At any time of a script, settings that are kept are within their bounds, and were loaded in a step
    since the last clearing, before which none were kept, from the environment of that time.  They are
    what every read and every evaluation uses, in all sessions that the next step goes through, whatever
    has become of the environment; and the steps up to the next clearing have the same outcomes in any
    environment.

    Where none are kept, those of the environment are used, from then on; if they cannot be loaded,
    reads and evaluations end in the complaints, and no step keeps any settings. -/
theorem settings_stable_between_clears (environment : Variables) (ops : List Operation) :
    let s := stateAfter (.start environment) ops
    (∀ settings, s.loaded = some settings →
      settings.Within ∧
      (∃ before op later, ops = before ++ op :: later ∧ (∀ o ∈ op :: later, o ≠ .clearSettings) ∧
        (stateAfter (.start environment) before).loaded = none ∧
        Settings.load (stateAfter (.start environment) before).environment
          (stateAfter (.start environment) before).envFile = .ok settings) ∧
      ∀ environment' file', let moved := { s with environment := environment', envFile := file' }
        (∀ t, moved.Leads t → t.Uses settings) ∧
        ∀ later : List Operation, (∀ op ∈ later, op ≠ .clearSettings) →
          play moved later = play s later ∧ (stateAfter s later).loaded = some settings) ∧
      (s.loaded = none →
        (∀ settings, Settings.load s.environment s.envFile = .ok settings →
          settings.Within ∧ ∀ t, s.Leads t → t.Uses settings) ∧
        ∀ complaints, Settings.load s.environment s.envFile = .error complaints →
          (∀ t, s.Leads t → t.Refuses complaints) ∧ ∀ op, (step s op).2.loaded = none) := by
  intro s
  refine ⟨fun settings hloaded => ⟨within_of_limits (Session.limits_of_loaded hloaded),
    exists_load_of_loaded hloaded, fun environment' file' => ⟨fun t ht => ?_, fun later hlater => ?_⟩⟩,
    fun hnone => ⟨fun settings hload => ?_, fun complaints hload => ?_⟩⟩
  · exact Session.uses_of_limits (ht.limits.trans (Session.limits_of_loaded hloaded))
  · -- sessions that differ in the environment agree on the limits, which are kept
    have hagrees : s.Agrees { s with environment := environment', envFile := file' } :=
      ⟨rfl, rfl, rfl, rfl, rfl, by simp only [Session.limits, hloaded]⟩
    exact play_alike hagrees hloaded hloaded hlater
  · have hlimits : s.limits = .ok settings := (Session.limits_of_none hnone).trans hload
    exact ⟨within_of_limits hlimits, fun t ht => Session.uses_of_limits (ht.limits.trans hlimits)⟩
  · have hlimits : s.limits = .error complaints := (Session.limits_of_none hnone).trans hload
    exact ⟨fun t ht => Session.refuses_of_limits (ht.limits.trans hlimits),
      fun op => loaded_step_of_complaints op hnone hload⟩

/-- A depth of two is loaded, and is used on when the variable is removed behind which one is set that is
    out of bounds; once the settings are cleared, they cannot be loaded. -/
theorem settings_stable_between_clears_of_removal :
    let start := Session.start [("REIFY_MAX_DEPTH", "0"), ("reify_max_depth", "2")]
    let ops : List Operation := [.settings, .removeVariable "reify_max_depth"]
    let complaints : List Complaint := [⟨"max_depth", .below 1⟩]
    (stateAfter start ops).Uses ⟨2, 200⟩ ∧
      (stateAfter start (ops ++ [.clearSettings])).Refuses complaints := by
  intro start ops complaints
  obtain ⟨hkept, -⟩ := settings_stable_between_clears
    [("REIFY_MAX_DEPTH", "0"), ("reify_max_depth", "2")] ops
  obtain ⟨-, hnone⟩ := settings_stable_between_clears
    [("REIFY_MAX_DEPTH", "0"), ("reify_max_depth", "2")] (ops ++ [.clearSettings])
  obtain ⟨-, -, huses⟩ := hkept ⟨2, 200⟩ rfl
  exact ⟨(huses _ _).1 _ (.refl _), ((hnone rfl).2 complaints rfl).1 _ (.refl _)⟩

end Conform
