import Conform.Proofs.Building
import Conform.Proofs.TopLevel

namespace Conform

/-!
# What a step reads and changes

Every step over a session is made from few kinds of single changes, and reads the environment only where
no settings are kept.  So what a step comes to depends on the environment through the limits in force
alone, and the settings that it keeps are those that the environment gives.

* `Session.limits` — the settings in force, or the complaints for want of them;
* `Session.Leads` — what may become of a session in a step that leaves the environment alone;
* `Session.Agrees` — two sessions that differ in where their limits come from, at most;
* `SessionM.RegularAt`, `SessionM.Regular` — a step that leads on, alike in sessions that agree;
* `readSettings_regular`, `judge_regular`, `callOnLine_regular` — what top-level calls are made of.
-/

variable {α β : Type}

namespace Session

variable {s t u : Session}

/-! ### Limits -/

/-- The settings in force: those that are kept, or else those of the environment, or the complaints
    about it. -/
def limits (s : Session) : Except (List Complaint) Settings :=
  match s.loaded with
  | some settings => .ok settings
  | none => Settings.load s.environment s.envFile

theorem limits_of_loaded {settings : Settings} (h : s.loaded = some settings) :
    s.limits = .ok settings := by
  rw [limits, h]

theorem limits_of_none (h : s.loaded = none) :
    s.limits = Settings.load s.environment s.envFile := by
  rw [limits, h]

theorem settled_iff {settings : Settings} : s.Settled settings ↔ s.limits = .ok settings := by
  rw [Settled, limits]
  cases s.loaded with
  | some kept => simp
  | none => simp

/-! ### Later sessions -/

/-- What may become of a session in a step that leaves the environment alone: the store evolves, and
    settings are kept only if none were, and are those of the environment then. -/
structure Leads (s t : Session) : Prop where
  store : s.store.Evolves t.store
  environment : t.environment = s.environment
  envFile : t.envFile = s.envFile
  loaded : t.loaded = s.loaded ∨ s.loaded = none ∧ ∃ settings,
    Settings.load s.environment s.envFile = .ok settings ∧ t.loaded = some settings

namespace Leads

theorem refl (s : Session) : s.Leads s := ⟨.refl s.store, rfl, rfl, .inl rfl⟩

theorem trans (h : s.Leads t) (h' : t.Leads u) : s.Leads u := by
  refine ⟨h.store.trans h'.store, h'.environment.trans h.environment,
    h'.envFile.trans h.envFile, ?_⟩
  rcases h'.loaded with hsame | ⟨hnone, settings, hload, hloaded⟩
  · rw [hsame]
    exact h.loaded
  · -- settings are kept in the second part, so none were kept in the first
    rw [h.environment, h.envFile] at hload
    rcases h.loaded with hsame | ⟨-, kept, -, hkept⟩
    · exact .inr ⟨hsame.symm.trans hnone, settings, hload, hloaded⟩
    · cases hnone.symm.trans hkept

/-- The limits stay in force. -/
theorem limits (h : s.Leads t) : t.limits = s.limits := by
  rcases h.loaded with hsame | ⟨hnone, settings, hload, hloaded⟩
  · rw [Session.limits, Session.limits, hsame, h.environment, h.envFile]
  · rw [limits_of_loaded hloaded, limits_of_none hnone, hload]

theorem steady : Steady Leads where
  refl := refl
  trans := trans
  load {s settings} h := by
    refine ⟨.refl s.store, rfl, rfl, ?_⟩
    rcases h with hkept | ⟨hnone, hload⟩
    · exact .inl hkept.symm
    · exact .inr ⟨hnone, settings, hload, rfl⟩
  addCall _ _ s := ⟨.refl s.store, rfl, rfl, .inl rfl⟩
  countSinkCall _ s := ⟨.refl s.store, rfl, rfl, .inl rfl⟩
  addLine _ s := ⟨.refl s.store, rfl, rfl, .inl rfl⟩

theorem addLog (record : LogRecord) (s : Session) : s.Leads (s.addLog record) := by
  rw [Session.addLog]
  split
  · exact ⟨.refl s.store, rfl, rfl, .inl rfl⟩
  · exact refl s

end Leads

/-! ### Sessions that agree -/

/-- Two sessions with the same limits in force, wherever these come from, and with everything but the
    environment and the kept settings in common. -/
structure Agrees (s t : Session) : Prop where
  store : t.store = s.store
  names : t.names = s.names
  logLevel : t.logLevel = s.logLevel
  sinks : t.sinks = s.sinks
  journal : t.journal = s.journal
  limits : t.limits = s.limits

namespace Agrees

variable (h : s.Agrees t)
include h

theorem onJournal (change : Journal → Journal) :
    (s.onJournal change).Agrees (t.onJournal change) := by
  refine ⟨h.store, h.names, h.logLevel, h.sinks, ?_, h.limits⟩
  simp only [Session.onJournal, h.journal]

theorem countSinkCall (a : Addr) : (s.countSinkCall a).Agrees (t.countSinkCall a) := by
  refine ⟨h.store, h.names, h.logLevel, ?_, h.journal, h.limits⟩
  simp only [Session.countSinkCall, h.sinks]

theorem addLog (record : LogRecord) : (s.addLog record).Agrees (t.addLog record) := by
  rw [Session.addLog, Session.addLog, h.logLevel]
  split
  · exact h.onJournal _
  · exact h

theorem addTestCall (call : Call) : (s.addTestCall call).Agrees (t.addTestCall call) := by
  rw [Session.addTestCall, Session.addTestCall]
  cases call.test.origin with
  | caller name =>
    simp only [Session.addCall, h.store]
    exact h.onJournal _
  | builtin f => exact h
  | sink a =>
    dsimp only
    rw [h.store]
    exact (h.countSinkCall a).onJournal _

theorem foldl_addTestCall (calls : List Call) :
    (calls.foldl Session.addTestCall s).Agrees (calls.foldl Session.addTestCall t) := by
  induction calls generalizing s t with
  | nil => exact h
  | cons call rest ih => exact ih (h.addTestCall call)

/-- After an evaluation, both keep the same settings. -/
theorem evaluated (settings : Settings) (calls : List Call) :
    (s.evaluated settings calls).Agrees (t.evaluated settings calls) := by
  have hkept : Agrees { s with loaded := some settings } { t with loaded := some settings } :=
    ⟨h.store, h.names, h.logLevel, h.sinks, h.journal, rfl⟩
  exact hkept.foldl_addTestCall calls

theorem withStore (store : Store) :
    Agrees { s with store := store } { t with store := store } :=
  ⟨rfl, h.names, h.logLevel, h.sinks, h.journal, h.limits⟩

end Agrees

/-- Two ends of a step with the same result, in sessions that agree. -/
inductive EndAlike :
    EStateM.Result Problem Session α → EStateM.Result Problem Session α → Prop where
  | ok {a : α} {s t : Session} (h : s.Agrees t) : EndAlike (.ok a s) (.ok a t)
  | error {problem : Problem} {s t : Session} (h : s.Agrees t) :
    EndAlike (.error problem s) (.error problem t)

theorem EndAlike.finish (h : s.Agrees t) (result : Except Fault α) :
    EndAlike (finish s result) (finish t result) := by
  cases result with
  | ok a => exact .ok h
  | error fault => exact .error h

end Session

/-! ### Regular steps -/

namespace SessionM

variable {s t : Session}

/-- A step leads on from a session, and ends alike in all sessions that agree with it. -/
structure RegularAt (body : SessionM α) (s : Session) : Prop where
  leads : s.Leads (after body s)
  alike : ∀ t, s.Agrees t → Session.EndAlike (body s) (body t)

/-- A step is regular in every session. -/
def Regular (body : SessionM α) : Prop := ∀ s, RegularAt body s

namespace RegularAt

variable {x : SessionM α}

theorem pure (a : α) : RegularAt (Pure.pure a : SessionM α) s := ⟨.refl s, fun _ h => .ok h⟩

theorem throw (problem : Problem) : RegularAt (MonadExcept.throw problem : SessionM α) s :=
  ⟨.refl s, fun _ h => .error h⟩

theorem ofExcept (result : Except Problem α) : RegularAt (SessionM.ofExcept result) s := by
  cases result with
  | ok a => exact .pure a
  | error problem => exact .throw problem

theorem leads_of_ok (h : RegularAt x s) {a : α} (hx : x s = .ok a t) : s.Leads t := by
  have hleads := h.leads
  rwa [after, hx] at hleads

/-- The second part of a sequence has to be regular where the first one has a result. -/
theorem bind {f : α → SessionM β} (hx : RegularAt x s)
    (hf : ∀ a t, x s = .ok a t → RegularAt (f a) t) : RegularAt (x >>= f) s := by
  cases hxs : x s with
  | ok a t =>
    have hfa := hf a t hxs
    refine ⟨?_, fun s' hs => ?_⟩
    · rw [after, bind_of_ok hxs]
      exact (hx.leads_of_ok hxs).trans hfa.leads
    · -- both sessions come out of the first part alike, and go into the second part
      have halike := hx.alike s' hs
      rw [hxs] at halike
      generalize hxs' : x s' = r at halike
      obtain @⟨_, _, t', ht⟩ | _ := halike
      rw [bind_of_ok hxs, bind_of_ok hxs']
      exact hfa.alike t' ht
  | error problem t =>
    refine ⟨?_, fun s' hs => ?_⟩
    · have hleads := hx.leads
      rw [after, hxs] at hleads
      rw [after, bind_of_error hxs]
      exact hleads
    · have halike := hx.alike s' hs
      rw [hxs] at halike
      generalize hxs' : x s' = r at halike
      obtain _ | @⟨_, _, t', ht⟩ := halike
      rw [bind_of_error hxs, bind_of_error hxs']
      exact .error ht

/-- What is read from the session has to be the same in all sessions that agree. -/
theorem get_bind {f : Session → SessionM β} (h : RegularAt (f s) s)
    (hsame : ∀ t, s.Agrees t → f t = f s) : RegularAt (get >>= f) s := by
  refine ⟨h.leads, fun t ht => ?_⟩
  show Session.EndAlike (f s s) (f t t)
  rw [hsame t ht]
  exact h.alike t ht

theorem modify {change : Session → Session} (hleads : s.Leads (change s))
    (hagrees : ∀ t, s.Agrees t → (change s).Agrees (change t)) :
    RegularAt (modify change) s :=
  ⟨hleads, fun t ht => .ok (hagrees t ht)⟩

theorem discard (hx : RegularAt x s) : RegularAt (discard x) s :=
  hx.bind fun _ _ _ => .pure ()

/-- A construction depends on the store alone. -/
theorem ofBuild {body : Build α} {p : Store → α → Prop} (h : body.Ensures p s.store) :
    RegularAt (SessionM.ofBuild body) s := by
  refine ⟨?_, fun t ht => ?_⟩
  · rw [after, SessionM.ofBuild]
    -- a construction changes the store alone, with a result and with a problem
    cases hbody : body s.store with
    | ok a store =>
      refine ⟨fun hs => ?_, rfl, rfl, .inl rfl⟩
      have hres := h hs
      rw [hbody] at hres
      exact hres.1
    | error problem store =>
      refine ⟨fun hs => ?_, rfl, rfl, .inl rfl⟩
      have hres := h hs
      rw [hbody] at hres
      exact hres
  · rw [SessionM.ofBuild, SessionM.ofBuild, ht.store]
    cases body s.store with
    | ok a store => exact .ok (ht.withStore store)
    | error problem store => exact .error (ht.withStore store)

theorem attempt (hx : RegularAt x s) : RegularAt x.attempt s := by
  refine ⟨?_, fun t ht => ?_⟩
  · have hleads := hx.leads
    rw [after] at hleads ⊢
    rw [SessionM.attempt]
    cases hxs : x s <;> rw [hxs] at hleads <;> exact hleads
  · have halike := hx.alike t ht
    rw [SessionM.attempt, SessionM.attempt]
    generalize x s = r, x t = r' at halike
    cases halike with
    | ok h => exact .ok h
    | error h => exact .ok h

end RegularAt

end SessionM

/-! ### Settings, evaluations and lines -/

open SessionM

/-- Without settings in force, nothing is read. -/
theorem readSettings_of_complaints {s : Session} {complaints : List Complaint}
    (h : s.limits = .error complaints) : readSettings s = .error (.invalid complaints) s := by
  rw [Session.limits] at h
  rw [readSettings, SessionM.get_bind]
  cases hloaded : s.loaded with
  | some settings =>
    rw [hloaded] at h
    cases h
  | none =>
    rw [hloaded] at h
    simp only [h]
    rfl

/-- Nor is anything evaluated. -/
theorem judge_of_complaints {s : Session} {complaints : List Complaint}
    (h : s.limits = .error complaints) (collect : Bool) (schema : Schema) (v : Value) :
    judge collect schema v s = .error (.invalid complaints) s := by
  rw [judge, SessionM.bind_of_error (readSettings_of_complaints h)]

theorem readSettings_regular : Regular readSettings := by
  refine fun s => ⟨Session.Leads.steady.readSettings s, fun t ht => ?_⟩
  cases hlimits : s.limits with
  | error complaints =>
    rw [readSettings_of_complaints hlimits, readSettings_of_complaints (ht.limits.trans hlimits)]
    exact .error ht
  | ok settings =>
    rw [readSettings_of_settled (Session.settled_iff.mpr hlimits),
      readSettings_of_settled (Session.settled_iff.mpr (ht.limits.trans hlimits))]
    exact .ok ⟨ht.store, ht.names, ht.logLevel, ht.sinks, ht.journal, rfl⟩

theorem judge_regular (collect : Bool) (schema : Schema) (v : Value) :
    Regular (judge collect schema v) := by
  refine fun s => ⟨Session.Leads.steady.judge collect schema v s, fun t ht => ?_⟩
  cases hlimits : s.limits with
  | error complaints =>
    rw [judge_of_complaints hlimits, judge_of_complaints (ht.limits.trans hlimits)]
    exact .error ht
  | ok settings =>
    have hscope : t.scope settings collect = s.scope settings collect := by
      rw [Session.scope, Session.scope, ht.store]
    rw [judge_eq schema v (Session.settled_iff.mpr hlimits) collect rfl,
      judge_eq schema v (Session.settled_iff.mpr (ht.limits.trans hlimits)) collect rfl, hscope]
    exact .finish (ht.evaluated settings _) _

theorem writeToSink_regular (a : Addr) (sink : Sink) (line : Text) :
    Regular (writeToSink a sink line) := by
  refine fun s => ⟨Session.Leads.steady.writeToSink a sink line s, fun t ht => ?_⟩
  rw [writeToSink_eq, writeToSink_eq]
  split
  · exact .error (ht.countSinkCall a)
  · exact .ok ((ht.countSinkCall a).onJournal _)

theorem callFunction_regular (test : Test) (v : Value) : Regular (callFunction test v) := by
  refine fun s => RegularAt.bind (.modify ?_ fun t ht => ht.addTestCall _) fun _ t _ => ?_
  · exact Session.Leads.steady.addTestCall s _
  · cases test with
    | plain origin answer =>
      refine .get_bind (.ofExcept _) fun u hu => ?_
      rw [hu.store]
    | validating name schema => exact (judge_regular false schema v t).bind fun _ _ _ => .pure _

theorem callOnLine_regular (v : Value) (line : Text) : Regular (callOnLine v line) := by
  refine fun s => .get_bind ?_ fun t ht => by simp only [ht.store, ht.sinks]
  split
  · exact (judge_regular false _ _ s).discard
  · exact writeToSink_regular _ _ line s
  · exact (callFunction_regular _ _ s).discard
  · rename_i t _ _ _
    cases t with
    | str | list => exact .pure ()
    | int | dict => exact .throw _
  · exact .throw _

end Conform
