import Conform.Proofs.Actions
import Conform.Script.Step

namespace Conform.Script

open Relation SessionM

/-!
# The steps of a script

Every expression, and every operation that does not set the environment or clear the settings, is an
orderly step; the operations that do are the only ones on which a session can lose its settings, and leave
the store alone.

* `eval_orderly` — the evaluation of an expression, by its structure;
* `Operation.SetsEnvironment`, `perform_orderly` — all operations but four;
* `step_cases` — what becomes of a session in one step;
* `stateAfter`, `holds_stateAfter` — the session in which a script ends, and what holds of its store because
  every action keeps it;
* `sound_stateAfter`, `coherent_stateAfter` — this store is sound and coherent.
-/

/-! ### Parts of expressions -/

theorem bindName_orderly (id : String) (v : Value) : Orderly (bindName id v) := by
  refine fun s => .of_sameStore (.modify ⟨.refl s.store, rfl, rfl, .inl rfl⟩ fun t ht => ?_) rfl
  exact ⟨ht.store, by rw [ht.names], ht.logLevel, ht.sinks, ht.journal, ht.limits⟩

theorem valueOfName_orderly (id : String) : Orderly (valueOfName id) := by
  refine fun s => .get_bind ?_ fun t ht => by rw [ht.names]
  split
  · exact .pure _
  · exact .throw _

theorem allocate_orderly {c : Cell} (hc : Plain c) : Orderly (allocate c) := fun _ =>
  .ofBuild (.single (.add hc))

/-- Whether a value can be a key is found without a change. -/
theorem requireKey_orderly (v : Value) : Orderly (requireKey v) := by
  refine fun s => .get_bind ?_ fun t ht => by rw [ht.store]
  split
  · exact .throw _
  · exact .pure ()

theorem after_requireKey {v : Value} {s t : Session} (h : requireKey v s = .ok () t) : t = s := by
  rw [requireKey, SessionM.get_bind] at h
  cases hfault : s.store.heap.keyFault? v with
  | some fault =>
    rw [hfault] at h
    cases h
  | none =>
    rw [hfault] at h
    cases h
    rfl

theorem appendItem_orderly (list item : Value) : Orderly (appendItem list item) := by
  refine fun s => .get_bind ?_ fun t ht => by rw [ht.store]
  cases list with
  | ref a =>
    dsimp only [Heap.cellOf?, Value.addr?, Option.map_some]
    cases hcell : s.store.heap.cell a with
    | list items => exact .ofBuild (.single (.setItems _ hcell))
    | _ => exact .throw _
  | _ => exact .throw _

theorem assignItem_orderly (object key v : Value) : Orderly (assignItem object key v) := by
  refine fun s => .get_bind ?_ fun t ht => by rw [ht.store]
  cases object with
  | ref a =>
    dsimp only [Heap.cellOf?, Value.addr?, Option.map_some]
    cases hcell : s.store.heap.cell a with
    | dict entries =>
      refine (requireKey_orderly key s).bind fun _ t hkey => ?_
      obtain rfl := after_requireKey hkey
      exact .ofBuild (.single (.setEntry key v hcell))
    | orderedDict entries =>
      refine (requireKey_orderly key s).bind fun _ t hkey => ?_
      obtain rfl := after_requireKey hkey
      exact .ofBuild (.single (.setOrderedEntry key v hcell))
    | list items =>
      dsimp only
      rw [assignToIndex]
      split
      · exact .get_bind (.throw _) fun t ht => by rw [ht.store]
      · split
        · exact .ofBuild (.single (.setItems _ hcell))
        · exact .throw _
    | _ => exact .throw _
  | _ => exact .throw _

theorem distinctItems_orderly (items : List Value) : Orderly (distinctItems items) := by
  refine Orderly.bind (.forM requireKey_orderly) fun _ s => ?_
  exact .get_bind (.pure _) fun t ht => by rw [ht.store]

theorem makeItems_orderly (container : ItemContainer) (items : List Value) :
    Orderly (makeItems container items) := by
  cases container with
  | list | tuple => exact allocate_orderly ⟨by simp, .of_none rfl⟩
  | set | frozenSet =>
    exact (distinctItems_orderly items).bind fun _ => allocate_orderly ⟨by simp, .of_none rfl⟩

theorem makeEntries_orderly (container : EntryContainer) {entries : List (Value × Value)}
    (h : DistinctKeys entries) : Orderly (makeEntries container entries) := by
  cases container <;> exact allocate_orderly ⟨by simp, .of_some rfl h⟩

theorem addTest_orderly {c : Cell} (hc : Plain c) (test : Addr → Test) :
    Orderly (SessionM.ofBuild (Build.addTest c test)) := by
  intro s
  have hadd : Action s.store { s.store with heap := s.store.heap.push c } := .add hc
  exact .ofBuild ((ReflTransGen.single hadd).tail (.setTests _))

theorem makeFunction_orderly (name : Option Text) (raises : Option Fault)
    (test : Option NamedTest) (validates answers : Option Value) :
    Orderly (makeFunction name raises test validates answers) := by
  have hadd (behaviour : Test) :
      Orderly (SessionM.ofBuild (Build.addTest (.function name) fun _ => behaviour)) :=
    addTest_orderly ⟨by simp, .of_none rfl⟩ _
  intro s
  rw [makeFunction.eq_def]
  dsimp only
  split
  · exact hadd _ s
  · exact hadd _ s
  · refine .get_bind ?_ fun t ht => by rw [ht.store]
    split
    · exact hadd _ s
    · exact hadd _ s
  · exact hadd _ s

theorem makeSink_orderly (raisesAt : List Nat) (fault : Fault) (truth : Except Refusal Bool) :
    Orderly (makeSink raisesAt fault truth) := by
  refine (addTest_orderly ⟨by simp, .of_none rfl⟩ _).bind fun v s => ?_
  refine OrderlyAt.bind (.of_sameStore (.modify ?_ ?_) rfl) fun _ _ _ => .pure v
  · exact ⟨.refl s.store, rfl, rfl, .inl rfl⟩
  · exact fun t ht =>
      ⟨ht.store, ht.names, ht.logLevel, by rw [ht.sinks], ht.journal, ht.limits⟩

theorem makeOptions_orderly (fields : List (Value × Value)) : Orderly (makeOptions fields) := by
  refine fun s => .get_bind ?_ fun t ht => by rw [ht.store]
  exact OrderlyAt.bind (.ofExcept _) fun _ t _ => allocate_orderly ⟨by simp, .of_none rfl⟩ t

theorem combine_orderly {body : Build Value} (h : IsCombination body) :
    Orderly (SessionM.ofBuild body) := fun _ => .ofBuild (.single (.combine h))

theorem iterate_orderly {step : Value → SessionM Value} (h : ∀ v, Orderly (step v)) (count : Nat)
    (v : Value) : Orderly (iterate step count v) := by
  induction count generalizing v with
  | zero => exact fun _ => .pure v
  | succ count ih => exact (h v).bind fun w => ih w

/-! ### Expressions -/

/-- Entries that are added one by one have distinct keys. -/
theorem distinctKeys_of_evalEntries {hole : Value} {done result : List (Value × Value)}
    {entries : List (Expression × Expression)} {s t : Session}
    (h : evalEntries hole done entries s = .ok result t) (hdone : DistinctKeys done) :
    DistinctKeys result := by
  induction entries generalizing done s with
  | nil =>
    rw [evalEntries] at h
    obtain ⟨rfl, -⟩ := EStateM.Result.ok.inj h
    exact hdone
  | cons entry rest ih =>
    obtain ⟨key, value⟩ := entry
    rw [evalEntries] at h
    obtain ⟨k, s₁, -, h⟩ := bind_eq_ok_iff.mp h
    obtain ⟨v, s₂, -, h⟩ := bind_eq_ok_iff.mp h
    obtain ⟨_, s₃, -, h⟩ := bind_eq_ok_iff.mp h
    exact ih h (hdone.insertEntry _ k v)

mutual

/-- To evaluate an expression is an orderly step. -/
theorem eval_orderly (hole : Value) (e : Expression) : Orderly (e.eval hole) := by
  rw [Expression.eval.eq_def]
  match e with
  | .value v => exact .pure v
  | .items container items =>
    exact (evalItems_orderly hole items).bind fun vs => makeItems_orderly container vs
  | .entries container entries =>
    refine fun s => (evalEntries_orderly hole [] entries s).bind fun vs t hvs => ?_
    exact makeEntries_orderly container (distinctKeys_of_evalEntries hvs distinctKeys_nil) t
  | .guarded entries keys on fault =>
    refine fun s => (evalEntries_orderly hole [] entries s).bind fun vs t hvs => ?_
    refine (evalItems_orderly hole keys t).bind fun ks u _ => ?_
    exact allocate_orderly ⟨by simp, .of_some rfl (distinctKeys_of_evalEntries hvs distinctKeys_nil)⟩ u
  | .stream items =>
    exact (evalItems_orderly hole items).bind fun vs => allocate_orderly ⟨by simp, .of_none rfl⟩
  | .foreign className shown truth => exact allocate_orderly ⟨by simp, .of_none rfl⟩
  | .function name raises test validates answers =>
    refine (evalOption_orderly hole validates).bind fun validator => ?_
    exact (evalOption_orderly hole answers).bind fun answer => makeFunction_orderly _ _ _ _ _
  | .sink raisesAt fault truth => exact makeSink_orderly raisesAt fault truth
  | .options fields => exact (evalFields_orderly hole [] fields).bind fun vs => makeOptions_orderly vs
  | .define id body =>
    have hbody : Orderly (do
        let v ← body.eval hole
        bindName id v
        return v) :=
      (eval_orderly hole body).bind fun v => (bindName_orderly id v).bind fun _ => .pure v
    -- a list or a dictionary is bound to its name before it is filled
    cases body with
    | items container items =>
      cases container with
      | list =>
        refine (allocate_orderly ⟨by simp, .of_none rfl⟩).bind fun v => ?_
        refine (bindName_orderly id v).bind fun _ => ?_
        exact (fillList_orderly hole v items).bind fun _ => .pure v
      | _ => exact hbody
    | entries container entries =>
      cases container with
      | dict =>
        refine (allocate_orderly ⟨by simp, .of_some rfl distinctKeys_nil⟩).bind fun v => ?_
        refine (bindName_orderly id v).bind fun _ => ?_
        exact (fillDict_orderly hole v entries).bind fun _ => .pure v
      | _ => exact hbody
    | _ => exact hbody
  | .name id => exact valueOfName_orderly id
  | .nest count wrap inner =>
    exact (eval_orderly hole inner).bind fun v => iterate_orderly (fun w => eval_orderly w wrap) count v
  | .hole => exact .pure hole
  | .primitive kind => exact combine_orderly (.primitive kind)
  | .bare => exact combine_orderly .bare
  | .apply combinator argument =>
    exact (eval_orderly hole argument).bind fun v => combine_orderly (.apply combinator v)
  | .union left right =>
    refine (eval_orderly hole left).bind fun v => (eval_orderly hole right).bind fun w => ?_
    exact combine_orderly (.union v w)
  | .intersection left right =>
    refine (eval_orderly hole left).bind fun v => (eval_orderly hole right).bind fun w => ?_
    exact combine_orderly (.intersection v w)
  | .taggedUnion tag variants =>
    refine (eval_orderly hole tag).bind fun v => (eval_orderly hole variants).bind fun w => ?_
    exact combine_orderly (.taggedUnion v w)
  | .predicate function name =>
    refine (eval_orderly hole function).bind fun v => (evalOption_orderly hole name).bind fun w => ?_
    exact combine_orderly (.predicate v _)
  termination_by structural e

theorem evalItems_orderly (hole : Value) (items : List Expression) : Orderly (evalItems hole items) := by
  match items with
  | [] =>
    rw [evalItems]
    exact .pure []
  | item :: rest =>
    rw [evalItems]
    exact (eval_orderly hole item).bind fun v => (evalItems_orderly hole rest).bind fun vs =>
      .pure (v :: vs)
  termination_by structural items

theorem evalOption_orderly (hole : Value) (e : Option Expression) : Orderly (evalOption hole e) := by
  match e with
  | none =>
    rw [evalOption]
    exact .pure none
  | some e =>
    rw [evalOption]
    exact (eval_orderly hole e).bind fun v => .pure (some v)
  termination_by structural e

theorem evalEntries_orderly (hole : Value) (done : List (Value × Value))
    (entries : List (Expression × Expression)) : Orderly (evalEntries hole done entries) := by
  match entries with
  | [] =>
    rw [evalEntries]
    exact .pure done
  | (key, value) :: rest =>
    rw [evalEntries]
    refine (eval_orderly hole key).bind fun k => (eval_orderly hole value).bind fun v => ?_
    exact (requireKey_orderly k).bind fun _ s =>
      .get_bind (evalEntries_orderly hole _ rest s) fun t ht => by rw [ht.store]
  termination_by structural entries

theorem evalFields_orderly (hole : Value) (done : List (Value × Value))
    (fields : List (String × Expression)) : Orderly (evalFields hole done fields) := by
  match fields with
  | [] =>
    rw [evalFields]
    exact .pure done
  | (name, value) :: rest =>
    rw [evalFields]
    exact (eval_orderly hole value).bind fun v s =>
      .get_bind (evalFields_orderly hole _ rest s) fun t ht => by rw [ht.store]
  termination_by structural fields

theorem fillList_orderly (hole list : Value) (items : List Expression) :
    Orderly (fillList hole list items) := by
  match items with
  | [] =>
    rw [fillList]
    exact .pure ()
  | item :: rest =>
    rw [fillList]
    refine (eval_orderly hole item).bind fun v => (appendItem_orderly list v).bind fun _ => ?_
    exact fillList_orderly hole list rest
  termination_by structural items

theorem fillDict_orderly (hole dict : Value) (entries : List (Expression × Expression)) :
    Orderly (fillDict hole dict entries) := by
  match entries with
  | [] =>
    rw [fillDict]
    exact .pure ()
  | (key, value) :: rest =>
    rw [fillDict]
    refine (eval_orderly hole key).bind fun k => (eval_orderly hole value).bind fun v => ?_
    exact (assignItem_orderly dict k v).bind fun _ => fillDict_orderly hole dict rest
  termination_by structural entries

end

/-! ### Parts of operations -/

theorem requireSchema_orderly (v : Value) : Orderly (requireSchema v) := by
  refine fun s => .get_bind ?_ fun t ht => by rw [ht.store]
  dsimp only
  split
  · exact .pure _
  · exact .throw _

theorem failureOf_orderly (path message code : Text) : Orderly (failureOf path message code) := by
  intro s
  rw [failureOf.eq_def]
  split
  · exact .pure _
  · exact .throw _

theorem explainWith_orderly (validator v : Value) (method : Bool) :
    Orderly (explainWith validator v method) := by
  refine fun s => .get_bind ?_ fun t ht => by rw [ht.store]
  dsimp only
  split
  · exact explain_orderly _ v s
  · split
    · exact OrderlyAt.bind (.throw _) fun _ _ h => nomatch h
    · exact (readSettings_orderly s).discard.bind fun _ _ _ => .throw _

theorem cell_orderly (validator v : Value) : Orderly (cell validator v) := by
  refine fun s => (call_orderly validator v none s).attempt.bind fun result t _ => ?_
  split <;> exact .pure _

theorem row_orderly (values : List Value) (validator : Value) : Orderly (row values validator) :=
  (Orderly.mapM (cell_orderly validator)).bind fun _ _ => .pure _

theorem assignField_orderly (object : Value) (field : String) :
    Orderly (assignField object field) := by
  refine fun s => .get_bind ?_ fun t ht => by rw [ht.store]
  dsimp only
  split <;> first | exact .pure _ | exact .throw _

theorem assignFieldItem_orderly (object : Value) (field : String) (key v : Value) :
    Orderly (assignFieldItem object field key v) := by
  refine fun s => .get_bind ?_ fun t ht => by rw [ht.store]
  dsimp only
  split
  · split
    · exact assignItem_orderly _ key v s
    · exact .throw _
    · split
      · exact assignItem_orderly _ key v s
      · exact .throw _
    · exact .throw _
  · exact .throw _

/-! ### Operations -/

/-- An operation sets the environment or its file. -/
def Operation.SetsEnvironment : Operation → Prop
  | .setVariable _ _ | .removeVariable _ | .writeEnvFile _ => True
  | _ => False

/-- Settings that have been read are kept. -/
theorem perform_settings {s : Session} {settings : Settings} (h : s.limits = .ok settings) :
    perform .settings s = .ok (.settings settings true) { s with loaded := some settings } := by
  rw [perform, SessionM.bind_of_ok (readSettings_of_settled (Session.settled_iff.mpr h)),
    SessionM.get_bind, beq_self_eq_true]
  rfl

theorem perform_settings_of_complaints {s : Session} {complaints : List Complaint}
    (h : s.limits = .error complaints) :
    perform .settings s = .error (.invalid complaints) s := by
  rw [perform, SessionM.bind_of_error (readSettings_of_complaints h)]

theorem perform_settings_regular : Regular (perform .settings) := by
  intro s
  cases hlimits : s.limits with
  | error complaints =>
    refine ⟨?_, fun t ht => ?_⟩
    · rw [after, perform_settings_of_complaints hlimits]
      exact .refl s
    · rw [perform_settings_of_complaints hlimits,
        perform_settings_of_complaints (ht.limits.trans hlimits)]
      exact .error ht
  | ok settings =>
    refine ⟨?_, fun t ht => ?_⟩
    · rw [after, perform_settings hlimits]
      exact Session.Leads.steady.load (Session.settled_iff.mpr hlimits)
    · rw [perform_settings hlimits, perform_settings (ht.limits.trans hlimits)]
      exact .ok ⟨ht.store, ht.names, ht.logLevel, ht.sinks, ht.journal, rfl⟩

theorem perform_settings_orderly : Orderly (perform .settings) := by
  refine fun s => .of_sameStore (perform_settings_regular s) ?_
  rw [after]
  cases hlimits : s.limits with
  | error complaints => rw [perform_settings_of_complaints hlimits]
  | ok settings => rw [perform_settings hlimits]

/-- Every other operation than those that set the environment or clear the settings is an orderly
    step. -/
theorem perform_orderly {op : Operation} (henvironment : ¬ op.SetsEnvironment)
    (hclear : op ≠ .clearSettings) : Orderly (perform op) := by
  cases op with
  | check schema value opts =>
    refine (eval_orderly _ schema).bind fun node => (eval_orderly _ value).bind fun v => ?_
    exact (evalOption_orderly _ opts).bind fun o => (call_orderly node v o).bind fun _ _ => .pure _
  | explain schema value method =>
    refine (eval_orderly _ schema).bind fun node => (eval_orderly _ value).bind fun v => ?_
    exact (explainWith_orderly node v method).bind fun _ _ => .pure _
  | matrix schemas values =>
    refine (evalItems_orderly _ schemas).bind fun nodes => (evalItems_orderly _ values).bind fun vs => ?_
    exact (Orderly.mapM (row_orderly vs)).bind fun _ _ => .pure _
  | build schema =>
    refine (eval_orderly _ schema).bind fun v => (requireSchema_orderly v).bind fun node s => ?_
    have hshown : storeAfter (Build.display v) s.store = s.store := by
      rw [storeAfter, Build.display, Build.bind_of_ok (Build.get_eq s.store)]
      cases s.store.heap.display v <;> rfl
    exact (OrderlyAt.ofBuild (by rw [hshown])).bind fun _ _ _ => .pure _
  | canonicalize value =>
    exact (eval_orderly _ value).bind fun v s => .get_bind (.pure _) fun t ht => by rw [ht.store]
  | render value limit =>
    exact (eval_orderly _ value).bind fun v s => .get_bind (.pure _) fun t ht => by rw [ht.store]
  | describe path message code =>
    exact (failureOf_orderly path message code).bind fun _ _ => .pure _
  | emit errors sink =>
    have hfailure (error : Text × Text × Text) :
        Orderly (failureOf error.1 error.2.1 error.2.2) := failureOf_orderly _ _ _
    refine Orderly.bind (.mapM hfailure) fun failures => (eval_orderly _ sink).bind fun v => ?_
    exact (emit_orderly failures _).bind fun _ _ => .pure _
  | options opts =>
    refine (eval_orderly _ opts).bind fun v s => .get_bind ?_ fun t ht => by rw [ht.store]
    exact OrderlyAt.bind (.ofExcept _) fun _ _ _ => .pure _
  | settings => exact perform_settings_orderly
  | undefined =>
    refine fun s => .get_bind ?_ fun t ht => by rw [ht.store]
    refine OrderlyAt.bind (.ofExcept _) fun truth t _ => ?_
    exact (run_orderly _ _ _ t).bind fun _ _ _ => .pure _
  | bind id value =>
    exact (eval_orderly _ value).bind fun v => (bindName_orderly id v).bind fun _ _ => .pure _
  | setVariable name value | removeVariable name | writeEnvFile text =>
    exact absurd trivial henvironment
  | clearSettings => exact absurd rfl hclear
  | setLogLevel name =>
    intro s
    rw [perform]
    split
    · refine OrderlyAt.bind (.of_sameStore (.modify ?_ fun t ht => ?_) rfl) fun _ _ _ => .pure _
      · exact ⟨.refl s.store, rfl, rfl, .inl rfl⟩
      · exact ⟨ht.store, ht.names, rfl, ht.sinks, ht.journal, ht.limits⟩
    · exact .throw _
  | setItem id key value =>
    refine (valueOfName_orderly id).bind fun object => (eval_orderly _ key).bind fun k => ?_
    refine (eval_orderly _ value).bind fun v => ?_
    exact (assignItem_orderly object k v).bind fun _ _ => .pure _
  | append id value =>
    refine (valueOfName_orderly id).bind fun list => (eval_orderly _ value).bind fun v => ?_
    exact (appendItem_orderly list v).bind fun _ _ => .pure _
  | setField id field value =>
    refine (valueOfName_orderly id).bind fun object s => ?_
    refine (eval_orderly _ value s).discard.bind fun _ t _ => ?_
    exact (assignField_orderly object field t).bind fun _ _ _ => .pure _
  | setFieldItem id field key value =>
    refine (valueOfName_orderly id).bind fun object => (eval_orderly _ key).bind fun k => ?_
    refine (eval_orderly _ value).bind fun v => ?_
    exact (assignFieldItem_orderly object field k v).bind fun _ _ => .pure _

/-- Whether a variable can be set is found without a look at the session. -/
theorem requireVariable_eq (name value : String) :
    ∃ result, ∀ s, requireVariable name value s = SessionM.ofExcept result s := by
  by_cases hnul : (name.contains '\x00' || value.contains '\x00') = true
  · refine ⟨.error (.misuse .nulCharacter), fun s => ?_⟩
    simp only [requireVariable, hnul, if_true]
    rfl
  · by_cases hequals : name.contains '=' = true
    · refine ⟨.error (.misuse .variableName), fun s => ?_⟩
      simp only [requireVariable, hnul, hequals, if_true]
      rfl
    · by_cases hempty : name.isEmpty = true
      · refine ⟨.error (.misuse .emptyVariableName), fun s => ?_⟩
        simp only [requireVariable, hnul, hequals, hempty, if_true]
        rfl
      · refine ⟨.ok (), fun s => ?_⟩
        simp only [requireVariable, hnul, hequals, hempty]
        rfl

/-- What sets the environment ends alike in all sessions, and changes nothing else. -/
theorem perform_setsEnvironment {op : Operation} (h : op.SetsEnvironment) :
    ∃ (result : Except Problem Answer) (environment : Variables → Variables) (file : String → String),
      ∀ s, perform op s = SessionM.ofExcept result
        { s with environment := environment s.environment, envFile := file s.envFile } := by
  cases op with
  | setVariable name value =>
    obtain ⟨result, hresult⟩ := requireVariable_eq name value
    cases result with
    | error problem =>
      exact ⟨.error problem, id, id, fun s => SessionM.bind_of_error (hresult s) _⟩
    | ok _ =>
      exact ⟨.ok .done, (·.put name value), id, fun s => SessionM.bind_of_ok (hresult s) _⟩
  | removeVariable name => exact ⟨.ok .done, (·.erase name), id, fun _ => rfl⟩
  | writeEnvFile text => exact ⟨.ok .done, id, fun _ => text, fun _ => rfl⟩
  | _ => exact h.elim

/-! ### Scripts -/

section Steps

variable {s t : Session} {op : Operation}

theorem step_eq (s : Session) (op : Operation) :
    step s op =
      match perform op { s with journal := .empty } with
      | .ok answer after => (⟨.ok answer, after.journal, after.store.heap⟩, after)
      | .error problem after => (⟨.error problem, after.journal, after.store.heap⟩, after) := rfl

theorem step_snd (s : Session) (op : Operation) :
    (step s op).2 = after (perform op) { s with journal := .empty } := by
  rw [step_eq, after]
  cases perform op { s with journal := .empty } <;> rfl

/-- A step that ends alike in two sessions has one outcome. -/
theorem step_of_endAlike
    (h : Session.EndAlike (perform op { s with journal := .empty })
      (perform op { t with journal := .empty })) :
    (step t op).1 = (step s op).1 ∧ (step s op).2.Agrees (step t op).2 := by
  rw [step_eq, step_eq]
  generalize perform op { s with journal := .empty } = r,
    perform op { t with journal := .empty } = r' at h
  cases h with
  | ok h => exact ⟨by simp only [h.journal, h.store], h⟩
  | error h => exact ⟨by simp only [h.journal, h.store], h⟩

/-- What becomes of a session in one step: the settings are cleared, the environment is set, or the
    step is an orderly one. -/
theorem step_cases (s : Session) (op : Operation) :
    (op = .clearSettings ∧ (step s op).2 = { s with journal := .empty, loaded := none }) ∨
      (op.SetsEnvironment ∧ ∃ environment file,
        (step s op).2 =
          { s with journal := .empty, environment := environment, envFile := file }) ∨
      (op ≠ .clearSettings ∧ Orderly (perform op) ∧ s.Leads (step s op).2) := by
  -- three kinds of operations: those that set the environment, the clearing, and all others
  by_cases henvironment : op.SetsEnvironment
  · obtain ⟨result, environment, file, hperform⟩ := perform_setsEnvironment henvironment
    refine .inr (.inl ⟨henvironment, environment s.environment, file s.envFile, ?_⟩)
    rw [step_snd, after, hperform]
    cases result <;> rfl
  · by_cases hclear : op = .clearSettings
    · subst hclear
      exact .inl ⟨rfl, rfl⟩
    · have horderly := perform_orderly henvironment hclear
      refine .inr (.inr ⟨hclear, horderly, ?_⟩)
      have hstart : s.Leads { s with journal := .empty } := ⟨.refl s.store, rfl, rfl, .inl rfl⟩
      rw [step_snd]
      exact hstart.trans (horderly _).regular.leads

/-- Every step changes the store by actions alone. -/
theorem actions_step (s : Session) (op : Operation) :
    ReflTransGen Action s.store (step s op).2.store := by
  obtain ⟨-, hafter⟩ | ⟨-, environment, file, hafter⟩ | ⟨-, horderly, -⟩ := step_cases s op
  · rw [hafter]
  · rw [hafter]
  · rw [step_snd]
    exact (horderly { s with journal := .empty }).acts

/-- The session in which a script ends. -/
def stateAfter (s : Session) (ops : List Operation) : Session :=
  ops.foldl (fun s op => (step s op).2) s

theorem stateAfter_append (s : Session) (ops ops' : List Operation) :
    stateAfter s (ops ++ ops') = stateAfter (stateAfter s ops) ops' := List.foldl_append

theorem actions_stateAfter (s : Session) (ops : List Operation) :
    ReflTransGen Action s.store (stateAfter s ops).store := by
  induction ops generalizing s with
  | nil => exact .refl
  | cons op rest ih => exact (actions_step s op).trans (ih _)

/-- What holds of the empty store, and is kept by every action, holds of the store at any time of a
    script. -/
theorem holds_stateAfter {p : Store → Prop} (hempty : p .empty)
    (haction : ∀ {s t}, Action s t → p s → p t) (environment : Variables) (ops : List Operation) :
    p (stateAfter (.start environment) ops).store := by
  have hkept {t : Store} (hacts : ReflTransGen Action .empty t) : p t := by
    induction hacts with
    | refl => exact hempty
    | tail _ h ih => exact haction h ih
  exact hkept (actions_stateAfter (.start environment) ops)

/-- The store of a script is sound. -/
theorem sound_stateAfter (environment : Variables) (ops : List Operation) :
    (stateAfter (.start environment) ops).store.Sound :=
  holds_stateAfter Store.sound_empty (fun h hs => (h.evolves hs).1) environment ops

/-- The store of a script is coherent. -/
theorem coherent_stateAfter (environment : Variables) (ops : List Operation) :
    (stateAfter (.start environment) ops).store.Coherent :=
  holds_stateAfter Store.coherent_empty Action.coherent environment ops

end Steps

end Conform.Script
