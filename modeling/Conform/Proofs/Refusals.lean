import Conform.Proofs.TopLevel

namespace Conform

/-!
# Faults that leave a run

An evaluation holds back the faults of tests, and at its root an exhausted stack.  The faults of
look-ups are not held back anywhere, and a run ends in them.

* `Heap.Refuses` — a look-up in a mapping anywhere in a value raises a fault;
* `Schema.Raises.refused` — with a conclusive schema, all faults come from such look-ups;
* `run_raises_iff` — a run lets out these faults, of every class but one.
-/

/-! ### Refused look-ups -/

/-- A look-up of some string in a mapping, anywhere in a value, raises a fault. -/
def Heap.Refuses (heap : Heap) (v : Value) (fault : Fault) : Prop :=
  ∃ w m kind key, heap.Reaches v w ∧ heap.mapping? w = some m ∧ m.refusal? kind key = some fault

/-- A fault that was replaced is not replaced again. -/
theorem Fault.throughIteration_throughIteration (fault : Fault) :
    fault.throughIteration.throughIteration = fault.throughIteration := by
  by_cases h : fault.kind = .endOfIteration
  · simp [throughIteration, h, brokenIteration]
  · simp [throughIteration, h]

/-- With a conclusive schema, every fault comes from a look-up, and is changed on its way up at most
    by the iteration over the members of a union. -/
theorem Schema.Raises.refused {scope : Scope} {levels : Nat} {schema : Schema} {v : Value}
    {fault : Fault} (h : schema.Raises scope levels v fault) (hschema : schema.Conclusive scope) :
    ∃ raised, scope.heap.Refuses v raised ∧ (fault = raised ∨ fault = raised.throughIteration) := by
  refine h.of_escapes (p := fun fault => ∃ raised, scope.heap.Refuses v raised ∧
    (fault = raised ∨ fault = raised.throughIteration)) (fun fault hfault => ?_)
    (hschema.escapes _) ?_
  · obtain ⟨raised, hraised, rfl | rfl⟩ := hfault
    · exact ⟨_, hraised, .inr rfl⟩
    · exact ⟨raised, hraised, .inr raised.throughIteration_throughIteration⟩
  · intro w m hw hm kind key raised hraised
    exact ⟨raised, ⟨w, m, kind, key, hw, hm, hraised⟩, .inl rfl⟩

/-! ### Runs -/

/-- A run does not return exactly if a fault of any class but an exhausted stack ends its evaluation,
    and then it ends in this fault.  With a conclusive schema, there are no such faults but those of
    look-ups in the value: every class of them leaves the run, an end of an iteration under another
    name if it has passed through a union. -/
theorem run_raises_iff {s : Session} {settings : Settings} {schema : Schema} {v opts : Value}
    {options : Options} (hsettings : s.Settled settings)
    (hopts : Options.coerce s.store.heap opts = .ok options)
    (hsink : options.logFailures = true → ∀ sink, options.sink = some sink → s.Harmless sink) :
    let scope := s.scope settings options.logFailures
    (∀ problem, (∃ t, run schema v opts s = .error problem t) ↔
      ∃ fault, problem = .fault fault ∧ fault.kind ≠ .exhausted ∧
        schema.Raises scope settings.maxDepth v fault) ∧
      (schema.Conclusive scope → ∀ fault, schema.Raises scope settings.maxDepth v fault →
        ∃ raised, s.store.heap.Refuses v raised ∧
          (fault = raised ∨ fault = raised.throughIteration)) := by
  intro scope
  refine ⟨fun problem => ?_, fun hschema fault h => h.refused hschema⟩
  obtain ⟨t, hrun⟩ := exists_run_eq_finish schema v hsettings hopts hsink
  -- the root lets out what the node raises, unless it is about an exhausted stack
  have hroot (fault : Fault) :
      (schema.rootOutcome scope v).result = .error fault ↔
        schema.Raises scope settings.maxDepth v fault ∧ fault.kind ≠ .exhausted := by
    rw [Schema.rootOutcome, Outcome.rooted_eq_error_iff, outcome_raises_iff]
    rfl
  rw [hrun]
  constructor
  · rintro ⟨u, hu⟩
    cases hr : (schema.rootOutcome scope v).result with
    | ok verdict =>
      rw [hr] at hu
      cases hu
    | error fault =>
      rw [hr] at hu
      cases hu
      obtain ⟨hraises, hkind⟩ := (hroot fault).mp hr
      exact ⟨fault, rfl, hkind, hraises⟩
  · rintro ⟨fault, rfl, hkind, hraises⟩
    rw [(hroot fault).mpr ⟨hraises, hkind⟩]
    exact ⟨t, rfl⟩

/-- The end of an iteration is signalled by the second item of a list, when a union asks whether it
    has a key.  The run ends in the fault that the union makes of it. -/
theorem run_raises_of_union :
    let schema := Schema.array (.union [.primitive .null, .shape [(.plain "n", .primitive .number)]])
    let cells := [.guarded [(.str "n", .int 1)] ⟨[.str "n"], .has, ⟨.endOfIteration, none⟩⟩,
      .list [.null, .ref 0]]
    let s := Session.holding cells ⟨8, 16⟩
    (∃ t, run schema (.ref 1) .null s = .error (.fault .brokenIteration) t) ∧
      ∃ raised, s.store.heap.Refuses (.ref 1) raised ∧
        (.brokenIteration = raised ∨ .brokenIteration = raised.throughIteration) := by
  intro schema cells s
  have hraises : schema.Raises (s.scope ⟨8, 16⟩ false) 8 (.ref 1) .brokenIteration :=
    (outcome_raises_iff 8 schema (.ref 1) _).mp rfl
  have hschema : schema.Conclusive (s.scope ⟨8, 16⟩ false) :=
    .of_testsTo (n := 4) rfl nofun
  have hopts : Options.coerce s.store.heap .null = .ok .usual := rfl
  obtain ⟨hrun, hrefused⟩ := run_raises_iff (.inl rfl) hopts nofun
  exact ⟨(hrun _).mpr ⟨_, rfl, nofun, hraises⟩, hrefused hschema _ hraises⟩

/-- A field that a mapping refuses to give ends the run in a fault. -/
theorem run_raises_of_field :
    let cells := [.guarded [(.str "a", .int 1)] ⟨[.str "a"], .read, .badValue "boom"⟩]
    ∃ t, run (.shape [(.plain "a", .primitive .number)]) (.ref 0) .null
      (Session.holding cells ⟨8, 16⟩) = .error (.fault (.badValue "boom")) t :=
  ⟨_, rfl⟩

end Conform
