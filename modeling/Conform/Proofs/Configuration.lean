import Conform.Proofs.Steps

namespace Conform

/-!
# Calls that cannot start

A top-level call needs its options, and then the settings.  Where it cannot have them it ends in the
complaint about them, and nothing has happened: the session is as it was, and neither the schema nor the
value has been looked at.

* `Cell.Exchanged`, `Heap.Exchanged` — heaps in which mappings may have become other mappings, such as
  refuse every look-up;
* `Heap.Exchanged.coerce_eq` — options are read from what is passed as options, and from no other mapping;
* `run_of_bad_options`, `run_of_bad_settings`, `explain_of_bad_settings` — how such a call ends;
* `configuration_comes_first` — it ends so in every session, whatever the schema and the value are.
-/

/-! ### Other mappings -/

/-- An object may be exchanged for another one if both are mappings. -/
inductive Cell.Exchanged : Cell → Cell → Prop where
  | same {c : Cell} : Exchanged c c
  | mapping {c d : Cell} {m n : Mapping} (hc : c.mapping? = some m) (hd : d.mapping? = some n) :
    Exchanged c d

/-- Two heaps with the same objects, apart from mappings.  What the value `kept` refers to is the same
    even so. -/
structure Heap.Exchanged (heap heap' : Heap) (kept : Value) : Prop where
  next : heap'.next = heap.next
  cells : ∀ a, (heap.cell a).Exchanged (heap'.cell a)
  kept : heap'.cellOf? kept = heap.cellOf? kept

namespace Heap.Exchanged

variable {heap heap' : Heap} {kept : Value}

variable (h : heap.Exchanged heap' kept)
include h

/-- Keys are compared by their items, and mappings have none. -/
theorem sameKeyWithin_eq (fuel : Nat) (v w : Value) :
    heap'.sameKeyWithin fuel v w = heap.sameKeyWithin fuel v w := by
  induction fuel generalizing v w with
  | zero => rfl
  | succ fuel ih =>
    cases v with
    | ref a =>
      cases w with
      | ref b =>
        simp only [sameKeyWithin, Value.integer?]
        congr 1
        -- mappings are no keys, and all other cells are the same in both heaps
        have ha := h.cells a
        have hb := h.cells b
        generalize heap.cell a = c, heap'.cell a = c' at ha
        generalize heap.cell b = d, heap'.cell b = d' at hb
        cases ha with
        | same =>
          cases hb with
          | same => simp only [ih]
          | mapping hd hd' =>
            cases d <;> cases hd <;> cases d' <;> cases hd' <;> cases c <;> rfl
        | mapping hc hc' =>
          cases c <;> cases hc <;> cases c' <;> cases hc' <;> rfl
      | _ => rfl
    | _ => cases w <;> rfl

theorem sameKey_eq (v w : Value) : heap'.sameKey v w = heap.sameKey v w := by
  rw [sameKey, sameKey, keyFuel, keyFuel, h.next, h.sameKeyWithin_eq]

theorem readEntries_eq (m : Mapping) : heap'.readEntries m = heap.readEntries m := by
  have hsame : heap'.sameKey = heap.sameKey := funext fun v => funext fun w => h.sameKey_eq v w
  have hfault : heap'.readFault? m = heap.readFault? m := by
    funext key
    rw [readFault?, readFault?, hsame]
  rw [readEntries, readEntries, hfault]

/-- No mapping can be called. -/
theorem isCallable_eq (v : Value) : heap'.isCallable v = heap.isCallable v := by
  cases v with
  | ref a =>
    rw [isCallable, isCallable]
    have ha := h.cells a
    generalize heap.cell a = c, heap'.cell a = c' at ha
    cases ha with
    | same => rfl
    | mapping hc hd => cases c <;> cases hc <;> cases c' <;> cases hd <;> rfl
  | _ => rfl

theorem typeName_kept : heap'.typeName kept = heap.typeName kept := by
  cases kept with
  | ref a => exact congrArg Cell.typeName (Option.some.inj h.kept)
  | _ => rfl

theorem ofFields_eq (fields : Mapping) : Options.ofFields heap' fields = Options.ofFields heap fields := by
  have hsink : Options.sinkOf heap' = Options.sinkOf heap := by
    funext v
    unfold Options.sinkOf
    rw [h.isCallable_eq]
  rw [Options.ofFields, Options.ofFields, hsink]

/-- The options of a value do not depend on any other mapping. -/
theorem coerce_eq : Options.coerce heap' kept = Options.coerce heap kept := by
  have hmapping : heap'.mapping? kept = heap.mapping? kept := by
    rw [Heap.mapping?, Heap.mapping?, h.kept]
  have hread : heap'.readEntries = heap.readEntries := funext h.readEntries_eq
  have hfields : Options.ofFields heap' = Options.ofFields heap := funext h.ofFields_eq
  unfold Options.coerce
  rw [h.kept, hmapping, h.typeName_kept, hread, hfields]

end Heap.Exchanged

/-! ### Calls -/

section Calls

variable (schema : Schema) (v : Value) {opts : Value} {s : Session}

/-- Options are read first: a problem with them is the end. -/
theorem run_of_bad_options {problem : Problem}
    (h : Options.coerce s.store.heap opts = .error problem) :
    run schema v opts s = .error problem s := by
  have hread : SessionM.ofExcept (Options.coerce s.store.heap opts) s = .error problem s := by
    rw [h]
    rfl
  rw [run, SessionM.get_bind, SessionM.bind_of_error hread]

variable {complaints : List Complaint} (hlimits : s.limits = .error complaints)
include hlimits

/-- Settings are read next. -/
theorem run_of_bad_settings {options : Options}
    (h : Options.coerce s.store.heap opts = .ok options) :
    run schema v opts s = .error (.invalid complaints) s := by
  have hread : SessionM.ofExcept (Options.coerce s.store.heap opts) s = .ok options s := by
    rw [h]
    rfl
  rw [run, SessionM.get_bind, SessionM.bind_of_ok hread,
    SessionM.bind_of_error (judge_of_complaints hlimits _ schema v)]

/-- An explanation takes no options, and begins with the settings. -/
theorem explain_of_bad_settings : explain schema v s = .error (.invalid complaints) s := by
  rw [explain, SessionM.bind_of_error (judge_of_complaints hlimits true schema v)]

end Calls

/-- Bad options are the end of a run, whatever the settings are, and bad settings the end of a run with
    good options and of every explanation.  The call ends in the complaint about them, in the session that
    it began in: the kept settings, the counts of the sinks, and the calls, lines and records of the
    journal are as they were.

    It ends so for all schemas and values, and in every session: one with other functions and other sinks,
    and with another mapping, such as refuses every look-up, in the place of any mapping but that of the
    options. -/
theorem configuration_comes_first (heap : Heap) (opts : Value) :
    (∀ problem, Options.coerce heap opts = .error problem →
      ∀ s : Session, heap.Exchanged s.store.heap opts →
        ∀ schema v, run schema v opts s = .error problem s) ∧
      ∀ (s : Session) (complaints : List Complaint), s.loaded = none →
        Settings.load s.environment s.envFile = .error complaints →
          (∀ options, Options.coerce heap opts = .ok options → heap.Exchanged s.store.heap opts →
            ∀ schema v, run schema v opts s = .error (.invalid complaints) s) ∧
          ∀ schema v, explain schema v s = .error (.invalid complaints) s := by
  refine ⟨fun problem hbad s hs schema v => ?_, fun s complaints hnone hload => ⟨?_, ?_⟩⟩
  · exact run_of_bad_options schema v (hs.coerce_eq.trans hbad)
  · intro options hgood hs schema v
    have hlimits : s.limits = .error complaints := (Session.limits_of_none hnone).trans hload
    exact run_of_bad_settings schema v hlimits (hs.coerce_eq.trans hgood)
  · intro schema v
    exact explain_of_bad_settings schema v ((Session.limits_of_none hnone).trans hload)

/-- A mapping that refuses to be read is passed as options, another one as the value, where the depth is
    out of bounds too: the run ends in the refusal by the options, and without options in the complaint
    about the depth. -/
theorem configuration_comes_first_of_refusing_mappings :
    let refusing (name fault : String) : Cell :=
      .guarded [(.str name, .int 1)] ⟨[.str name], .read, .badValue fault⟩
    let s := { Session.start [("reify_max_depth", "0")] with
      store := { Store.empty with heap := ⟨#[refusing "sink" "options", refusing "x" "value"]⟩ } }
    let schema := Schema.shape [(.plain "x", .primitive .number)]
    let complaints : List Complaint := [⟨"max_depth", .below 1⟩]
    run schema (.ref 1) (.ref 0) s = .error (.fault (.badValue "options")) s ∧
      run schema (.ref 1) .null s = .error (.invalid complaints) s ∧
      explain schema (.ref 1) s = .error (.invalid complaints) s := by
  intro refusing s schema complaints
  -- the heap of which the theorem speaks has a plain mapping for the value
  let heap : Heap := ⟨#[refusing "sink" "options", .dict [(.str "x", .int 1)]]⟩
  have hexchanged (opts : Value) (hopts : opts = .ref 0 ∨ opts = .null) :
      heap.Exchanged s.store.heap opts := by
    refine ⟨rfl, fun a => ?_, ?_⟩
    · match a with
      | 0 => exact .same
      | 1 => exact .mapping rfl rfl
      | _ + 2 => exact .same
    · rcases hopts with rfl | rfl <;> rfl
  obtain ⟨hoptions, -⟩ := configuration_comes_first heap (.ref 0)
  obtain ⟨-, hsettings⟩ := configuration_comes_first heap .null
  obtain ⟨hrun, hexplain⟩ := hsettings s complaints rfl rfl
  exact ⟨hoptions _ rfl s (hexchanged _ (.inl rfl)) schema _,
    hrun .usual rfl (hexchanged _ (.inr rfl)) schema _, hexplain schema _⟩

end Conform
