import Conform.Problem
import Conform.Settings.EnvFile
import Conform.Settings.Integer
import Conform.Settings.Reference

namespace Conform

/-!
# Settings

The two limits of an evaluation, read from the environment and from an environment file.

* `Settings` — the limits;
* `Variables` — named texts in the order in which they were set; names are compared without case;
* `Settings.load` — the limits of an environment, or every complaint about them.
-/

/-- The limits of an evaluation: how deeply nodes may be nested, and how many characters of a value are
    quoted. -/
structure Settings where
  maxDepth : Nat
  renderLimit : Nat
  deriving DecidableEq, Inhabited

/-! ### Variables -/

/-- Named texts in the order in which they were set. -/
abbrev Variables := List (String × String)

namespace Variables

/-- Set a variable; it keeps its place if it was there. -/
def put (vars : Variables) (name value : String) : Variables :=
  if vars.any (·.1 == name) then vars.map fun var => if var.1 == name then (name, value) else var
  else vars ++ [(name, value)]

/-- Remove a variable. -/
def erase (vars : Variables) (name : String) : Variables := vars.filter (·.1 != name)

end Variables

namespace Settings

/-- A name in lower case.  The names that are looked up are ASCII, and no other letter has one of theirs
    as its lower case. -/
def folded (name : String) : String := String.ofList (name.toList.map Char.toLower)

/-- The last entry whose name agrees with `name`, a name in lower case. -/
def lastNamed? {α : Type} (entries : List (String × α)) (name : String) : Option α :=
  (entries.reverse.find? fun entry => folded entry.1 == name).map Prod.snd

/-- Bind a key, with a value or without; it keeps its place if it was bound. -/
def bindKey (bound : List (String × Option String)) (key : String) (value : Option String) :
    List (String × Option String) :=
  if bound.any (·.1 == key) then
    bound.map fun entry => if entry.1 == key then (key, value) else entry
  else bound ++ [(key, value)]

/-- What a name stands for in a value: a key that was bound goes before the environment, and stands for
    the empty text if it has no value. -/
def meaningOf? (environment : Variables) (bound : List (String × Option String)) (name : String) :
    Option String :=
  match bound.lookup name with
  | some value => some (value.getD "")
  | none => environment.lookup name

/-- The keys of an environment file with their values, in which the references are replaced line by
    line. -/
def fileEntries (environment : Variables) (file : String) : List (String × Option String) :=
  (bindings file).foldl (fun bound (key, value) =>
    bindKey bound key (value.map (expand (meaningOf? environment bound)))) []

/-- The text of a variable: the environment goes before the file, where a key may lack a value. -/
def textOf? (environment : Variables) (file : String) (name : String) : Option String :=
  match lastNamed? environment name with
  | some text => some text
  | none => (lastNamed? (fileEntries environment file) name).join

/-! ### Limits -/

/-- The rule for one limit: its name as a field and as a variable, its value where no variable is set,
    and its bounds. -/
structure Limit where
  field : String
  variableName : String
  default : Nat
  least : Nat
  greatest : Option Nat

/-- The bound on the nesting depth. -/
def maxDepthLimit : Limit := ⟨"max_depth", "reify_max_depth", 128, 1, some 256⟩

/-- The bound on quoted values. -/
def renderLimitLimit : Limit := ⟨"render_limit", "reify_render_limit", 200, 16, none⟩

/-- What is wrong with a limit whose text is no integer. -/
def IntegerFault.violation : IntegerFault → Violation
  | .malformed => .notInteger
  | .tooLong => .longInteger

/-- An integer as the value of a limit, if it lies within the bounds. -/
def Limit.accept (limit : Limit) (n : Int) : Except Violation Nat :=
  if n < limit.least then .error (.below limit.least)
  else
    match limit.greatest with
    | some greatest => if greatest < n then .error (.above greatest) else .ok n.toNat
    | none => .ok n.toNat

/-- The value of a limit for the text of its variable. -/
def Limit.read (limit : Limit) (text : Option String) : Except Violation Nat :=
  match text with
  | none => .ok limit.default
  | some text =>
    match integer text with
    | .error fault => .error fault.violation
    | .ok n => limit.accept n

/-- What is accepted for a limit lies within its bounds. -/
theorem Limit.within_of_accept {limit : Limit} {i : Int} {n : Nat} (h : limit.accept i = .ok n) :
    limit.least ≤ n ∧ ∀ g, limit.greatest = some g → n ≤ g := by
  unfold accept at h
  split at h
  · cases h
  · split at h
    · next g hg =>
      split at h
      · cases h
      · cases h
        refine ⟨by omega, fun g' hg' => ?_⟩
        obtain rfl : g = g' := by simpa [hg] using hg'
        omega
    · next hg =>
      cases h
      exact ⟨by omega, fun g' hg' => by simp [hg] at hg'⟩

/-- What is read of a limit lies within its bounds, if its value without a variable does. -/
theorem Limit.within_of_read {limit : Limit} {text : Option String} {n : Nat}
    (hleast : limit.least ≤ limit.default)
    (hgreatest : ∀ g, limit.greatest = some g → limit.default ≤ g)
    (h : limit.read text = .ok n) :
    limit.least ≤ n ∧ ∀ g, limit.greatest = some g → n ≤ g := by
  unfold read at h
  split at h
  · cases h
    exact ⟨hleast, hgreatest⟩
  · split at h
    · cases h
    · exact within_of_accept h

/-- The settings of an environment and a file, or the complaints about both limits. -/
def load (environment : Variables) (file : String) : Except (List Complaint) Settings :=
  let depth := maxDepthLimit.read (textOf? environment file maxDepthLimit.variableName)
  let render := renderLimitLimit.read (textOf? environment file renderLimitLimit.variableName)
  match depth, render with
  | .ok maxDepth, .ok renderLimit => .ok ⟨maxDepth, renderLimit⟩
  | .error v, .ok _ => .error [⟨maxDepthLimit.field, v⟩]
  | .ok _, .error w => .error [⟨renderLimitLimit.field, w⟩]
  | .error v, .error w => .error [⟨maxDepthLimit.field, v⟩, ⟨renderLimitLimit.field, w⟩]

end Settings

end Conform
