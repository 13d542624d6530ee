import Conform.Cause
import Conform.Json
import Conform.Rejection
import Conform.Schema

namespace Conform

/-!
# The context of an evaluation

One top-level call keeps a context: the nesting depth, the way into the value, the rejections noted so
far and the calls of tests.  An evaluation changes the context and ends in a result or a fault; the
context is kept in either case.

* `Scope` — what does not change during a top-level call;
* `Context`, `Eval` — the state, and computations over it;
* `refuse` — to reject, with a note if rejections are collected;
* `bracket` — a change of the context that is taken back on every exit;
* `guarded`, `within`, `scratch` — one level of depth, one segment, a separate list of rejections;
* `fromRoot` — the recovery from an exhausted stack.
-/

/-- What does not change during a top-level call: the objects, the bound on the nesting depth, the bound
    on quoted values, and whether rejections are collected. -/
structure Scope where
  heap : Heap
  maxDepth : Nat
  renderLimit : Int
  collect : Bool

/-- One call of a test. -/
structure Call where
  test : Test
  argument : Value

/-- The state of a top-level call. -/
structure Context where
  depth : Nat
  trail : List Segment
  rejections : List Rejection
  calls : List Call
  deriving Inhabited

namespace Context

/-- The context at the start of a top-level call. -/
def initial : Context := ⟨0, [], [], []⟩

end Context

/-- A computation over the context. -/
abbrev Eval := EStateM Fault Context

/-- The computation that ends as a given result does. -/
def Eval.ofExcept {α : Type} (result : Except Fault α) : Eval α := fun ctx =>
  match result with
  | .ok a => .ok a ctx
  | .error fault => .error fault ctx

@[simp] theorem Eval.ofExcept_ok {α : Type} (a : α) (ctx : Context) :
    Eval.ofExcept (.ok a) ctx = .ok a ctx := rfl

@[simp] theorem Eval.ofExcept_error {α : Type} (fault : Fault) (ctx : Context) :
    Eval.ofExcept (α := α) (.error fault) ctx = .error fault ctx := rfl

/-! ### Notes -/

/-- A value quoted in a message. -/
def Scope.quote (scope : Scope) (v : Value) : Text := scope.heap.render scope.renderLimit v

/-- Note a rejection at the current place, if rejections are collected. -/
def reject (scope : Scope) (cause : Cause) : Eval Unit := fun ctx =>
  if scope.collect then
    .ok () { ctx with
      rejections := ctx.rejections ++ [⟨ctx.trail, cause.code, cause.message scope.quote⟩] }
  else
    .ok () ctx

/-- Note a rejection, and reject. -/
def refuse (scope : Scope) (cause : Cause) : Eval Bool := do
  reject scope cause
  return false

/-- When nothing is collected, to reject changes nothing. -/
theorem refuse_of_not_collect {scope : Scope} (h : scope.collect = false) (cause : Cause)
    (ctx : Context) : refuse scope cause ctx = .ok false ctx := by
  simp [refuse, reject, h, bind, EStateM.bind, pure, EStateM.pure]

/-- When rejections are collected, the new one is the last. -/
theorem refuse_of_collect {scope : Scope} (h : scope.collect = true) (cause : Cause)
    (ctx : Context) :
    refuse scope cause ctx =
      .ok false { ctx with
        rejections := ctx.rejections ++ [⟨ctx.trail, cause.code, cause.message scope.quote⟩] } := by
  simp [refuse, reject, h, bind, EStateM.bind, pure, EStateM.pure]

/-- Add rejections that were collected separately. -/
def addRejections (rejections : List Rejection) : Eval Unit := fun ctx =>
  .ok () { ctx with rejections := ctx.rejections ++ rejections }

/-- Note the call of a test. -/
def recordCall (test : Test) (argument : Value) : Eval Unit := fun ctx =>
  .ok () { ctx with calls := ctx.calls ++ [⟨test, argument⟩] }

/-! ### Changes that are taken back -/

/-- Run `body` between two changes of the context; the second is made on every exit. -/
def bracket {α : Type} (enter leave : Context → Context) (body : Eval α) : Eval α := fun ctx =>
  match body (enter ctx) with
  | .ok a after => .ok a (leave after)
  | .error fault after => .error fault (leave after)

/-- Run `body` one level deeper. -/
def deeper {α : Type} (body : Eval α) : Eval α :=
  bracket (fun ctx => { ctx with depth := ctx.depth + 1 })
    (fun ctx => { ctx with depth := ctx.depth - 1 }) body

/-- Run `body` one level deeper, unless the bound is reached: then the node is rejected unseen. -/
def guarded (scope : Scope) (body : Eval Bool) : Eval Bool := fun ctx =>
  if ctx.depth < scope.maxDepth then deeper body ctx
  else
    refuse scope (.tooDeep scope.maxDepth) ctx

/-- At the bound a node is rejected without a look at it. -/
theorem guarded_of_le {scope : Scope} {ctx : Context} (h : scope.maxDepth ≤ ctx.depth)
    (body : Eval Bool) :
    guarded scope body ctx = refuse scope (.tooDeep scope.maxDepth) ctx := by
  simp [guarded, Nat.not_lt.mpr h]

/-- Below the bound the body runs one level deeper. -/
theorem guarded_of_lt {scope : Scope} {ctx : Context} (h : ctx.depth < scope.maxDepth)
    (body : Eval Bool) : guarded scope body ctx = deeper body ctx := by
  simp [guarded, h]

/-- Run `body` one segment further into the value. -/
def within {α : Type} (segment : Segment) (body : Eval α) : Eval α :=
  bracket (fun ctx => { ctx with trail := ctx.trail ++ [segment] })
    (fun ctx => { ctx with trail := ctx.trail.dropLast }) body

/-- Run `body` with a list of rejections of its own, and return that list beside the result; on every
    exit the outer list is in place again. -/
def scratch {α : Type} (body : Eval α) : Eval (α × List Rejection) := fun ctx =>
  match body { ctx with rejections := [] } with
  | .ok a after => .ok (a, after.rejections) { after with rejections := ctx.rejections }
  | .error fault after => .error fault { after with rejections := ctx.rejections }

/-! ### Faults -/

/-- Change the fault that leaves `body`. -/
def mapFault {α : Type} (change : Fault → Fault) (body : Eval α) : Eval α := fun ctx =>
  match body ctx with
  | .ok a after => .ok a after
  | .error fault after => .error (change fault) after

/-- Run `body`, and let `handle` go on after a fault, in the context which that leaves behind. -/
def recover {α : Type} (body : Eval α) (handle : Fault → Eval α) : Eval α := fun ctx =>
  match body ctx with
  | .ok a after => .ok a after
  | .error fault after => handle fault after

/-- Evaluate from the root.  An exhausted stack is a rejection: the context is that of the root again,
    with the rejections noted outside of every separate list, and one more at the root. -/
def fromRoot (scope : Scope) (body : Eval Bool) : Eval Bool :=
  recover body fun fault ctx =>
    if fault.kind = .exhausted then
      refuse scope .noStack { ctx with depth := 0, trail := [] }
    else .error fault ctx

/-- A top-level call inside another one: it has a context of its own, from which only the calls of tests
    are kept. -/
def afresh {α : Type} (body : Eval α) : Eval α := fun ctx =>
  match body { Context.initial with calls := ctx.calls } with
  | .ok a after => .ok a { ctx with calls := after.calls }
  | .error fault after => .error fault { ctx with calls := after.calls }

end Conform
