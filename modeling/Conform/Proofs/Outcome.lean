import Conform.Evaluate

namespace Conform

/-!
# Outcomes

What a computation over the context comes to, told apart from the context in which it starts.
Its rejections carry the way from the place where it starts, its calls are those that it adds,
and the depth and the trail are as before on every exit.

* `Outcome` — a result, with the rejections and the calls on the way to it;
* `Outcome.onto` — an outcome as it is found in a context;
* `Outcome.allOf`, `Outcome.anyOf`, `Outcome.each` — the three ways through a list of checks;
* `Yields` — from every context of a given depth a computation ends in an outcome;
* `Yields.bind`, `Yields.within`, `Yields.tentative`, … — one rule for every combinator of the
  context.
-/

variable {α β : Type}

/-- A rejection as it is seen from further outside. -/
def Rejection.below (trail : List Segment) (r : Rejection) : Rejection :=
  { r with trail := trail ++ r.trail }

@[simp] theorem Rejection.below_nil (r : Rejection) : r.below [] = r := rfl

@[simp] theorem Rejection.below_below (s t : List Segment) (r : Rejection) :
    (r.below t).below s = r.below (s ++ t) := by
  simp [below]

@[simp] theorem Rejection.below_comp (s t : List Segment) :
    below s ∘ below t = below (s ++ t) := funext (below_below s t)

@[simp] theorem Rejection.map_below_nil (rejections : List Rejection) :
    rejections.map (below []) = rejections := List.map_id _

/-- The note that a scope takes of a cause, at the place where it arises. -/
def Scope.note (scope : Scope) (cause : Cause) : List Rejection :=
  if scope.collect then [⟨[], cause.code, cause.message scope.quote⟩] else []

/-! ### Outcomes as a monad -/

/-- What a computation comes to: a result, with the rejections and the calls on the way to
    it. -/
structure Outcome (α : Type) where
  result : Except Fault α
  rejections : List Rejection
  calls : List Call

namespace Outcome

/-- The outcome that has a result without anything on the way to it. -/
def ofExcept (result : Except Fault α) : Outcome α := ⟨result, [], []⟩

/-- An outcome with more rejections and calls in front. -/
def after (o : Outcome β) (rejections : List Rejection) (calls : List Call) : Outcome β :=
  ⟨o.result, rejections ++ o.rejections, calls ++ o.calls⟩

/-- Go on after a result; a fault is the end. -/
protected def bind (o : Outcome α) (next : α → Outcome β) : Outcome β :=
  match o.result with
  | .ok a => (next a).after o.rejections o.calls
  | .error fault => ⟨.error fault, o.rejections, o.calls⟩

instance : Monad Outcome where
  pure a := ofExcept (.ok a)
  bind := Outcome.bind

@[simp] theorem pure_eq (a : α) : (pure a : Outcome α) = ⟨.ok a, [], []⟩ := rfl

theorem bind_of_ok {o : Outcome α} {a : α} (h : o.result = .ok a) (next : α → Outcome β) :
    o >>= next = (next a).after o.rejections o.calls := by
  show Outcome.bind o next = _
  simp only [Outcome.bind, h]

theorem bind_of_error {o : Outcome α} {fault : Fault} (h : o.result = .error fault)
    (next : α → Outcome β) : o >>= next = ⟨.error fault, o.rejections, o.calls⟩ := by
  show Outcome.bind o next = _
  simp only [Outcome.bind, h]

@[simp] theorem ofExcept_ok_bind (a : α) (next : α → Outcome β) :
    ofExcept (.ok a) >>= next = next a := by
  rw [bind_of_ok rfl]
  simp [after, ofExcept]

protected theorem bind_assoc {γ : Type} (o : Outcome α) (f : α → Outcome β) (g : β → Outcome γ) :
    o >>= f >>= g = o >>= fun a => f a >>= g := by
  cases ho : o.result with
  | error fault => rw [bind_of_error ho, bind_of_error ho, bind_of_error rfl]
  | ok a =>
    rw [bind_of_ok ho, bind_of_ok ho]
    cases hf : (f a).result with
    | error fault =>
      have hafter : ((f a).after o.rejections o.calls).result = .error fault := hf
      rw [bind_of_error hf, bind_of_error hafter]
      rfl
    | ok b =>
      have hafter : ((f a).after o.rejections o.calls).result = .ok b := hf
      rw [bind_of_ok hf, bind_of_ok hafter]
      simp [after]

/-! ### What happens to outcomes -/

/-- The outcome of a rejection for one cause. -/
def refusal (scope : Scope) (cause : Cause) : Outcome Bool := ⟨.ok false, scope.note cause, []⟩

/-- An outcome as it is seen from further outside. -/
def below (trail : List Segment) (o : Outcome α) : Outcome α :=
  { o with rejections := o.rejections.map (Rejection.below trail) }

/-- The outcome with another fault. -/
def mapFault (change : Fault → Fault) (o : Outcome α) : Outcome α :=
  { o with result := o.result.mapError change }

@[simp] theorem mapError_ok (change : Fault → Fault) (a : α) :
    (Except.ok a).mapError change = .ok a := rfl

@[simp] theorem mapError_error (change : Fault → Fault) (fault : Fault) :
    (Except.error fault : Except Fault α).mapError change = .error (change fault) := rfl

/-- The outcome of a trial: unless it rejects, its rejections are dropped. -/
def tentative (o : Outcome Bool) : Outcome Bool :=
  match o.result with
  | .ok false => o
  -- accepted, or left by a fault: in either case the separate list is not added to the outer one
  | _ => { o with rejections := [] }

/-- Go on after a fault. -/
def recover (o : Outcome α) (handle : Fault → Outcome α) : Outcome α :=
  match o.result with
  | .ok _ => o
  | .error fault => (handle fault).after o.rejections o.calls

/-- Go on to `rest` only if the verdict is a rejection. -/
def orElse (o rest : Outcome Bool) : Outcome Bool := do
  if ← o then pure true else rest

/-- Go on to `rest` only if the verdict is an acceptance. -/
def andThen (o rest : Outcome Bool) : Outcome Bool := do
  if ← o then rest else pure false

section Branches

variable {o : Outcome Bool} (rest : Outcome Bool)

theorem orElse_of_true (h : o.result = .ok true) : o.orElse rest = o := by
  rw [orElse, bind_of_ok h]
  cases o
  simp_all [after]

theorem orElse_of_false (h : o.result = .ok false) :
    o.orElse rest = rest.after o.rejections o.calls := by
  rw [orElse, bind_of_ok h]
  rfl

theorem orElse_of_error {fault : Fault} (h : o.result = .error fault) : o.orElse rest = o := by
  rw [orElse, bind_of_error h]
  cases o
  simp_all

theorem andThen_of_true (h : o.result = .ok true) :
    o.andThen rest = rest.after o.rejections o.calls := by
  rw [andThen, bind_of_ok h]
  rfl

theorem andThen_of_false (h : o.result = .ok false) : o.andThen rest = o := by
  rw [andThen, bind_of_ok h]
  cases o
  simp_all [after]

theorem andThen_of_error {fault : Fault} (h : o.result = .error fault) : o.andThen rest = o := by
  rw [andThen, bind_of_error h]
  cases o
  simp_all

end Branches

/-! ### Lists of checks -/

/-- Check in order, up to the first rejection. -/
def allOf (check : α → Outcome Bool) : List α → Outcome Bool
  | [] => pure true
  | a :: rest => (check a).andThen (allOf check rest)

/-- Check in order, up to the first acceptance. -/
def anyOf (check : α → Outcome Bool) : List α → Outcome Bool
  | [] => pure false
  | a :: rest => (check a).orElse (anyOf check rest)

/-- Check in order, to the end. -/
def each (check : α → Outcome Bool) : List α → Outcome (List Bool)
  | [] => pure []
  | a :: rest => do
    let verdict ← check a
    return verdict :: (← each check rest)

section Lists

variable {check : α → Outcome Bool} {l : List α}

/-- Checks up to the first rejection, when there is one: everything before it is accepted. -/
theorem allOf_of_false (h : (allOf check l).result = .ok false) :
    ∃ front a back, l = front ++ a :: back ∧ (∀ b ∈ front, (check b).result = .ok true) ∧
      (check a).result = .ok false ∧
      (allOf check l).rejections =
        front.flatMap (fun b => (check b).rejections) ++ (check a).rejections := by
  induction l with
  | nil => cases h
  | cons a rest ih =>
    rw [allOf] at h ⊢
    rcases ha : (check a).result with fault | _ | _
    · rw [andThen_of_error _ ha, ha] at h
      cases h
    · -- the first check rejects: nothing is in front of it
      rw [andThen_of_false _ ha]
      exact ⟨[], a, rest, rfl, nofun, ha, by simp⟩
    · -- the first check accepts, and joins the front
      rw [andThen_of_true _ ha] at h ⊢
      obtain ⟨front, b, back, hl, hfront, hb, hr⟩ := ih h
      refine ⟨a :: front, b, back, by rw [hl]; rfl, ?_, hb, ?_⟩
      · intro c hc
        rcases List.mem_cons.mp hc with rfl | hc
        · exact ha
        · exact hfront c hc
      · rw [List.flatMap_cons, List.append_assoc, ← hr]
        rfl

/-- Checks up to the first acceptance, when there is none. -/
theorem anyOf_of_false (h : (anyOf check l).result = .ok false) :
    (∀ a ∈ l, (check a).result = .ok false) ∧
      (anyOf check l).rejections = l.flatMap fun a => (check a).rejections := by
  induction l with
  | nil => exact ⟨nofun, rfl⟩
  | cons a rest ih =>
    rw [anyOf] at h ⊢
    rcases ha : (check a).result with fault | _ | _
    · rw [orElse_of_error _ ha, ha] at h
      cases h
    · rw [orElse_of_false _ ha] at h ⊢
      obtain ⟨hrest, hr⟩ := ih h
      refine ⟨fun b hb => ?_, ?_⟩
      · rcases List.mem_cons.mp hb with rfl | hb
        · exact ha
        · exact hrest b hb
      · rw [List.flatMap_cons, ← hr]
        rfl
    · rw [orElse_of_true _ ha, ha] at h
      cases h

/-- Checks to the end give one verdict for each. -/
theorem each_of_ok {verdicts : List Bool} (h : (each check l).result = .ok verdicts) :
    verdicts.map .ok = l.map (fun a => (check a).result) ∧
      (each check l).rejections = l.flatMap fun a => (check a).rejections := by
  -- all checks have come to a verdict, and each has noted what it notes on its own
  induction l generalizing verdicts with
  | nil =>
    cases h
    exact ⟨rfl, rfl⟩
  | cons a rest ih =>
    rw [each] at h ⊢
    cases ha : (check a).result with
    | error fault =>
      rw [bind_of_error ha] at h
      cases h
    | ok verdict =>
      rw [bind_of_ok ha] at h ⊢
      cases hr : (each check rest).result with
      | error fault =>
        rw [bind_of_error hr] at h
        cases h
      | ok others =>
        rw [bind_of_ok hr] at h ⊢
        cases h
        obtain ⟨hverdicts, hrejections⟩ := ih hr
        refine ⟨by rw [List.map_cons, List.map_cons, hverdicts, ha], ?_⟩
        simp [after, hrejections]

variable {verdicts : List Bool} (h : verdicts.map .ok = l.map fun a => (check a).result)
include h

theorem exists_verdict_of_mem {a : α} (ha : a ∈ l) :
    ∃ verdict ∈ verdicts, (check a).result = .ok verdict := by
  have hmem : (check a).result ∈ verdicts.map .ok := by
    rw [h]
    exact List.mem_map_of_mem ha
  obtain ⟨verdict, hv, hresult⟩ := List.mem_map.mp hmem
  exact ⟨verdict, hv, hresult.symm⟩

theorem exists_mem_of_verdict {verdict : Bool} (hv : verdict ∈ verdicts) :
    ∃ a ∈ l, (check a).result = .ok verdict := by
  have hmem : (.ok verdict : Except Fault Bool) ∈ l.map fun a => (check a).result := by
    rw [← h]
    exact List.mem_map_of_mem hv
  obtain ⟨a, ha, hresult⟩ := List.mem_map.mp hmem
  exact ⟨a, ha, hresult⟩

end Lists

/-! ### Outcomes in a context -/

/-- The context after an outcome. -/
def settle (o : Outcome α) (ctx : Context) : Context :=
  { ctx with
    -- an outcome counts its trails from where it starts, a context from the root
    rejections := ctx.rejections ++ o.rejections.map (Rejection.below ctx.trail),
    calls := ctx.calls ++ o.calls }

/-- An outcome as it is found in a context. -/
def onto (o : Outcome α) (ctx : Context) : EStateM.Result Fault Context α :=
  match o.result with
  | .ok a => .ok a (o.settle ctx)
  | .error fault => .error fault (o.settle ctx)

theorem onto_of_ok {o : Outcome α} {a : α} (h : o.result = .ok a) (ctx : Context) :
    o.onto ctx = .ok a (o.settle ctx) := by
  simp only [onto, h]

theorem onto_of_error {o : Outcome α} {fault : Fault} (h : o.result = .error fault)
    (ctx : Context) : o.onto ctx = .error fault (o.settle ctx) := by
  simp only [onto, h]

theorem result_of_onto {o : Outcome α} {a : α} {ctx after : Context}
    (h : o.onto ctx = .ok a after) : o.result = .ok a := by
  cases hr : o.result with
  | error fault =>
    rw [onto_of_error hr] at h
    cases h
  | ok b =>
    rw [onto_of_ok hr] at h
    cases h
    rfl

@[simp] theorem settle_depth (o : Outcome α) (ctx : Context) :
    (o.settle ctx).depth = ctx.depth := rfl

@[simp] theorem settle_trail (o : Outcome α) (ctx : Context) :
    (o.settle ctx).trail = ctx.trail := rfl

/-- An outcome after another one is found as the two in a row. -/
theorem onto_settle (o : Outcome α) (next : Outcome β) (ctx : Context) :
    next.onto (o.settle ctx) = (next.after o.rejections o.calls).onto ctx := by
  cases h : next.result <;> simp [onto, settle, after, h]

end Outcome

/-! ### Computations that yield an outcome -/

/-- From every context of depth `d` the computation ends in the outcome `o`. -/
def Yields (body : Eval α) (d : Nat) (o : Outcome α) : Prop :=
  ∀ ctx, ctx.depth = d → body ctx = o.onto ctx

namespace Yields

variable {d : Nat}

theorem pure (a : α) : Yields (Pure.pure a : Eval α) d (Pure.pure a) := by
  intro ctx _
  simp [Outcome.onto, Outcome.settle, Pure.pure, EStateM.pure, Outcome.ofExcept]

theorem ofExcept (result : Except Fault α) :
    Yields (Eval.ofExcept result) d (.ofExcept result) := by
  intro ctx _
  cases result <;> simp [Outcome.onto, Outcome.settle, Outcome.ofExcept]

theorem throw (fault : Fault) : Yields (throw fault : Eval α) d (.ofExcept (.error fault)) := by
  intro ctx _
  show EStateM.Result.error fault ctx = _
  simp [Outcome.onto, Outcome.settle, Outcome.ofExcept]

/-- The second part of a sequence starts at the depth of the first. -/
theorem bind {x : Eval α} {f : α → Eval β} {o : Outcome α} {g : α → Outcome β}
    (hx : Yields x d o) (hf : ∀ a, Yields (f a) d (g a)) : Yields (x >>= f) d (o >>= g) := by
  intro ctx hd
  show EStateM.bind x f ctx = _
  rw [EStateM.bind, hx ctx hd]
  cases ho : o.result with
  | ok a =>
    rw [Outcome.onto_of_ok ho, Outcome.bind_of_ok ho]
    -- the second part starts in the context that the first one leaves, which has the same depth
    show f a (o.settle ctx) = _
    rw [hf a (o.settle ctx) hd, Outcome.onto_settle]
  | error fault =>
    rw [Outcome.onto_of_error ho, Outcome.bind_of_error ho]
    rfl

/-- After a fault, nothing else matters. -/
theorem error_bind (fault : Fault) (f : α → Eval β) :
    Yields (Eval.ofExcept (.error fault) >>= f) d (.ofExcept (.error fault)) := by
  intro ctx _
  simp [Outcome.onto, Outcome.settle, Outcome.ofExcept, Bind.bind, EStateM.bind]

/-- A branch on the verdict of the first part. -/
theorem bindIf {x yes no : Eval Bool} {o o₁ o₂ : Outcome Bool} (hx : Yields x d o)
    (hyes : Yields yes d o₁) (hno : Yields no d o₂) :
    Yields (do if ← x then yes else no) d (do if ← o then o₁ else o₂) := by
  apply hx.bind
  intro verdict
  cases verdict with
  | true => exact hyes
  | false => exact hno

theorem refuse (scope : Scope) (cause : Cause) :
    Yields (refuse scope cause) d (.refusal scope cause) := by
  intro ctx _
  cases h : scope.collect with
  | true =>
    rw [refuse_of_collect h]
    simp [Outcome.onto, Outcome.settle, Outcome.refusal, Scope.note, h, Rejection.below]
  | false =>
    rw [refuse_of_not_collect h]
    simp [Outcome.onto, Outcome.settle, Outcome.refusal, Scope.note, h]

/-- One segment further in, all rejections are about what lies behind that segment. -/
theorem within {body : Eval α} {o : Outcome α} (h : Yields body d o) (segment : Segment) :
    Yields (within segment body) d (o.below [segment]) := by
  intro ctx hd
  -- inside, the trail is one longer; outside, every trail of the outcome is
  have hbody := h { ctx with trail := ctx.trail ++ [segment] } hd
  rw [Conform.within, bracket, hbody]
  cases ho : o.result <;>
    simp [Outcome.onto, Outcome.settle, Outcome.below, ho]

/-- Below the bound, the body is one level deeper. -/
theorem guarded {scope : Scope} {body : Eval Bool} {o : Outcome Bool} (hd : d < scope.maxDepth)
    (h : Yields body (d + 1) o) : Yields (guarded scope body) d o := by
  intro ctx hctx
  rw [guarded_of_lt (by rw [hctx]; exact hd)]
  have hbody := h { ctx with depth := ctx.depth + 1 } (by simp [hctx])
  rw [deeper, bracket, hbody]
  cases ho : o.result <;> simp [Outcome.onto, Outcome.settle, ho]

/-- At the bound, the body does not matter. -/
theorem guarded_of_le {scope : Scope} (hd : scope.maxDepth ≤ d) (body : Eval Bool) :
    Yields (Conform.guarded scope body) d (.refusal scope (.tooDeep scope.maxDepth)) := by
  intro ctx hctx
  rw [Conform.guarded_of_le (by rw [hctx]; exact hd)]
  exact Yields.refuse scope _ ctx hctx

theorem mapFault {body : Eval α} {o : Outcome α} (h : Yields body d o) (change : Fault → Fault) :
    Yields (mapFault change body) d (o.mapFault change) := by
  intro ctx hd
  rw [Conform.mapFault, h ctx hd]
  cases ho : o.result <;>
    simp [Outcome.onto, Outcome.settle, Outcome.mapFault, ho]

/-- After a fault, the handler starts where the body ended. -/
theorem recover {body : Eval α} {o : Outcome α} {handle : Fault → Eval α}
    {handled : Fault → Outcome α} (h : Yields body d o)
    (hh : ∀ fault, Yields (handle fault) d (handled fault)) :
    Yields (recover body handle) d (o.recover handled) := by
  intro ctx hd
  rw [Conform.recover, h ctx hd]
  cases ho : o.result with
  | ok a => simp [Outcome.onto, Outcome.recover, ho]
  | error fault =>
    rw [Outcome.onto_of_error ho]
    show handle fault (o.settle ctx) = _
    rw [hh fault (o.settle ctx) hd, Outcome.onto_settle]
    simp only [Outcome.recover, ho]

/-- A trial on a separate list of rejections: the list is thrown away unless the trial
    rejects. -/
theorem tentative {body rest : Eval Bool} {o next : Outcome Bool} (h : Yields body d o)
    (hrest : Yields rest d next) :
    Yields
      (do
        let (found, rejections) ← scratch body
        if found then return true
        else do
          addRejections rejections
          rest)
      d (o.tentative.orElse next) := by
  intro ctx hd
  have hbody := h { ctx with rejections := [] } hd
  show EStateM.bind (scratch body) _ ctx = _
  rw [EStateM.bind, scratch, hbody]
  rcases ho : o.result with fault | _ | _
  · -- left by a fault: the outer list is in place again
    have ht : o.tentative = ⟨.error fault, [], o.calls⟩ := by simp [Outcome.tentative, ho]
    rw [ht, Outcome.orElse_of_error _ rfl, Outcome.onto_of_error ho]
    simp [Outcome.onto, Outcome.settle]
  · -- rejected: the separate list is added to the outer one, and `rest` goes on from there
    have ht : o.tentative = o := by simp [Outcome.tentative, ho]
    rw [ht, Outcome.orElse_of_false _ ho, Outcome.onto_of_ok ho]
    have hnext := hrest (o.settle ctx) hd
    rw [Outcome.onto_settle] at hnext
    simp only [Bool.false_eq_true, if_false]
    exact hnext
  · -- accepted: the separate list is thrown away
    have ht : o.tentative = ⟨.ok true, [], o.calls⟩ := by simp [Outcome.tentative, ho]
    rw [ht, Outcome.orElse_of_true _ rfl, Outcome.onto_of_ok ho]
    simp [Outcome.onto, Outcome.settle, Pure.pure, EStateM.pure]

end Yields

end Conform
