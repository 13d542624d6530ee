import Conform.Proofs.Independence

namespace Conform

/-!
# Context discipline

What an evaluation does to its context: on every exit the depth and the trail are as before, and the
list of rejections is the old one with more at its end.  In between, the depth stays within the
bound.

* `Eval.exit` — the context that a computation leaves behind;
* `Starts` — in which context a computation starts another one, seen from what depends on it;
* `starts_guarded_iff` — the guard starts what it guards one level deeper, and not at the bound;
* `Watched` — a computation with the contexts that it goes through;
* `watch` — an evaluation that is watched; apart from that it is the evaluation (`watch_body`);
* `Watched.Bounded` — wherever a computation starts within the bound, it stays there;
* `evaluate_keeps_context` — the discipline of every evaluation.
-/

variable {α β : Type}

/-- The context that a computation leaves behind, with a result or with a fault. -/
def Eval.exit (body : Eval α) (ctx : Context) : Context :=
  match body ctx with
  | .ok _ after => after
  | .error _ after => after

theorem Outcome.exit_eq {body : Eval α} {o : Outcome α} {ctx : Context}
    (h : body ctx = o.onto ctx) : Eval.exit body ctx = o.settle ctx := by
  rw [Eval.exit, h]
  cases hr : o.result with
  | ok a => rw [onto_of_ok hr]
  | error fault => rw [onto_of_error hr]

/-! ### Computations inside of others -/

/-- A computation around another one starts it in a context: what it does depends on what the other one
    does in that context, if that is the only thing that changes. -/
def Starts (whole : Eval α → Eval β) (ctx inner : Context) : Prop :=
  ∃ body body' : Eval α, (∀ c, c ≠ inner → body c = body' c) ∧ whole body ctx ≠ whole body' ctx

/-- What looks at the other computation in one context only, and shows what it finds there, starts it in
    that context and in no other one. -/
theorem starts_iff {whole : Eval α → Eval β} {ctx inner only : Context}
    (hlooks : ∀ body body', body only = body' only → whole body ctx = whole body' ctx)
    (hshows : ∃ result result', whole (fun _ => result) ctx ≠ whole (fun _ => result') ctx) :
    Starts whole ctx inner ↔ inner = only := by
  classical
  constructor
  · rintro ⟨body, body', hsame, hdifferent⟩
    refine Classical.byContradiction fun hne => ?_
    exact hdifferent (hlooks body body' (hsame only (Ne.symm hne)))
  · rintro rfl
    obtain ⟨result, result', hdifferent⟩ := hshows
    let other : Eval α := fun c => if c = inner then result' else result
    have hsame (c : Context) (hc : c ≠ inner) : result = other c := (if_neg hc).symm
    have hother : whole other ctx = whole (fun _ => result') ctx := hlooks _ _ (if_pos rfl)
    exact ⟨fun _ => result, other, hsame, hother ▸ hdifferent⟩

section Starts

variable {ctx inner : Context}

/-- Two computations that do the same in a context start the same in it. -/
theorem starts_congr {whole whole' : Eval α → Eval β} (h : ∀ body, whole body ctx = whole' body ctx) :
    Starts whole ctx inner ↔ Starts whole' ctx inner := by
  simp only [Starts, h]

/-- A bracket starts what it encloses where it has entered, if its end does not wipe out everything. -/
theorem starts_bracket_iff {enter leave : Context → Context} (left left' : Context)
    (hleave : leave left ≠ leave left') :
    Starts (bracket enter leave : Eval α → Eval α) ctx inner ↔ inner = enter ctx := by
  refine starts_iff (fun body body' h => ?_) ⟨.error default left, .error default left', fun h => ?_⟩
  · simp only [bracket, h]
  · exact hleave (EStateM.Result.error.inj h).2

theorem starts_within_iff (segment : Segment) :
    Starts (within segment : Eval α → Eval α) ctx inner ↔
      inner = { ctx with trail := ctx.trail ++ [segment] } :=
  starts_bracket_iff ⟨0, [], [], []⟩ ⟨1, [], [], []⟩ nofun

theorem starts_deeper_iff :
    Starts (deeper : Eval α → Eval α) ctx inner ↔ inner = { ctx with depth := ctx.depth + 1 } :=
  starts_bracket_iff ⟨1, [], [], []⟩ ⟨2, [], [], []⟩ nofun

theorem starts_scratch_iff :
    Starts (scratch : Eval α → Eval (α × List Rejection)) ctx inner ↔
      inner = { ctx with rejections := [] } := by
  refine starts_iff (fun body body' h => ?_) ⟨.error default ⟨0, [], [], []⟩,
    .error default ⟨1, [], [], []⟩, nofun⟩
  simp only [scratch, h]

theorem starts_mapFault_iff (change : Fault → Fault) :
    Starts (mapFault change : Eval α → Eval α) ctx inner ↔ inner = ctx := by
  refine starts_iff (fun body body' h => ?_) ⟨.error default ⟨0, [], [], []⟩,
    .error default ⟨1, [], [], []⟩, nofun⟩
  simp only [mapFault, h]

/-- The guard of the evaluator starts what it guards one level deeper, if the bound leaves room for it,
    and otherwise not at all. -/
theorem starts_guarded_iff {scope : Scope} :
    Starts (guarded scope) ctx inner ↔
      ctx.depth < scope.maxDepth ∧ inner = { ctx with depth := ctx.depth + 1 } := by
  by_cases hdepth : ctx.depth < scope.maxDepth
  · rw [and_iff_right hdepth, starts_congr (guarded_of_lt hdepth), starts_deeper_iff]
  · -- what is guarded is not looked at
    refine iff_of_false ?_ fun h => hdepth h.1
    rintro ⟨body, body', -, hdifferent⟩
    rw [guarded_of_le (Nat.not_lt.mp hdepth), guarded_of_le (Nat.not_lt.mp hdepth)] at hdifferent
    exact hdifferent rfl

end Starts

/-! ### Computations that are watched -/

/-- A computation with the contexts that it goes through: started in one context, it visits others,
    and the first and the last of them are those where it starts and where it ends. -/
structure Watched (α : Type) where
  body : Eval α
  visits : Context → Context → Prop
  start : ∀ ctx, visits ctx ctx
  stop : ∀ ctx, visits ctx (body.exit ctx)

namespace Watched

/-- A computation that goes to its end at once. -/
def step (body : Eval α) : Watched α where
  body := body
  visits ctx c := c = ctx ∨ c = body.exit ctx
  start _ := .inl rfl
  stop _ := .inr rfl

/-- One computation after another; the second starts where the first has ended. -/
protected def bind (x : Watched α) (f : α → Watched β) : Watched β where
  body := x.body >>= fun a => (f a).body
  visits ctx c := x.visits ctx c ∨ ∃ a mid, x.body ctx = .ok a mid ∧ (f a).visits mid c
  start ctx := .inl (x.start ctx)
  stop ctx := by
    have hstop := x.stop ctx
    cases h : x.body ctx with
    | ok a mid =>
      refine .inr ⟨a, mid, rfl, ?_⟩
      simp only [Eval.exit, Bind.bind, EStateM.bind, h]
      exact (f a).stop mid
    | error fault mid =>
      simp only [Eval.exit, Bind.bind, EStateM.bind, h] at hstop ⊢
      exact .inl hstop

instance : Monad Watched where
  pure a := step (pure a)
  bind := Watched.bind

/-- A computation around another one: the contexts that the other one goes through are those where it is
    started. -/
def around (whole : Eval α → Eval β) (x : Watched α) : Watched β where
  body := whole x.body
  visits ctx c :=
    c = ctx ∨ (∃ inner, Starts whole ctx inner ∧ x.visits inner c) ∨ c = (whole x.body).exit ctx
  start _ := .inl rfl
  stop _ := .inr (.inr rfl)

end Watched

/-! ### Evaluations that are watched -/

/-- The check of the item at an index. -/
def watchItem (scope : Scope) (rule : SequenceRule) (i : Nat) (item : Value)
    (check : Watched Bool) : Watched Bool :=
  .around (within (.index i)) do
    if ← check then return true else .step (refuse scope (.element rule item))

/-- The check of items, up to the first rejection. -/
def watchItems (scope : Scope) (check : Value → Watched Bool) : Nat → List Value → Watched Bool
  | _, [] => return true
  | i, item :: items => do
    if ← watchItem scope .array i item (check item) then watchItems scope check (i + 1) items
    else return false

/-- The check of a field. -/
def watchField (scope : Scope) (name : Label) (member : Value) (check : Watched Bool) :
    Watched Bool :=
  .around (within (.field name)) do
    if ← check then return true else .step (refuse scope (.field name member))

mutual

/-- The evaluation of a schema on a value.  The call of a test is one step: what is evaluated inside
    of a test has a context of its own. -/
def watch (scope : Scope) (schema : Schema) (v : Value) : Watched Bool :=
  .around (guarded scope) <|
    match schema with
    | .primitive kind => return kind.accepts v
    | .literal _ canonical => return scope.heap.canonical? v == some canonical
    | .shape fields =>
      match scope.heap.mapping? v with
      | none => .step (refuse scope (.noObject v))
      | some m => watchFields scope fields m
    | .array member =>
      match scope.heap.sequence? v with
      | none => .step (refuse scope (.noSequence .array v))
      | some items => watchItems scope (watch scope member) 0 items
    | .tuple members =>
      match scope.heap.sequence? v with
      | none => .step (refuse scope (.noSequence .tuple v))
      | some items =>
        if items.length = members.length then watchPositions scope members 0 items
        else .step (refuse scope (.wrongLength members.length items.length))
    | .union members => do
      let (found, rejections) ←
        .around scratch (.around (mapFault Fault.throughIteration) (watchAny scope members v))
      if found then return true
      else do
        .step (addRejections rejections)
        .step (refuse scope (.noMember members.length v))
    | .intersection members => do
      let verdicts ← watchEach scope members v
      if verdicts.all id then return true else .step (refuse scope (.someMember verdicts v))
    | .taggedUnion tag variants =>
      match scope.heap.mapping? v with
      | none => .step (refuse scope (.noTag tag))
      | some m => do
        if ← .step (Eval.ofExcept (m.has tag.content)) then
          let tagValue ← .step (Eval.ofExcept (m.read tag.content))
          match tagValue.label? with
          | none => .step (refuse scope (.noVariant tag tagValue))
          | some key => watchVariant scope tag variants key m
        else .step (refuse scope (.noTag tag))
    | .predicate test name => .step (checkTest scope name (callTest scope test v))
    | .bare => .step (throw (.typeMismatch "Unknown validator node: Validator"))

/-- The check of the declared fields of a mapping. -/
def watchFields (scope : Scope) (fields : List (Label × Schema)) (m : Mapping) : Watched Bool :=
  match fields with
  | [] => return true
  | (name, rule) :: rest => do
    let member ← .step (Eval.ofExcept (m.readOrUndefined name.content))
    if ← watchField scope name member (watch scope rule member) then watchFields scope rest m
    else return false

/-- The check of each item against the member at its position. -/
def watchPositions (scope : Scope) (members : List Schema) (i : Nat) (items : List Value) :
    Watched Bool :=
  match members, items with
  | member :: members, item :: items => do
    if ← watchItem scope .tuple i item (watch scope member item) then
      watchPositions scope members (i + 1) items
    else return false
  | _, _ => return true

/-- The evaluation of members up to the first that accepts. -/
def watchAny (scope : Scope) (members : List Schema) (v : Value) : Watched Bool :=
  match members with
  | [] => return false
  | member :: rest => do
    if ← watch scope member v then return true else watchAny scope rest v

/-- The evaluation of every member. -/
def watchEach (scope : Scope) (members : List Schema) (v : Value) : Watched (List Bool) :=
  match members with
  | [] => return []
  | member :: rest => do
    let verdict ← watch scope member v
    return verdict :: (← watchEach scope rest v)

/-- The check of the fields of the variant with a given key. -/
def watchVariant (scope : Scope) (tag : Label) (variants : List (Label × List (Label × Schema)))
    (key : Label) (m : Mapping) : Watched Bool :=
  match variants with
  | [] => .step (refuse scope (.noVariant tag key.toValue))
  | (name, fields) :: rest =>
    if name.content = key.content then watchFields scope fields m
    else watchVariant scope tag rest key m

end

/-! ### What is watched is the evaluation -/

/-- What is watched is a given computation, and started within a bound on the depth, it stays
    there. -/
structure Watches (bound : Nat) (x : Watched α) (body : Eval α) : Prop where
  body_eq : x.body = body
  bounded : ∀ ctx c, ctx.depth ≤ bound → x.visits ctx c → c.depth ≤ bound

namespace Watches

variable {bound : Nat} {x : Watched α} {body : Eval α}

/-- A step that leaves the depth as it is. -/
theorem of_exit (h : ∀ ctx, (body.exit ctx).depth = ctx.depth) :
    Watches bound (.step body) body where
  body_eq := rfl
  bounded ctx c hctx hc := by
    rcases hc with rfl | rfl
    · exact hctx
    · rwa [h]

theorem step (h : ∀ d, ∃ o, Yields body d o) : Watches bound (.step body) body := by
  refine of_exit fun ctx => ?_
  obtain ⟨o, ho⟩ := h ctx.depth
  rw [Outcome.exit_eq (ho ctx rfl), Outcome.settle_depth]

theorem pure (a : α) : Watches bound (Pure.pure a) (Pure.pure a) :=
  of_exit fun _ => rfl

theorem refuse (scope : Scope) (cause : Cause) :
    Watches bound (.step (refuse scope cause)) (refuse scope cause) :=
  step fun _ => ⟨_, .refuse scope cause⟩

theorem ofExcept (result : Except Fault α) :
    Watches bound (.step (Eval.ofExcept result)) (Eval.ofExcept result) :=
  step fun _ => ⟨_, .ofExcept result⟩

theorem bind {f : α → Watched β} {f' : α → Eval β} (hx : Watches bound x body)
    (hf : ∀ a, Watches bound (f a) (f' a)) : Watches bound (x >>= f) (body >>= f') where
  body_eq := by
    obtain rfl := hx.body_eq
    obtain rfl : (fun a => (f a).body) = f' := funext fun a => (hf a).body_eq
    rfl
  bounded ctx c hctx hc := by
    rcases hc with hc | ⟨a, mid, hmid, hc⟩
    · exact hx.bounded ctx c hctx hc
    · -- the second part starts in the last context that the first one visits
      have hstop := x.stop ctx
      rw [Eval.exit, hmid] at hstop
      exact (hf a).bounded mid c (hx.bounded ctx mid hctx hstop) hc

/-- A branch on the verdict of the first part. -/
theorem bindIf {x yes no : Watched Bool} {body body₁ body₂ : Eval Bool} (hx : Watches bound x body)
    (hyes : Watches bound yes body₁) (hno : Watches bound no body₂) :
    Watches bound (do if ← x then yes else no) (do if ← body then body₁ else body₂) := by
  apply hx.bind
  intro verdict
  cases verdict with
  | true => exact hyes
  | false => exact hno

/-- A computation around another one, which it starts within the bound, and which leaves it within the
    bound. -/
theorem around {whole : Eval α → Eval β} (hx : Watches bound x body)
    (hstarts : ∀ ctx inner, ctx.depth ≤ bound → Starts whole ctx inner → inner.depth ≤ bound)
    (hexit : ∀ ctx, ctx.depth ≤ bound →
      (∀ inner, inner.depth ≤ bound → (body.exit inner).depth ≤ bound) →
        ((whole body).exit ctx).depth ≤ bound) :
    Watches bound (.around whole x) (whole body) where
  body_eq := congrArg whole hx.body_eq
  bounded ctx c hctx hc := by
    obtain rfl := hx.body_eq
    rcases hc with rfl | ⟨inner, hinner, hc⟩ | rfl
    · exact hctx
    · exact hx.bounded inner c (hstarts ctx inner hctx hinner) hc
    · exact hexit ctx hctx fun inner hinner => hx.bounded inner _ hinner (x.stop inner)

theorem within (hx : Watches bound x body) (segment : Segment) :
    Watches bound (.around (within segment) x) (within segment body) := by
  refine hx.around (fun ctx inner hctx hinner => ?_) fun ctx hctx hbody => ?_
  · obtain rfl := (starts_within_iff segment).mp hinner
    exact hctx
  · have hinner := hbody { ctx with trail := ctx.trail ++ [segment] } hctx
    simp only [Eval.exit, Conform.within, bracket] at hinner ⊢
    cases h : body { ctx with trail := ctx.trail ++ [segment] } <;> simpa only [h] using hinner

theorem scratch (hx : Watches bound x body) :
    Watches bound (.around scratch x) (scratch body) := by
  refine hx.around (fun ctx inner hctx hinner => ?_) fun ctx hctx hbody => ?_
  · obtain rfl := starts_scratch_iff.mp hinner
    exact hctx
  · have hinner := hbody { ctx with rejections := [] } hctx
    simp only [Eval.exit, Conform.scratch] at hinner ⊢
    cases h : body { ctx with rejections := [] } <;> simpa only [h] using hinner

theorem mapFault (hx : Watches bound x body) (change : Fault → Fault) :
    Watches bound (.around (mapFault change) x) (mapFault change body) := by
  refine hx.around (fun ctx inner hctx hinner => ?_) fun ctx hctx hbody => ?_
  · obtain rfl := (starts_mapFault_iff change).mp hinner
    exact hctx
  · have hinner := hbody ctx hctx
    simp only [Eval.exit, Conform.mapFault] at hinner ⊢
    cases h : body ctx <;> simpa only [h] using hinner

/-- Below the bound there is room for one level more; at the bound, the depth does not change. -/
theorem guarded {scope : Scope} {x : Watched Bool} {body : Eval Bool}
    (hx : Watches scope.maxDepth x body) :
    Watches scope.maxDepth (.around (guarded scope) x) (guarded scope body) := by
  refine hx.around (fun ctx inner _ hinner => ?_) fun ctx hctx hbody => ?_
  · obtain ⟨hlt, rfl⟩ := starts_guarded_iff.mp hinner
    exact hlt
  · by_cases hlt : ctx.depth < scope.maxDepth
    · have hinner := hbody { ctx with depth := ctx.depth + 1 } hlt
      simp only [Eval.exit, guarded_of_lt hlt, deeper, bracket] at hinner ⊢
      cases h : body { ctx with depth := ctx.depth + 1 } <;> simp only [h] at hinner ⊢ <;> omega
    · have hrefuse := Yields.guarded_of_le (Nat.not_lt.mp hlt) body ctx rfl
      rw [Outcome.exit_eq hrefuse, Outcome.settle_depth]
      exact hctx

end Watches

section Walks

variable {bound : Nat} (scope : Scope)

theorem watchItem_watches (rule : SequenceRule) (i : Nat) (item : Value) {check : Watched Bool}
    {check' : Eval Bool} (h : Watches bound check check') :
    Watches bound (watchItem scope rule i item check) (checkItem scope rule i item check') :=
  (h.bindIf (.pure true) (.refuse scope _)).within _

theorem watchField_watches (name : Label) (member : Value) {check : Watched Bool}
    {check' : Eval Bool} (h : Watches bound check check') :
    Watches bound (watchField scope name member check) (checkField scope name member check') :=
  (h.bindIf (.pure true) (.refuse scope _)).within _

theorem watchItems_watches {check : Value → Watched Bool} {check' : Value → Eval Bool}
    (h : ∀ w, Watches bound (check w) (check' w)) (i : Nat) (items : List Value) :
    Watches bound (watchItems scope check i items) (checkItems scope check' i items) := by
  induction items generalizing i with
  | nil => exact .pure true
  | cons item rest ih =>
    exact (watchItem_watches scope .array i item (h item)).bindIf (ih (i + 1)) (.pure false)

end Walks

mutual

/-- An evaluation that is watched is the evaluation, and stays within the bound on the depth. -/
theorem watch_watches (scope : Scope) (schema : Schema) (v : Value) :
    Watches scope.maxDepth (watch scope schema v) (evaluate scope schema v) := by
  rw [watch.eq_def, evaluate.eq_def]
  refine .guarded ?_
  cases schema with
  | primitive kind => exact .pure _
  | literal constant canonical => exact .pure _
  | shape fields =>
    cases scope.heap.mapping? v with
    | none => exact .refuse scope _
    | some m => exact watchFields_watches scope fields m
  | array member =>
    cases scope.heap.sequence? v with
    | none => exact .refuse scope _
    | some items => exact watchItems_watches scope (fun w => watch_watches scope member w) 0 items
  | tuple members =>
    cases scope.heap.sequence? v with
    | none => exact .refuse scope _
    | some items =>
      by_cases hlen : items.length = members.length
      · simp only [hlen, if_true]
        exact watchPositions_watches scope members 0 items
      · simp only [hlen, if_false]
        exact .refuse scope _
  | union members =>
    have hany := ((watchAny_watches scope members v).mapFault Fault.throughIteration).scratch
    refine hany.bind fun (found, rejections) => ?_
    cases found with
    | true => exact .pure true
    | false => exact .bind (.of_exit fun _ => rfl) fun _ => .refuse scope _
  | intersection members =>
    refine (watchEach_watches scope members v).bind fun verdicts => ?_
    cases verdicts.all id with
    | true => exact .pure true
    | false => exact .refuse scope _
  | taggedUnion tag variants =>
    cases scope.heap.mapping? v with
    | none => exact .refuse scope _
    | some m =>
      refine .bindIf (.ofExcept _) (.bind (.ofExcept _) fun tagValue => ?_) (.refuse scope _)
      cases tagValue.label? with
      | none => exact .refuse scope _
      | some key => exact watchVariant_watches scope tag variants key m
  | predicate test name =>
    exact .step fun d => ⟨_, (callTest_yields scope test v d).recover (faultOutcome_yields name)⟩
  | bare => exact .step fun _ => ⟨_, .throw _⟩
  termination_by structural schema

theorem watchFields_watches (scope : Scope) (fields : List (Label × Schema)) (m : Mapping) :
    Watches scope.maxDepth (watchFields scope fields m) (evaluateFields scope fields m) := by
  match fields with
  | [] => simpa only [watchFields, evaluateFields] using .pure true
  | (name, rule) :: rest =>
    rw [watchFields, evaluateFields]
    refine .bind (.ofExcept _) fun member => ?_
    exact (watchField_watches scope name member (watch_watches scope rule member)).bindIf
      (watchFields_watches scope rest m) (.pure false)
  termination_by structural fields

theorem watchPositions_watches (scope : Scope) (members : List Schema) (i : Nat)
    (items : List Value) :
    Watches scope.maxDepth (watchPositions scope members i items)
      (evaluatePositions scope members i items) := by
  match members, items with
  | member :: members, item :: items =>
    rw [watchPositions, evaluatePositions]
    exact (watchItem_watches scope .tuple i item (watch_watches scope member item)).bindIf
      (watchPositions_watches scope members (i + 1) items) (.pure false)
  | [], _ => simpa only [watchPositions, evaluatePositions] using .pure true
  | _ :: _, [] => simpa only [watchPositions, evaluatePositions] using .pure true
  termination_by structural members

theorem watchAny_watches (scope : Scope) (members : List Schema) (v : Value) :
    Watches scope.maxDepth (watchAny scope members v) (evaluateAny scope members v) := by
  match members with
  | [] => simpa only [watchAny, evaluateAny] using .pure false
  | member :: rest =>
    rw [watchAny, evaluateAny]
    exact (watch_watches scope member v).bindIf (.pure true) (watchAny_watches scope rest v)
  termination_by structural members

theorem watchEach_watches (scope : Scope) (members : List Schema) (v : Value) :
    Watches scope.maxDepth (watchEach scope members v) (evaluateEach scope members v) := by
  match members with
  | [] => simpa only [watchEach, evaluateEach] using .pure []
  | member :: rest =>
    rw [watchEach, evaluateEach]
    refine (watch_watches scope member v).bind fun verdict => ?_
    exact (watchEach_watches scope rest v).bind fun verdicts => .pure _
  termination_by structural members

theorem watchVariant_watches (scope : Scope) (tag : Label)
    (variants : List (Label × List (Label × Schema))) (key : Label) (m : Mapping) :
    Watches scope.maxDepth (watchVariant scope tag variants key m)
      (evaluateVariant scope tag variants key m) := by
  match variants with
  | [] => simpa only [watchVariant, evaluateVariant] using .refuse scope _
  | (name, fields) :: rest =>
    rw [watchVariant, evaluateVariant]
    by_cases hname : name.content = key.content
    · rw [if_pos hname, if_pos hname]
      exact watchFields_watches scope fields m
    · rw [if_neg hname, if_neg hname]
      exact watchVariant_watches scope tag rest key m
  termination_by structural variants

end

/-! ### The discipline -/

/-- Whatever the node, the value and the context are, an evaluation leaves the depth and the trail
    as they were, with a verdict and with a fault.  The list of rejections has only grown at its
    end, by rejections at or below the place where the evaluation started, and not at all if the
    value is accepted.  Started within the bound on the depth, the evaluation goes through no
    context beyond it. -/
theorem evaluate_keeps_context (scope : Scope) (schema : Schema) (v : Value) (ctx : Context) :
    (∃ added calls,
      (evaluate scope schema v).exit ctx =
        { ctx with rejections := ctx.rejections ++ added, calls := ctx.calls ++ calls } ∧
      (∀ rejection ∈ added, ctx.trail <+: rejection.trail) ∧
      ∀ after, evaluate scope schema v ctx = .ok true after → added = []) ∧
    (watch scope schema v).body = evaluate scope schema v ∧
    (ctx.depth ≤ scope.maxDepth →
      ∀ c, (watch scope schema v).visits ctx c → c.depth ≤ scope.maxDepth) := by
  have hwatches := watch_watches scope schema v
  refine ⟨?_, hwatches.body_eq, fun hctx c hc => hwatches.bounded ctx c hctx hc⟩
  let o := schema.outcome scope (scope.maxDepth - ctx.depth) v
  have honto : evaluate scope schema v ctx = o.onto ctx :=
    evaluate_yields scope schema v ctx.depth ctx rfl
  refine ⟨o.rejections.map (Rejection.below ctx.trail), o.calls, Outcome.exit_eq honto, ?_, ?_⟩
  · intro rejection hr
    obtain ⟨inner, -, rfl⟩ := List.mem_map.mp hr
    exact List.prefix_append _ _
  · intro after htrue
    rw [honto] at htrue
    rw [schema.outcome_clean scope _ v (Outcome.result_of_onto htrue), List.map_nil]

/-- A look-up raises a fatal fault inside of a union that is a member of a union, when another
    member has left a rejection already. -/
theorem evaluate_keeps_context_of_refusal :
    let fault : Fault := ⟨.fatal "KeyboardInterrupt", none⟩
    let cell := Cell.guarded [(.str "n", .int 1)] ⟨[.str "n"], .read, fault⟩
    let scope : Scope := ⟨⟨#[cell]⟩, 4, 16, true⟩
    let schema := Schema.union
      [.union [.array (.primitive .null), .shape [(.plain "n", .primitive .number)]]]
    let ctx : Context := ⟨1, [.field (.plain "a")], [⟨[], .noMatch, "before"⟩], []⟩
    evaluate scope schema (.ref 0) ctx = .error fault ctx ∧
      (watch scope schema (.ref 0)).visits ctx { ctx with depth := 2 } ∧ ctx.depth ≤ 4 ∧
      ∀ c, (watch scope schema (.ref 0)).visits ctx c → c.depth ≤ 4 := by
  intro fault cell scope schema ctx
  obtain ⟨-, -, hbounded⟩ := evaluate_keeps_context scope schema (.ref 0) ctx
  have hstarts : Starts (guarded scope) ctx { ctx with depth := 2 } :=
    starts_guarded_iff.mpr ⟨by decide, rfl⟩
  refine ⟨rfl, ?_, by decide, hbounded (by decide)⟩
  rw [watch.eq_def]
  exact .inr (.inl ⟨_, hstarts, Watched.start _ _⟩)

end Conform
