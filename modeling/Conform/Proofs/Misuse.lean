import Conform.Proofs.Dispatch

namespace Conform

/-!
# Misuse of the combinators

A combinator that is given what it has no use for ends in a misuse, in which the offending value is shown.
The display of a value can fail, and then the construction ends in that fault instead, which is of another
class.

* `Heap.DisplayFault`, `Heap.displayFault_of_display` — the faults that a display can end in, and no
  others;
* `Heap.objection` — the problem of a value in a place where it is not taken;
* `Build.ComesTo`, `Build.EntryAt`, `Build.ItemAt` — a walk comes to an entry or an item when everything
  in front of it has been taken;
* `Build.ChildAt`, `Build.TagAt` — the places where a child, or the literal of a tag, is looked at;
* `Build.Refuses` — a construction refuses a value by a misuse of a class, if it can be shown;
* `misuse_refused_by_class` — what is refused, and by which class.
-/

variable {α β ι : Type}

/-! ### What cannot be shown -/

/-- The faults of a display: nesting that is too deep, an integer with too many digits, and whatever an
    object raises that refuses to be shown. -/
inductive Heap.DisplayFault (heap : Heap) : Fault → Prop where
  | tooDeep : DisplayFault heap .tooDeep
  | tooManyDigits : DisplayFault heap .tooManyDigits
  | refused {a : Addr} {className : String} {refusal : Refusal} {truth : Except Refusal Bool}
    (h : heap.cell a = .foreign className (.error refusal) truth) : DisplayFault heap refusal

/-- A text that is there, or one of the faults of a display. -/
def Displays (heap : Heap) (x : Except Fault α) : Prop :=
  ∀ fault, x = .error fault → heap.DisplayFault fault

namespace Displays

variable {heap : Heap}

theorem pure (a : α) : Displays heap (Pure.pure a : Except Fault α) := nofun

theorem bind {x : Except Fault α} {f : α → Except Fault β} (hx : Displays heap x)
    (hf : ∀ a, Displays heap (f a)) : Displays heap (x >>= f) := by
  intro fault hfault
  cases x with
  | ok a => exact hf a fault hfault
  | error raised =>
    obtain rfl : raised = fault := Except.error.inj hfault
    exact hx raised rfl

theorem mapM {f : ι → Except Fault α} {l : List ι} (h : ∀ i, Displays heap (f i)) :
    Displays heap (l.mapM f) := by
  induction l with
  | nil => exact .pure []
  | cons i rest ih =>
    rw [List.mapM_cons]
    exact (h i).bind fun a => ih.bind fun results => .pure (a :: results)

end Displays

namespace Heap

variable {heap : Heap} {v : Value}

section Cells

variable {inner : Value → Except Fault Text} (hinner : ∀ w, Displays heap (inner w))
include hinner

theorem displayEntries_displays (entries : List (Value × Value)) :
    Displays heap (displayEntries inner entries) :=
  (Displays.mapM fun _ => (hinner _).bind fun _ => (hinner _).bind fun _ => .pure _).bind
    fun _ => .pure _

/-- An object is shown if its parts are, unless it refuses that itself. -/
theorem displayCell_displays (a : Addr) : Displays heap (displayCell inner (heap.cell a)) := by
  -- most cells are shown by way of all their items
  have hitems (items : List Value) (f : List Text → Text) :
      Displays heap (do return f (← items.mapM inner)) :=
    (Displays.mapM hinner).bind fun _ => .pure _
  cases hcell : heap.cell a with
  | list items => exact hitems items _
  | tuple items =>
    rcases items with _ | ⟨item, _ | ⟨next, rest⟩⟩
    · exact hitems [] _
    · exact (hinner item).bind fun _ => .pure _
    · exact hitems (item :: next :: rest) _
  | set items | frozenSet items =>
    cases items with
    | nil => exact .pure _
    | cons item rest => exact hitems (item :: rest) _
  | dict entries => exact displayEntries_displays hinner entries
  | view entries => exact (displayEntries_displays hinner entries).bind fun _ => .pure _
  | orderedDict entries =>
    cases entries with
    | nil => exact .pure _
    | cons first rest =>
      refine (Displays.mapM fun entry => ?_).bind fun _ => .pure _
      exact (hinner entry.1).bind fun _ => (hinner entry.2).bind fun _ => .pure _
  | options logFailures sink =>
    exact (hinner _).bind fun _ => (hinner sink).bind fun _ => .pure _
  | validator portrait =>
    refine (Displays.mapM fun (name, content) => ?_).bind fun _ => .pure _
    cases content with
    | text s => exact .pure _
    | value w => exact (hinner w).bind fun _ => .pure _
  | foreign className shown truth =>
    cases shown with
    | ok text => exact .pure text
    | error refusal =>
      intro fault hfault
      obtain rfl := Except.error.inj hfault
      exact .refused hcell
  | guarded _ _ | stream _ | function _ | sink _ => exact .pure _

end Cells

/-- No other fault comes from the display of a value. -/
theorem displayWithin_displays (fuel : Nat) (enclosing : List Addr) (v : Value) :
    Displays heap (heap.displayWithin fuel enclosing v) := by
  induction fuel generalizing enclosing v with
  | zero =>
    intro fault hfault
    obtain rfl := Except.error.inj hfault
    exact .tooDeep
  | succ fuel ih =>
    cases v with
    | int n =>
      intro fault hfault
      rw [displayWithin, integerText] at hfault
      split at hfault
      · cases hfault
      · obtain rfl := Except.error.inj hfault
        exact .tooManyDigits
    -- only an object has something to show inside, and only once on the way down
    | ref a =>
      rw [displayWithin]
      split
      · exact .pure _
      · exact displayCell_displays (ih (a :: enclosing)) a
    | _ => exact .pure _

/-- A value that cannot be shown is nested too deeply, or holds an integer with too many digits, or an
    object that refuses to be shown. -/
theorem displayFault_of_display {fault : Fault} (h : heap.display v = .error fault) :
    heap.DisplayFault fault :=
  displayWithin_displays nestingLimit [] v fault h

/-- The problem of a value in a place where it is not taken: a misuse in which the value is shown, or the
    fault of showing it. -/
def objection (heap : Heap) (v : Value) (misuse : Text → Misuse) : Problem :=
  match heap.display v with
  | .ok shown => .misuse (misuse shown)
  | .error fault => .fault fault

/-- A value is no constant: it can be called, or has no canonical form. -/
def NotConstant (heap : Heap) (c : Value) : Prop :=
  heap.isCallable c = true ∨ heap.canonical? c = none

/-- The misuse of a value that is no constant. -/
def constantMisuse (heap : Heap) (c : Value) : Text → Misuse :=
  if heap.isCallable c then .constant else .unserialisable

end Heap

namespace Build

variable {s t u : Store} {problem : Problem}

/-! ### Refusals -/

/-- A misuse in which a value is to be shown is an objection to the value. -/
theorem objection_of_refuse (v : Value) (misuse : Text → Misuse) {f : Text → Build α}
    (hf : ∀ shown, f shown s = .error (.misuse (misuse shown)) s) :
    (display v >>= f) s = .error (s.heap.objection v misuse) s := by
  have hdisplay : display v s = ofExcept ((s.heap.display v).mapError .fault) s := rfl
  rw [Heap.objection]
  cases hshown : s.heap.display v with
  | ok shown =>
    rw [hshown] at hdisplay
    rw [bind_of_ok (a := shown) (t := s) hdisplay]
    exact hf shown
  | error fault =>
    have hfault : display v s = .error (.fault fault) s := by rw [hdisplay, hshown]; rfl
    exact bind_of_error hfault f

/-- What is neither a validator nor a function is no child. -/
theorem child_of_neither {x : Value} (hschema : s.schemaOf? x = none) (htest : s.testOf? x = none)
    (place : Text) : child place x s = .error (s.heap.objection x (.child place)) s := by
  rw [child, bind_of_ok (get_eq s), hschema, htest]
  exact objection_of_refuse x (.child place) fun _ => rfl

theorem literal_of_notConstant {c : Value} (h : s.heap.NotConstant c) :
    literal c s = .error (s.heap.objection c (s.heap.constantMisuse c)) s := by
  rw [literal, bind_of_ok (get_eq s), Heap.constantMisuse]
  by_cases hcallable : s.heap.isCallable c = true
  · simp only [hcallable, if_true]
    exact objection_of_refuse c .constant fun _ => rfl
  · have hnone : s.heap.canonical? c = none := h.resolve_left hcallable
    simp only [hcallable, hnone]
    exact objection_of_refuse c .unserialisable fun _ => rfl

/-! ### Walks -/

/-- A walk in which every turn is taken by a construction, comes to the turn of `i`: those in front of it
    have been taken. -/
def ComesTo (visit : ι → Build α) (l : List ι) (s : Store) (i : ι) (t : Store) : Prop :=
  ∃ before after results, l = before ++ i :: after ∧ before.mapM visit s = .ok results t

/-- It ends there, if that turn ends in a problem. -/
theorem ComesTo.mapM_eq_error {visit : ι → Build α} {l : List ι} {i : ι} (h : ComesTo visit l s i t)
    (hi : visit i t = .error problem u) : l.mapM visit s = .error problem u := by
  obtain ⟨before, after, results, rfl, hbefore⟩ := h
  rw [List.mapM_append, bind_of_ok hbefore, List.mapM_cons]
  exact bind_of_error (bind_of_error hi _) _

/-- The turn of an entry: its value is read, and then a step taken. -/
def visitEntry (m : Mapping) (step : Value → Value → Build α) (entry : Value × Value) : Build α := do
  match (← get).heap.readFault? m entry.1 with
  | some fault => throw (.fault fault.throughIteration)
  | none => step entry.1 entry.2

theorem forEntries_eq (m : Mapping) (step : Value → Value → Build α) :
    forEntries m step = m.entries.mapM (visitEntry m step) := rfl

/-- A walk through the entries of a mapping comes to one of them, which may be read. -/
structure EntryAt (m : Mapping) (step : Value → Value → Build α) (s : Store) (key x : Value)
    (t : Store) : Prop where
  comes : ComesTo (visitEntry m step) m.entries s (key, x) t
  readable : t.heap.readFault? m key = none

theorem EntryAt.forEntries_eq_error {m : Mapping} {step : Value → Value → Build α} {key x : Value}
    (h : EntryAt m step s key x t) (hstep : step key x t = .error problem u) :
    forEntries m step s = .error problem u := by
  rw [forEntries_eq]
  refine h.comes.mapM_eq_error ?_
  rw [visitEntry, bind_of_ok (get_eq t)]
  simp only [h.readable]
  exact hstep

/-- A turn in a walk through items: the place of the item, the item, and those behind it. -/
structure Turn where
  index : Nat
  item : Value
  rest : List Value

/-- The turns of items, from a place on. -/
def turns : Nat → List Value → List Turn
  | _, [] => []
  | i, item :: rest => ⟨i, item, rest⟩ :: turns (i + 1) rest

/-- The turn of an item: it is taken away from those behind it, and then a step taken. -/
def visitItem (take : List Value → Build Unit) (step : Nat → Value → Build α) (turn : Turn) :
    Build α := do
  take turn.rest
  step turn.index turn.item

theorem forItems_eq (step : Nat → Value → Build α) (i : Nat) (items : List Value) :
    forItems step i items = (turns i items).mapM (visitItem (fun _ => pure ()) step) := by
  induction items generalizing i with
  | nil => rfl
  | cons item rest ih =>
    rw [forItems, turns, List.mapM_cons, ih]
    rfl

theorem forStream_eq (a : Addr) (step : Nat → Value → Build α) (i : Nat) (items : List Value) :
    forStream a step i items =
      (turns i items).mapM (visitItem (fun rest => replace a (.stream rest)) step) := by
  induction items generalizing i with
  | nil => rfl
  | cons item rest ih =>
    rw [forStream, turns, List.mapM_cons, ih]
    simp only [visitItem, bind_assoc]

end Build

/-- The items of a value that can be walked through once, and the store in which they are there: options
    are laid out as pairs. -/
def Store.laidOut? (s : Store) (v : Value) : Option (List Value × Store) :=
  match s.heap.cellOf? v with
  | some (.list items) | some (.tuple items) | some (.set items) | some (.frozenSet items)
  | some (.stream items) => some (items, s)
  | some (.options logFailures sink) =>
    let log := s.heap.push (.tuple [.str "log_failures", .bool logFailures])
    some ([.ref s.heap.next, .ref log.next],
      { s with heap := log.push (.tuple [.str "sink", sink]) })
  | _ => none

namespace Build

variable {s t u : Store} {problem : Problem}

/-- What is done in front of the turn of an item: it is taken from a stream; other objects keep their
    items. -/
def withdraw (heap : Heap) (v : Value) (rest : List Value) : Build Unit :=
  match v, heap.cellOf? v with
  | .ref a, some (.stream _) => replace a (.stream rest)
  | _, _ => pure ()

theorem withdraw_of_stream {heap : Heap} {a : Addr} {items : List Value}
    (h : heap.cell a = .stream items) :
    withdraw heap (.ref a) = fun rest => replace a (.stream rest) := by
  funext rest
  simp only [withdraw, Heap.cellOf?, Value.addr?, Option.map_some, h]

theorem withdraw_of_kept {heap : Heap} {a : Addr} (h : ∀ items, heap.cell a ≠ .stream items) :
    withdraw heap (.ref a) = fun _ => pure () := by
  funext rest
  simp only [withdraw, Heap.cellOf?, Value.addr?, Option.map_some]
  cases hcell : heap.cell a with
  | stream items => exact absurd hcell (h items)
  | _ => rfl

/-- A walk through the items of a value comes to one of them, in the store `t` when its turn has come. -/
def ItemAt (v : Value) (step : Nat → Value → Build α) (s : Store) (i : Nat) (x : Value) (t : Store) :
    Prop :=
  ∃ items laid rest u, s.laidOut? v = some (items, laid) ∧
    ComesTo (visitItem (withdraw s.heap v) step) (turns 0 items) laid ⟨i, x, rest⟩ u ∧
    withdraw s.heap v rest u = .ok () t

/-- A walk through items goes on turn by turn. -/
theorem forEach_eq {v : Value} {items : List Value} {laid : Store}
    (h : s.laidOut? v = some (items, laid)) (step : Nat → Value → Build α) :
    forEach v step s = (turns 0 items).mapM (visitItem (withdraw s.heap v) step) laid := by
  cases v with
  | ref a =>
    rw [forEach, bind_of_ok (get_eq s)]
    simp only [Store.laidOut?, Heap.cellOf?, Value.addr?, Option.map_some] at h ⊢
    -- a stream is used up on the way, all other items are laid out before
    cases hcell : s.heap.cell a <;> rw [hcell] at h
    case list | tuple | set | frozenSet =>
      obtain ⟨rfl, rfl⟩ := Prod.mk.inj (Option.some.inj h)
      rw [withdraw_of_kept (by simp [hcell]), ← forItems_eq]
    case options =>
      obtain ⟨rfl, rfl⟩ := Prod.mk.inj (Option.some.inj h)
      rw [withdraw_of_kept (by simp [hcell]), ← forItems_eq]
      rfl
    case stream =>
      obtain ⟨rfl, rfl⟩ := Prod.mk.inj (Option.some.inj h)
      rw [withdraw_of_stream hcell, ← forStream_eq]
    all_goals cases h
  | _ => cases h

theorem ItemAt.forEach_eq_error {v x : Value} {step : Nat → Value → Build α} {i : Nat}
    (h : ItemAt v step s i x t) (hstep : step i x t = .error problem u) :
    forEach v step s = .error problem u := by
  obtain ⟨items, laid, rest, w, hlaid, hcomes, htake⟩ := h
  rw [forEach_eq hlaid]
  refine hcomes.mapM_eq_error ?_
  rw [visitItem, bind_of_ok htake]
  exact hstep

/-! ### Children -/

/-- What is made of a field of a shape. -/
def fieldRule (key value : Value) : Build (Label × Value × Schema) := do
  match key.label? with
  | none => refuse (.fieldName "shape" (← display key))
  | some name =>
    let (made, schema) ← child ("shape field '" ++ name.inline ++ "'") value
    return (name, made, schema)

/-- What is made of an entry of a mapping of variants. -/
def variantRule (tag : Label) (key definition : Value) :
    Build (Label × Value × List (Label × Schema)) := do
  match key.label? with
  | none => refuse (.variantKey (← display key))
  | some key => variant tag key definition

/-- A construction comes to a value as a child, in the store `t`, with everything in front of it taken.
    The place is where the child stands. -/
inductive ChildAt : Build Value → Store → Text → Value → Store → Prop where
  | array {s : Store} {x : Value} : ChildAt (array x) s "array member" x s
  | shape {s t : Store} {fields key x : Value} {m : Mapping} {name : Label}
    (hm : s.heap.mapping? fields = some m) (hfield : EntryAt m fieldRule s key x t)
    (hname : key.label? = some name) :
    ChildAt (shape fields) s ("shape field '" ++ name.inline ++ "'") x t
  | tuple {s t : Store} {v x : Value} {i : Nat} (hordered : isOrdered s.heap v = true)
    (hmember : ItemAt v (member "tuple") s i x t) :
    ChildAt (tuple v) s ("tuple member " ++ toString i) x t
  | union {s t : Store} {v x : Value} {i : Nat} (hmember : ItemAt v (member "union") s i x t) :
    ChildAt (unionMany v) s ("union member " ++ toString i) x t
  | intersection {s t : Store} {v x : Value} {i : Nat}
    (hmember : ItemAt v (member "intersection") s i x t) :
    ChildAt (intersectMany v) s ("intersection member " ++ toString i) x t
  | variant {s t u : Store} {tag variants key definition name x : Value} {tagName keyName fieldName : Label}
    {m fields : Mapping} (htag : tag.label? = some tagName) (hm : s.heap.mapping? variants = some m)
    (hvariant : EntryAt m (variantRule tagName) s key definition t) (hkey : key.label? = some keyName)
    (hnew : ∀ declared, t.schemaOf? definition ≠ some (.shape declared))
    (hfields : t.heap.mapping? definition = some fields)
    (hfield : EntryAt fields fieldRule t name x u) (hname : name.label? = some fieldName) :
    ChildAt (taggedUnion tag variants) s ("shape field '" ++ fieldName.inline ++ "'") x u

/-- A tagged union comes to a variant of which the tag field is a literal with another canonical form
    than the key. -/
inductive TagAt : Value → Value → Store → Label → Label → Value → Store → Prop where
  | variant {s t u : Store} {tag variants key definition made constant : Value}
    {tagName keyName : Label} {m : Mapping} {fields : List (Label × Schema)} {field : Label}
    {canonical : Text} (htag : tag.label? = some tagName) (hm : s.heap.mapping? variants = some m)
    (hvariant : EntryAt m (variantRule tagName) s key definition t) (hkey : key.label? = some keyName)
    (hshape : variantShape definition t = .ok (made, fields) u)
    (hfind : (fields.find? fun field => field.1.content == tagName.content) =
      some (field, .literal constant canonical))
    (hother : u.heap.canonical? keyName.toValue ≠ some canonical) :
    TagAt tag variants s keyName tagName constant u

/-! ### The way to a child -/

theorem fieldRules_eq {fields : Value} {m : Mapping} (hm : s.heap.mapping? fields = some m) :
    fieldRules "shape" fields s = forEntries m fieldRule s := by
  rw [fieldRules, bind_of_ok (get_eq s), hm]
  rfl

theorem fieldRule_of_error {key x : Value} {name : Label} (hname : key.label? = some name)
    (h : child ("shape field '" ++ name.inline ++ "'") x s = .error problem t) :
    fieldRule key x s = .error problem t := by
  rw [fieldRule, hname]
  exact bind_of_error h _

/-- A problem with a field is the end of the shape. -/
theorem shapeWithFields_of_error {fields key x : Value} {m : Mapping} {name : Label}
    (hm : s.heap.mapping? fields = some m) (hfield : EntryAt m fieldRule s key x t)
    (hname : key.label? = some name)
    (h : child ("shape field '" ++ name.inline ++ "'") x t = .error problem u) :
    shapeWithFields fields s = .error problem u := by
  have hrules : fieldRules "shape" fields s = .error problem u := by
    rw [fieldRules_eq hm]
    exact hfield.forEntries_eq_error (fieldRule_of_error hname h)
  exact bind_of_error hrules _

/-- What is no shape, makes a new one. -/
theorem variantShape_of_new {definition : Value}
    (h : ∀ declared, s.schemaOf? definition ≠ some (.shape declared)) :
    variantShape definition s = shapeWithFields definition s := by
  rw [variantShape, bind_of_ok (get_eq s)]
  cases hschema : s.schemaOf? definition with
  | none => rfl
  | some schema =>
    cases schema with
    | shape declared => exact absurd hschema (h declared)
    | _ => rfl

/-- A problem with a variant is the end of the tagged union. -/
theorem taggedUnion_of_error {tag variants key definition : Value} {tagName keyName : Label}
    {m : Mapping} (htag : tag.label? = some tagName) (hm : s.heap.mapping? variants = some m)
    (hvariant : EntryAt m (variantRule tagName) s key definition t) (hkey : key.label? = some keyName)
    (h : variant tagName keyName definition t = .error problem u) :
    taggedUnion tag variants s = .error problem u := by
  have hrule : variantRule tagName key definition t = .error problem u := by
    rw [variantRule, hkey]
    exact h
  have hrules : forEntries m (variantRule tagName) s = .error problem u :=
    hvariant.forEntries_eq_error hrule
  rw [taggedUnion, bind_of_ok (get_eq s), htag, hm]
  exact bind_of_error hrules _

/-- What can be walked through is no list of members to refuse. -/
theorem refusesMembers_of_laidOut {v : Value} {laid : List Value × Store}
    (h : s.laidOut? v = some laid) : refusesMembers s.heap v = false := by
  cases v with
  | ref a =>
    simp only [Store.laidOut?, refusesMembers, Heap.cellOf?, Value.addr?, Option.map_some] at h ⊢
    cases hcell : s.heap.cell a <;> rw [hcell] at h <;> first | rfl | cases h
  | _ => cases h

/-- A problem with a member is the end of the combinator. -/
theorem members_of_error {owner : String} {v x : Value} {i : Nat}
    (hmember : ItemAt v (member owner) s i x t) (h : member owner i x t = .error problem u) :
    members owner v s = .error problem u := by
  have hallowed : refusesMembers s.heap v = false := by
    obtain ⟨items, laid, -, -, hlaid, -⟩ := hmember
    exact refusesMembers_of_laidOut hlaid
  rw [members, bind_of_ok (get_eq s)]
  simp only [hallowed, Bool.false_eq_true, if_false]
  exact hmember.forEach_eq_error h

/-- What is neither a validator nor a function is the end of a construction that comes to it as a child.
    The problem passes through an iteration if there is one. -/
theorem ChildAt.eq_error {body : Build Value} {place : Text} {x : Value}
    (h : ChildAt body s place x t) (hschema : t.schemaOf? x = none) (htest : t.testOf? x = none) :
    body s = .error (t.heap.objection x (.child place)) t ∨
      body s = .error (t.heap.objection x (.child place)).throughIteration t := by
  have hchild (place : Text) := child_of_neither hschema htest place
  -- the members of a sequence are made by an iteration, which changes what it lets out
  have hmember (owner : String) (i : Nat) : member owner i x t =
      .error (t.heap.objection x (.child (owner ++ " member " ++ toString i))).throughIteration t := by
    rw [member, EStateM.adaptExcept, hchild]
  cases h with
  | array => exact .inl (bind_of_error (hchild _) _)
  | shape hm hfield hname =>
    refine .inl ?_
    exact bind_of_error (shapeWithFields_of_error hm hfield hname (hchild _)) _
  | tuple hordered hat =>
    refine .inr ?_
    rw [Build.tuple, bind_of_ok (get_eq _)]
    simp only [hordered, Bool.not_true, Bool.false_eq_true, if_false]
    exact bind_of_error (members_of_error hat (hmember _ _)) _
  | union hat => exact .inr (bind_of_error (members_of_error hat (hmember _ _)) _)
  | intersection hat => exact .inr (bind_of_error (members_of_error hat (hmember _ _)) _)
  | variant htag hm hvariant hkey hnew hfields hfield hname =>
    refine .inl (taggedUnion_of_error htag hm hvariant hkey (bind_of_error ?_ _))
    rw [variantShape_of_new hnew]
    exact shapeWithFields_of_error hfields hfield hname (hchild _)

/-! ### The way to a constant -/

/-- A problem with a constant is the end of the literals. -/
theorem literals_of_error {constants c : Value} {i : Nat}
    (hallowed : refusesConstants s constants = false)
    (hconstant : ItemAt constants (fun _ => literal) s i c t) (h : literal c t = .error problem u) :
    literals constants s = .error problem u := by
  have hnodes : forEach constants (fun _ => literal) s = .error problem u :=
    hconstant.forEach_eq_error h
  rw [literals, bind_of_ok (get_eq s)]
  simp only [hallowed, Bool.false_eq_true, if_false]
  exact bind_of_error hnodes _

/-- A literal of another constant does not have the canonical form of a key, unless there are surrogates
    that look like a pair. -/
theorem IsLiteralOf.canonical?_ne {constant : Value} {canonical : Text} {key : Label}
    (hliteral : IsLiteralOf constant (.literal constant canonical)) (hconstant : constant.Unpaired)
    (hkey : key.content.Unpaired) (hother : constant.text? ≠ some key.content) (heap : Heap) :
    heap.canonical? key.toValue ≠ some canonical := by
  obtain ⟨heap', canonical', hcanonical, hsame⟩ := hliteral
  obtain ⟨-, rfl⟩ := Schema.literal.inj hsame
  intro hform
  obtain ⟨text, htext, hunits⟩ := (Label.canonical?_eq_iff hform).mp hcanonical
  exact hother (by rw [htext, hunits.eq (hconstant text htext) hkey])

theorem TagAt.eq_error {tag variants constant : Value} {key tagName : Label}
    (h : TagAt tag variants s key tagName constant t) :
    taggedUnion tag variants s =
      .error (t.heap.objection constant (.variantTag key.inline tagName.inline)) t := by
  obtain ⟨htag, hm, hvariant, hkey, hshape, hfind, hother⟩ := h
  refine taggedUnion_of_error htag hm hvariant hkey ?_
  rw [Build.variant, bind_of_ok hshape]
  refine bind_of_error ?_ _
  rw [checkTagField, hfind]
  dsimp only
  rw [bind_of_ok (get_eq t), if_pos (by simpa using hother)]
  exact objection_of_refuse constant _ fun _ => rfl

/-! ### Refusals by class -/

/-- A construction refuses a value by a misuse of a class, in which the value is shown.  Where it cannot be
    shown, the construction ends in the fault of showing it instead; a signalled end may be replaced by an
    iteration. -/
structure Refuses (body : Build Value) (s : Store) (className : String) (misuse : Text → Misuse)
    (x : Value) (t : Store) : Prop where
  shown : ∀ text, t.heap.display x = .ok text →
    body s = .error (.misuse (misuse text)) t ∧ (misuse text).className = className
  unshown : ∀ fault, t.heap.display x = .error fault →
    body s = .error (.fault fault) t ∨
      fault.kind = .endOfIteration ∧ body s = .error (.fault .brokenIteration) t

theorem refuses_of_objection {body : Build Value} {className : String} {misuse : Text → Misuse}
    {x : Value} (h : body s = .error (t.heap.objection x misuse) t ∨
      body s = .error (t.heap.objection x misuse).throughIteration t)
    (hclass : ∀ text, (misuse text).className = className) : Refuses body s className misuse x t where
  shown text htext := by
    rw [Heap.objection, htext] at h
    exact ⟨h.elim id id, hclass text⟩
  unshown fault hfault := by
    rw [Heap.objection, hfault] at h
    rw [Problem.throughIteration, Fault.throughIteration] at h
    by_cases hend : fault.kind = .endOfIteration
    · rw [if_pos hend] at h
      exact h.imp_right fun h => ⟨hend, h⟩
    · rw [if_neg hend] at h
      exact .inl (h.elim id id)

end Build

open Build

/-- Whatever is neither a validator nor a function is refused as a child of a shape, an array, a tuple, a
    union, an intersection or a field of a new variant, at every position to which the construction comes;
    whatever can be called or has no canonical form is refused as a constant, on its own and among others;
    and so is a variant whose tag field is a literal with another canonical form than the key, as a literal
    of another constant has it, if there are no surrogates that look like a pair.

    Each is refused by a misuse of one class: a wrong type for children and constants, a wrong value for
    variants.  But the misuse shows what it is about: for a value that cannot be shown, the construction ends
    in the fault of showing it.  This is about nesting or digits, or it is raised by an object. -/
theorem misuse_refused_by_class (s : Store) :
    (∀ body place x t, ChildAt body s place x t → t.schemaOf? x = none → t.testOf? x = none →
      Refuses body s "TypeError" (.child place) x t) ∧
    (∀ c, s.heap.NotConstant c →
      Refuses (literal c) s "TypeError" (s.heap.constantMisuse c) c s) ∧
    (∀ constants i c t, refusesConstants s constants = false →
      ItemAt constants (fun _ => literal) s i c t → t.heap.NotConstant c →
        Refuses (literals constants) s "TypeError" (t.heap.constantMisuse c) c t) ∧
    (∀ tag variants key tagName constant t, TagAt tag variants s key tagName constant t →
      Refuses (taggedUnion tag variants) s "ValueError" (.variantTag key.inline tagName.inline) constant
        t) ∧
    (∀ constant canonical (key : Label), IsLiteralOf constant (.literal constant canonical) →
      constant.Unpaired → key.content.Unpaired → constant.text? ≠ some key.content →
        ∀ heap : Heap, heap.canonical? key.toValue ≠ some canonical) ∧
    ∀ (heap : Heap) v fault, heap.display v = .error fault → heap.DisplayFault fault := by
  have hconstant (heap : Heap) (c : Value) (text : Text) :
      (heap.constantMisuse c text).className = "TypeError" := by
    rw [Heap.constantMisuse]
    split <;> rfl
  refine ⟨fun body place x t h hschema htest => ?_, fun c h => ?_,
    fun constants i c t hallowed hitem h => ?_, fun tag variants key tagName constant t h => ?_,
    fun constant canonical key h hconstant hkey hother => h.canonical?_ne hconstant hkey hother,
    fun heap v fault => Heap.displayFault_of_display⟩
  · exact refuses_of_objection (h.eq_error hschema htest) fun _ => rfl
  · exact refuses_of_objection (.inl (literal_of_notConstant h)) (hconstant s.heap c)
  · exact refuses_of_objection (.inl (literals_of_error hallowed hitem (literal_of_notConstant h)))
      (hconstant t.heap c)
  · exact refuses_of_objection (.inl h.eq_error) fun _ => rfl

/-- A stream of a validator and of a list that contains itself is refused as the members of a union, with
    the list shown; a constant that refuses to be shown is not shown, and is refused by that fault; a shape
    of which the kind is "b" is refused as the variant "a". -/
theorem misuse_refused_by_class_of_cycle :
    let shape : Schema := .shape [(.plain "kind", .literal (.str "b") "\"b\"")]
    let refusal : Refusal := ⟨.badValue "no repr", rfl⟩
    let s : Store :=
      ⟨⟨#[.stream [.ref 1, .ref 2], .validator ⟨shape.className, []⟩, .list [.ref 2],
          .foreign "Odd" (.error refusal) (.ok true), .tuple [.ref 3], .dict [(.str "a", .ref 1)]]⟩,
        [(1, shape)], []⟩
    (∃ t, unionMany (.ref 0) s = .error (.misuse (.child "union member 1" "[[...]]")) t) ∧
      literals (.ref 4) s = .error (.fault (.badValue "no repr")) s ∧
      taggedUnion (.str "kind") (.ref 5) s = .error (.misuse (.variantTag "a" "kind" "'b'")) s := by
  intro shape refusal s
  obtain ⟨hchild, -, hconstant, htag, -⟩ := misuse_refused_by_class s
  -- both items have been taken from the stream when the turn of the second one has come
  let t : Store := { s with heap := (s.heap.set 0 (.stream [.ref 2])).set 0 (.stream []) }
  have hmember : ItemAt (.ref 0) (member "union") s 1 (.ref 2) t :=
    ⟨_, _, [], _, rfl, ⟨[⟨0, .ref 1, [.ref 2]⟩], [], _, rfl, rfl⟩, rfl⟩
  have hitem : ItemAt (.ref 4) (fun _ => literal) s 0 (.ref 3) s :=
    ⟨_, _, [], _, rfl, ⟨[], [], _, rfl, rfl⟩, rfl⟩
  have hvariant : TagAt (.str "kind") (.ref 5) s (.plain "a") (.plain "kind") (.str "b") s :=
    .variant rfl rfl ⟨⟨[], [], [], rfl, rfl⟩, rfl⟩ rfl rfl rfl (by decide)
  have hshown : s.heap.display (.str "b") = .ok "'b'" :=
    congrArg Except.ok (by decide +kernel : Text.quoted "b" = ("'b'" : Text))
  refine ⟨⟨t, ?_⟩, ?_, ?_⟩
  · exact ((hchild _ _ _ _ (.union hmember) rfl rfl).shown "[[...]]" rfl).1
  · have hunshown := (hconstant _ _ _ _ rfl hitem (.inr rfl)).unshown (.badValue "no repr") rfl
    exact hunshown.elim id fun hend => absurd hend.1 nofun
  · exact ((htag _ _ _ _ _ _ hvariant).shown _ hshown).1

/-- An object that refuses to be shown is neither a validator nor a function, and is not refused by a wrong
    type: the array ends in the fault of showing it. -/
theorem array_of_unshown_member :
    let refusal : Refusal := ⟨.badValue "no repr", rfl⟩
    let s : Store := ⟨⟨#[.foreign "Odd" (.error refusal) (.ok true)]⟩, [], []⟩
    s.schemaOf? (.ref 0) = none ∧ s.testOf? (.ref 0) = none ∧
      array (.ref 0) s = .error (.fault (.badValue "no repr")) s ∧
      (Problem.fault (.badValue "no repr")).className ≠ "TypeError" := by
  intro refusal s
  exact ⟨rfl, rfl, rfl, by decide⟩

end Conform
