import Mathlib.Data.List.Forall2
import Mathlib.Logic.Relation
import Conform.Proofs.Scalar

namespace Conform

/-!
# Containment

Which values have a canonical form.  The text of a container is put together from the texts of what
it holds; it is refused for a container on the way from the root to itself, and for what is no JSON.
So there is a text exactly where nothing reachable contains itself and everything reachable is
plain.  That an object is met twice, on different ways, does not matter: only the way from the root
is looked at.

* `Heap.HeldBy` — a value is an item or an entry of another one;
* `Heap.Acyclic`, `Heap.NestsBelow` — no list or dictionary contains itself; how deep values nest;
* `Heap.Plain` — what JSON has a text for, if it has one for the parts;
* `Heap.Written` — the text of a value, given those of its parts;
* `Heap.isSome_canonical?_iff` — which values have a canonical form.
-/

open Relation

variable {α β : Type}

/-! ### Lists of results that may be missing -/

theorem mapM_eq_some_iff {f : α → Option β} {l : List α} {results : List β} :
    l.mapM f = some results ↔ List.Forall₂ (fun a b => f a = some b) l results := by
  induction l generalizing results with
  | nil => simp [eq_comm]
  | cons a rest ih =>
    rw [List.mapM_cons]
    constructor
    · intro h
      obtain ⟨first, hfirst, h⟩ := Option.bind_eq_some_iff.mp h
      obtain ⟨others, hothers, h⟩ := Option.bind_eq_some_iff.mp h
      obtain rfl := Option.some.inj h
      exact .cons hfirst (ih.mp hothers)
    · rintro (_ | ⟨hfirst, hothers⟩)
      rw [hfirst, ih.mpr hothers]
      rfl

theorem isSome_mapM_iff {f : α → Option β} {l : List α} :
    (l.mapM f).isSome ↔ ∀ a ∈ l, (f a).isSome := by
  induction l with
  | nil => simp
  | cons a rest ih =>
    rw [List.mapM_cons, List.forall_mem_cons, ← ih]
    cases f a with
    | none => simp
    | some first => cases rest.mapM f <;> simp

/-! ### Cycles -/

/-- Where all ways down are finite, none leads back. -/
theorem not_transGen_of_acc {r : α → α → Prop} {a b : α} (ha : Acc r a)
    (hb : ReflTransGen r b a) : ¬ TransGen r b b := by
  have hacc : Acc (TransGen r) b := by
    rcases reflTransGen_iff_eq_or_transGen.mp hb with rfl | hb
    · exact ha.transGen
    · exact ha.transGen.inv hb
  induction hacc with
  | intro b _ ih => exact fun hself => ih b hself (.trans hself.to_reflTransGen hb) hself

/-! ### Containers and what they hold -/

namespace Heap

variable {h : Heap} {v w : Value}

/-- The entries of a dictionary, be it ordered or not. -/
def dictionary? (h : Heap) (v : Value) : Option (List (Value × Value)) :=
  match h.cellOf? v with
  | some (.dict entries) | some (.orderedDict entries) => some entries
  | _ => none

theorem mapping?_of_dictionary? {entries : List (Value × Value)}
    (hd : h.dictionary? v = some entries) : h.mapping? v = some ⟨entries, none⟩ := by
  rw [dictionary?] at hd
  rw [mapping?]
  split at hd
  · next hcell =>
    obtain rfl := Option.some.inj hd
    rw [hcell]
    rfl
  · next hcell =>
    obtain rfl := Option.some.inj hd
    rw [hcell]
    rfl
  · cases hd

/-- A value is held by a container: it is an item of a list or a tuple, or it stands under a key of
    a dictionary. -/
inductive HeldBy (h : Heap) : Value → Value → Prop where
  | item {v w : Value} {items : List Value} (hs : h.sequence? v = some items) (hw : w ∈ items) :
    HeldBy h w v
  | entry {v w key : Value} {entries : List (Value × Value)} (hd : h.dictionary? v = some entries)
    (hw : (key, w) ∈ entries) : HeldBy h w v

/-- Lists and dictionaries, which are changed in place. -/
def isMutable (h : Heap) (v : Value) : Bool :=
  match h.cellOf? v with
  | some (.list _) | some (.dict _) | some (.orderedDict _) => true
  | _ => false

/-- No list or dictionary that is reached from a value contains itself. -/
def Acyclic (h : Heap) (v : Value) : Prop :=
  ∀ w, ReflTransGen h.HeldBy w v → h.isMutable w = true → ¬ TransGen h.HeldBy w w

/-- Every cycle goes through a list or a dictionary. -/
def CyclesAreMutable (h : Heap) : Prop :=
  ∀ w, TransGen h.HeldBy w w →
    ∃ u, h.isMutable u = true ∧ ReflTransGen h.HeldBy u w ∧ ReflTransGen h.HeldBy w u

/-- A tuple holds what was there before it, if it holds an object. -/
def TuplesAreLate (h : Heap) : Prop :=
  ∀ a items, h.cell a = .tuple items → ∀ b, .ref b ∈ items → b < a

/-- A value is nested fewer than some number of levels. -/
def NestsBelow (h : Heap) : Nat → Value → Prop
  | 0, _ => False
  | n + 1, v => ∀ w, h.HeldBy w v → h.NestsBelow n w

theorem exists_ref_of_heldBy (hw : h.HeldBy w v) : ∃ a, v = .ref a := by
  cases hw with
  | item hs _ => exact exists_ref_of_sequence? hs
  | entry hd _ => exact exists_ref_of_mapping? (mapping?_of_dictionary? hd)

theorem not_heldBy_scalar (hv : v.isScalar = true) : ¬ h.HeldBy w v := by
  intro hw
  obtain ⟨a, rfl⟩ := exists_ref_of_heldBy hw
  cases hv

/-- What a list or a tuple holds are its items. -/
theorem heldBy_of_sequence {items : List Value} (hs : h.sequence? v = some items) :
    h.HeldBy w v ↔ w ∈ items := by
  refine ⟨fun hw => ?_, fun hw => .item hs hw⟩
  cases hw with
  | item hs' hw =>
    obtain rfl := Option.some.inj (hs.symm.trans hs')
    exact hw
  | entry hd _ =>
    rw [sequence?_of_mapping? (mapping?_of_dictionary? hd)] at hs
    cases hs

/-- What a dictionary holds are its values. -/
theorem heldBy_of_dictionary {entries : List (Value × Value)}
    (hd : h.dictionary? v = some entries) : h.HeldBy w v ↔ ∃ key, (key, w) ∈ entries := by
  refine ⟨fun hw => ?_, fun ⟨key, hw⟩ => .entry hd hw⟩
  cases hw with
  | item hs _ =>
    have hm := mapping?_of_dictionary? hd
    rw [mapping?_of_sequence? hs] at hm
    cases hm
  | entry hd' hw =>
    obtain rfl := Option.some.inj (hd.symm.trans hd')
    exact ⟨_, hw⟩

theorem nestsBelow_scalar {n : Nat} (hv : v.isScalar = true) : h.NestsBelow (n + 1) v :=
  fun _ hw => absurd hw (not_heldBy_scalar hv)

theorem nestsBelow_sequence {n : Nat} {items : List Value} (hs : h.sequence? v = some items)
    (hitems : ∀ item ∈ items, h.NestsBelow n item) : h.NestsBelow (n + 1) v :=
  fun w hw => hitems w ((heldBy_of_sequence hs).mp hw)

theorem nestsBelow_dictionary {n : Nat} {entries : List (Value × Value)}
    (hd : h.dictionary? v = some entries) (hentries : ∀ entry ∈ entries, h.NestsBelow n entry.2) :
    h.NestsBelow (n + 1) v := by
  intro w hw
  obtain ⟨key, hmem⟩ := (heldBy_of_dictionary hd).mp hw
  exact hentries _ hmem

/-- What is held by something that cannot be changed is held by a tuple. -/
theorem exists_tuple_of_heldBy (hw : h.HeldBy w v) (hv : h.isMutable v = false) :
    ∃ a items, v = .ref a ∧ h.cell a = .tuple items ∧ w ∈ items := by
  obtain ⟨a, rfl⟩ := exists_ref_of_heldBy hw
  have hcellOf : h.cellOf? (.ref a) = some (h.cell a) := rfl
  cases hw with
  | item hs hw =>
    cases hcell : h.cell a with
    | tuple items =>
      simp only [sequence?, hcellOf, hcell, Option.some.injEq] at hs
      exact ⟨a, items, rfl, hcell, hs ▸ hw⟩
    | list _ => simp [isMutable, hcellOf, hcell] at hv
    | _ => simp [sequence?, hcellOf, hcell] at hs
  | entry hd hw =>
    cases hcell : h.cell a with
    | dict _ | orderedDict _ => simp [isMutable, hcellOf, hcell] at hv
    | _ => simp [dictionary?, hcellOf, hcell] at hd

/-- If tuples hold what was there before them, then a way through tuples alone leads from earlier to
    later objects, and never back. -/
theorem CyclesAreMutable.of_late (hlate : h.TuplesAreLate) : h.CyclesAreMutable := by
  intro w hself
  by_contra hnone
  -- then all that lies on the cycle are tuples
  have hfixed (u : Value) (huw : ReflTransGen h.HeldBy u w) (hwu : ReflTransGen h.HeldBy w u) :
      h.isMutable u = false := by
    by_contra hmutable
    exact hnone ⟨u, by simpa using hmutable, huw, hwu⟩
  obtain ⟨u, -, hu⟩ := TransGen.tail'_iff.mp hself
  obtain ⟨a, rfl⟩ := exists_ref_of_heldBy hu
  -- along the cycle the addresses grow, up to where it started
  have hlater (u : Value) (hwu : TransGen h.HeldBy (.ref a) u)
      (huw : ReflTransGen h.HeldBy u (.ref a)) : ∃ b, u = .ref b ∧ a < b := by
    induction hwu with
    | single hstep =>
      obtain ⟨b, items, rfl, hcell, hmem⟩ := exists_tuple_of_heldBy hstep
        (hfixed _ huw (.single hstep))
      exact ⟨b, rfl, hlate b items hcell a hmem⟩
    | @tail u v hwu hstep ih =>
      obtain ⟨b, rfl, hab⟩ := ih (.head hstep huw)
      obtain ⟨c, items, rfl, hcell, hmem⟩ := exists_tuple_of_heldBy hstep
        (hfixed _ huw (hwu.to_reflTransGen.tail hstep))
      exact ⟨c, rfl, Nat.lt_trans hab (hlate c items hcell b hmem)⟩
  obtain ⟨b, hb, hab⟩ := hlater _ hself .refl
  obtain rfl := Value.ref.inj hb
  exact Nat.lt_irrefl _ hab

/-- Where no list or dictionary contains itself, nothing does. -/
theorem Acyclic.not_transGen (hv : h.Acyclic v) (hcycles : h.CyclesAreMutable)
    (hw : ReflTransGen h.HeldBy w v) : ¬ TransGen h.HeldBy w w := by
  intro hself
  obtain ⟨u, hmutable, huw, hwu⟩ := hcycles w hself
  exact hv u (huw.trans hw) hmutable ((hself.trans_right huw).trans_left hwu)

end Heap

/-! ### Plain values -/

/-- The text of a scalar inside of a container, where a float keeps its point. -/
def Value.scalarText? : Value → Option Text
  | .null => some "null"
  | .bool b => some (if b then "true" else "false")
  | .int n => (integerText n).toOption
  | .float x => some (x.text jsonNames)
  | .str s => some (Text.escaped .ascii s)
  | .code c => some (Text.escaped .ascii c.name)
  | _ => none

/-- A scalar that is no integer of too many digits. -/
def Value.Plain (v : Value) : Prop := v.isScalar = true ∧ ∀ n, v = .int n → n.natAbs < digitBound

theorem Value.isSome_scalarText?_iff {v : Value} : v.scalarText?.isSome ↔ v.Plain := by
  cases v with
  | int n =>
    rw [scalarText?, Heap.integerText_toOption_isSome_iff]
    exact ⟨fun hn => ⟨rfl, fun m hm => Value.int.inj hm ▸ hn⟩, fun hn => hn.2 n rfl⟩
  | null | bool _ | float _ | str _ | code _ => exact iff_of_true rfl ⟨rfl, nofun⟩
  | _ => exact iff_of_false nofun fun hv => Bool.noConfusion hv.1

/-- The values that may be keys are those that have a text by themselves. -/
theorem Value.isSome_jsonKey?_iff {v : Value} : v.jsonKey?.isSome ↔ v.Plain := by
  have hsome : v.jsonKey?.isSome = v.scalarText?.isSome := by cases v <;> rfl
  rw [hsome, isSome_scalarText?_iff]

namespace Heap

/-- A plain scalar, a list, a tuple, or a dictionary with plain keys. -/
inductive Plain (h : Heap) : Value → Prop where
  | scalar {v : Value} (hv : v.Plain) : Plain h v
  | sequence {v : Value} {items : List Value} (hs : h.sequence? v = some items) : Plain h v
  | dictionary {v : Value} {entries : List (Value × Value)} (hd : h.dictionary? v = some entries)
    (hkeys : ∀ entry ∈ entries, entry.1.Plain) : Plain h v

/-! ### One level of a text -/

variable {h : Heap} {v w : Value} {t : Text} {inner : Value → Option Text}

/-- The text of an entry of an object: its key as a string, and its value. -/
def entryText? (style : JsonStyle) (inner : Value → Option Text) (entry : Value × Value) :
    Option Text := do
  let key ← entry.1.jsonKey?
  return Text.escaped style.range key ++ style.colon ++ (← inner entry.2)

theorem jsonObject?_eq {style : JsonStyle} {entries : List (Value × Value)} :
    jsonObject? style inner entries = (entries.mapM (entryText? style inner)).map fun parts =>
      "\x7b" ++ List.intercalate style.comma parts ++ "\x7d" := by
  show (entries.mapM (entryText? style inner) >>= _) = _
  cases entries.mapM (entryText? style inner) <;> rfl

theorem jsonArray?_eq {style : JsonStyle} {items : List Value} :
    jsonArray? style inner items = (items.mapM inner).map fun parts =>
      "[" ++ List.intercalate style.comma parts ++ "]" := by
  rw [jsonArray?]
  cases items.mapM inner <;> rfl

theorem isSome_jsonArray?_iff {style : JsonStyle} {items : List Value} :
    (jsonArray? style inner items).isSome ↔ ∀ item ∈ items, (inner item).isSome := by
  rw [jsonArray?_eq, Option.isSome_map, isSome_mapM_iff]

theorem isSome_jsonObject?_iff {style : JsonStyle} {entries : List (Value × Value)} :
    (jsonObject? style inner entries).isSome ↔
      ∀ entry ∈ entries, entry.1.Plain ∧ (inner entry.2).isSome := by
  have hentry (entry : Value × Value) :
      (entryText? style inner entry).isSome ↔ entry.1.Plain ∧ (inner entry.2).isSome := by
    rw [← Value.isSome_jsonKey?_iff, entryText?]
    cases entry.1.jsonKey? <;> cases inner entry.2 <;> simp
  simp only [jsonObject?_eq, Option.isSome_map, isSome_mapM_iff, hentry]

/-- The text of a value, given those of the values that it holds. -/
inductive Written (h : Heap) (inner : Value → Option Text) : Value → Text → Prop where
  | scalar {v : Value} {t : Text} (ht : v.scalarText? = some t) : Written h inner v t
  | sequence {v : Value} {t : Text} {items : List Value} (hs : h.sequence? v = some items)
    (ht : jsonArray? canonicalStyle inner items = some t) : Written h inner v t
  | dictionary {v : Value} {t : Text} {entries : List (Value × Value)}
    (hd : h.dictionary? v = some entries) (ht : jsonObject? canonicalStyle inner entries = some t) :
    Written h inner v t

/-- What has a text is plain. -/
theorem Written.plain (ht : h.Written inner v t) : h.Plain v := by
  cases ht with
  | scalar ht =>
    refine .scalar (Value.isSome_scalarText?_iff.mp ?_)
    rw [ht]
    rfl
  | sequence hs ht => exact .sequence hs
  | dictionary hd ht =>
    have hentries := isSome_jsonObject?_iff.mp (Option.isSome_iff_exists.mpr ⟨_, ht⟩)
    exact .dictionary hd fun entry he => (hentries entry he).1

/-- What a value with a text holds, has a text. -/
theorem Written.isSome_inner (ht : h.Written inner v t) (hw : h.HeldBy w v) :
    (inner w).isSome := by
  cases ht with
  | scalar ht =>
    have hplain := Value.isSome_scalarText?_iff.mp (Option.isSome_iff_exists.mpr ⟨_, ht⟩)
    exact absurd hw (not_heldBy_scalar hplain.1)
  | sequence hs ht =>
    have hitems := isSome_jsonArray?_iff.mp (Option.isSome_iff_exists.mpr ⟨_, ht⟩)
    exact hitems w ((heldBy_of_sequence hs).mp hw)
  | dictionary hd ht =>
    have hentries := isSome_jsonObject?_iff.mp (Option.isSome_iff_exists.mpr ⟨_, ht⟩)
    obtain ⟨key, hw⟩ := (heldBy_of_dictionary hd).mp hw
    exact (hentries (key, w) hw).2

/-! ### The text of a value inside of containers -/

section Within

variable {fuel : Nat} {enclosing : List Addr}

theorem jsonWithin?_of_isScalar (hv : v.isScalar = true) :
    h.jsonWithin? canonicalStyle (fuel + 1) enclosing v = v.scalarText? := by
  cases v with
  | null | bool _ | int _ | float _ | str _ | code _ => rfl
  | _ => cases hv

/-- A container without items has a text of its own, also on the way to itself. -/
theorem jsonWithin?_of_sequence {a : Addr} {items : List Value}
    (hs : h.sequence? (.ref a) = some items) :
    h.jsonWithin? canonicalStyle (fuel + 1) enclosing (.ref a) =
      if items.isEmpty then some ("[]" : Text)
      else if enclosing.contains a then none
      else jsonArray? canonicalStyle (h.jsonWithin? canonicalStyle fuel (a :: enclosing))
        items := by
  rw [jsonWithin?]
  cases hcell : h.cell a with
  | list _ | tuple _ =>
    simp only [sequence?, cellOf?, Value.addr?, Option.map_some, hcell, Option.some.injEq] at hs
    rw [hs]
  | _ => simp [sequence?, cellOf?, Value.addr?, hcell] at hs

theorem jsonWithin?_of_dictionary {a : Addr} {entries : List (Value × Value)}
    (hd : h.dictionary? (.ref a) = some entries) :
    h.jsonWithin? canonicalStyle (fuel + 1) enclosing (.ref a) =
      if entries.isEmpty then some ("\x7b\x7d" : Text)
      else if enclosing.contains a then none
      else jsonObject? canonicalStyle (h.jsonWithin? canonicalStyle fuel (a :: enclosing))
        entries := by
  rw [jsonWithin?]
  cases hcell : h.cell a with
  | dict _ | orderedDict _ =>
    simp only [dictionary?, cellOf?, Value.addr?, Option.map_some, hcell, Option.some.injEq] at hd
    rw [hd]
  | _ => simp [dictionary?, cellOf?, Value.addr?, hcell] at hd

/-- A container that is on no way to itself is written as an array or an object. -/
theorem jsonWithin?_eq_jsonArray? {a : Addr} {items : List Value}
    (hs : h.sequence? (.ref a) = some items) (ha : a ∉ enclosing) :
    h.jsonWithin? canonicalStyle (fuel + 1) enclosing (.ref a) =
      jsonArray? canonicalStyle (h.jsonWithin? canonicalStyle fuel (a :: enclosing)) items := by
  have hcontains : ¬ enclosing.contains a = true := by simpa using ha
  rw [jsonWithin?_of_sequence hs, if_neg hcontains]
  cases items with
  | nil => rfl
  | cons item items => rfl

theorem jsonWithin?_eq_jsonObject? {a : Addr} {entries : List (Value × Value)}
    (hd : h.dictionary? (.ref a) = some entries) (ha : a ∉ enclosing) :
    h.jsonWithin? canonicalStyle (fuel + 1) enclosing (.ref a) =
      jsonObject? canonicalStyle (h.jsonWithin? canonicalStyle fuel (a :: enclosing)) entries := by
  have hcontains : ¬ enclosing.contains a = true := by simpa using ha
  rw [jsonWithin?_of_dictionary hd, if_neg hcontains]
  cases entries with
  | nil => rfl
  | cons entry entries => rfl

/-- Whatever has a text is a scalar or a container, and is written as such. -/
theorem exists_written (ht : h.jsonWithin? canonicalStyle (fuel + 1) enclosing v = some t) :
    ∃ enclosing', h.Written (h.jsonWithin? canonicalStyle fuel enclosing') v t := by
  -- a container that is cut off because of its address has no text, unless it is empty
  have level {empty enclosed : Bool} {brackets : Text} {text : Option Text}
      (hempty : empty = true → text = some brackets)
      (h : (if empty then some brackets else if enclosed then none else text) = some t) :
      text = some t := by
    split at h
    · next he => rw [hempty he, h]
    · split at h
      · cases h
      · exact h
  by_cases hscalar : v.isScalar = true
  · rw [jsonWithin?_of_isScalar hscalar] at ht
    exact ⟨enclosing, .scalar ht⟩
  · cases v with
    | ref a =>
      rcases hs : h.sequence? (.ref a) with _ | items
      · rcases hd : h.dictionary? (.ref a) with _ | entries
        · -- the other objects have no fallback
          exfalso
          rw [jsonWithin?] at ht
          cases hcell : h.cell a <;>
            simp [hcell, sequence?, dictionary?, cellOf?, Value.addr?, jsonFallback?,
              canonicalStyle] at hs hd ht
        · rw [jsonWithin?_of_dictionary hd] at ht
          refine ⟨a :: enclosing, .dictionary hd (level ?_ ht)⟩
          intro he
          rw [List.isEmpty_iff.mp he]
          rfl
      · rw [jsonWithin?_of_sequence hs] at ht
        refine ⟨a :: enclosing, .sequence hs (level ?_ ht)⟩
        intro he
        rw [List.isEmpty_iff.mp he]
        rfl
    | undefined | bytes _ | type _ | builtin _ => cases ht
    | _ => exact absurd rfl hscalar

end Within

/-! ### Which values have a canonical form -/

/-- What is reached from a value with a text is plain, and the way to it is finite. -/
theorem acc_of_jsonWithin? {fuel : Nat} {enclosing : List Addr}
    (ht : h.jsonWithin? canonicalStyle fuel enclosing v = some t) :
    Acc h.HeldBy v ∧ ∀ w, ReflTransGen h.HeldBy w v → h.Plain w := by
  induction fuel generalizing enclosing v t with
  | zero => cases ht
  | succ fuel ih =>
    obtain ⟨enclosing', hwritten⟩ := exists_written ht
    have hheld (w : Value) (hw : h.HeldBy w v) :
        Acc h.HeldBy w ∧ ∀ u, ReflTransGen h.HeldBy u w → h.Plain u := by
      obtain ⟨t', ht'⟩ := Option.isSome_iff_exists.mp (hwritten.isSome_inner hw)
      exact ih ht'
    refine ⟨.intro v fun w hw => (hheld w hw).1, fun u hu => ?_⟩
    rcases hu.cases_tail with rfl | ⟨w, huw, hw⟩
    · exact hwritten.plain
    · exact (hheld w hw).2 u huw

/-- An item or an entry lies in its container, and in all that this one lies in. -/
theorem transGen_enclosing {a : Addr} {enclosing : List Addr} (hw : h.HeldBy w (.ref a))
    (henclosing : ∀ b ∈ enclosing, TransGen h.HeldBy (.ref a) (.ref b)) :
    ∀ b ∈ a :: enclosing, TransGen h.HeldBy w (.ref b) := by
  intro b hb
  rcases List.mem_cons.mp hb with rfl | hb
  · exact .single hw
  · exact .head hw (henclosing b hb)

/-- What does not nest too deep, is plain everywhere and contains nothing that contains itself,
    has a text inside of containers that it does not contain. -/
theorem isSome_jsonWithin? {n fuel : Nat} {enclosing : List Addr} (hnests : h.NestsBelow n v)
    (hn : n ≤ fuel) (hplain : ∀ w, ReflTransGen h.HeldBy w v → h.Plain w)
    (hcycle : ∀ w, ReflTransGen h.HeldBy w v → ¬ TransGen h.HeldBy w w)
    (henclosing : ∀ a ∈ enclosing, TransGen h.HeldBy v (.ref a)) :
    (h.jsonWithin? canonicalStyle fuel enclosing v).isSome := by
  induction n generalizing fuel enclosing v with
  | zero => exact hnests.elim
  | succ n ih =>
    obtain ⟨fuel, rfl⟩ := Nat.exists_eq_add_one_of_ne_zero (Nat.ne_of_gt (Nat.zero_lt_of_lt hn))
    have hnot {a : Addr} (hv : v = .ref a) : a ∉ enclosing := by
      rintro ha
      exact hcycle v .refl (hv ▸ henclosing a ha)
    -- one level deeper the value is one of the containers
    have hheld {a : Addr} (hv : v = .ref a) (w : Value) (hw : h.HeldBy w v) :
        (h.jsonWithin? canonicalStyle fuel (a :: enclosing) w).isSome := by
      subst hv
      exact ih (hnests w hw) (Nat.le_of_succ_le_succ hn) (fun u hu => hplain u (hu.tail hw))
        (fun u hu => hcycle u (hu.tail hw)) (transGen_enclosing hw henclosing)
    cases hplain v .refl with
    | scalar hv =>
      rw [jsonWithin?_of_isScalar hv.1]
      exact Value.isSome_scalarText?_iff.mpr hv
    | sequence hs =>
      obtain ⟨a, rfl⟩ := exists_ref_of_sequence? hs
      rw [jsonWithin?_eq_jsonArray? hs (hnot rfl), isSome_jsonArray?_iff]
      exact fun item hitem => hheld rfl item (.item hs hitem)
    | dictionary hd hkeys =>
      obtain ⟨a, rfl⟩ := exists_ref_of_mapping? (mapping?_of_dictionary? hd)
      rw [jsonWithin?_eq_jsonObject? hd (hnot rfl), isSome_jsonObject?_iff]
      exact fun entry he => ⟨hkeys entry he, hheld rfl entry.2 (.entry hd he)⟩

/-- Only a float can have a canonical form that differs from its text inside of containers. -/
theorem canonical?_isSome_iff_json? (hv : v ≠ .undefined) :
    (h.canonical? v).isSome ↔ (h.json? canonicalStyle v).isSome := by
  cases v with
  | undefined => exact absurd rfl hv
  | float x => exact iff_of_true ((canonical?_isSome_iff rfl).mpr nofun) rfl
  | _ => exact Iff.rfl

/-- From a value with a canonical form nothing is reached that contains itself or is not plain. -/
theorem acyclic_of_canonical? (ht : h.canonical? v = some t) :
    v ≠ .undefined ∧ h.Acyclic v ∧ ∀ w, ReflTransGen h.HeldBy w v → h.Plain w := by
  have hv : v ≠ .undefined := by
    rintro rfl
    cases ht
  obtain ⟨text, htext⟩ := Option.isSome_iff_exists.mp
    ((canonical?_isSome_iff_json? hv).mp (Option.isSome_iff_exists.mpr ⟨t, ht⟩))
  obtain ⟨hacc, hplain⟩ := acc_of_jsonWithin? htext
  exact ⟨hv, fun w hw _ => not_transGen_of_acc hacc hw, hplain⟩

/-- A value has a canonical form if and only if it is something at all, nothing that is reached from
    it contains itself, and all of that is plain. -/
theorem isSome_canonical?_iff (hcycles : h.CyclesAreMutable)
    (hnests : h.Acyclic v → h.NestsBelow 300 v) :
    (h.canonical? v).isSome ↔
      v ≠ .undefined ∧ h.Acyclic v ∧ ∀ w, ReflTransGen h.HeldBy w v → h.Plain w := by
  constructor
  · intro hsome
    obtain ⟨t, ht⟩ := Option.isSome_iff_exists.mp hsome
    exact acyclic_of_canonical? ht
  · rintro ⟨hv, hacyclic, hplain⟩
    rw [canonical?_isSome_iff_json? hv]
    exact isSome_jsonWithin? (hnests hacyclic) (by decide) hplain
      (fun w hw => hacyclic.not_transGen hcycles hw) nofun

end Heap

end Conform
