import Conform.Proofs.Containment
import Conform.Proofs.Literals

namespace Conform

/-!
# Values of one structure

When two values count as copies of each other, whichever objects they are made of: they have the
same scalars at the same places of the same containers.  Copies have one canonical form, since the
text of a value depends on what it holds, and not on where that is stored or on how often it is
shared; and it is enough that strings are the same as far as their UTF-16 units tell.

* `Binary64.text_eq_text_iff` — which floats have one text;
* `Value.KeyText`, `Value.JsonKey` — the text of a key;
* `Heap.SameStructure` — equality of values by structure, over two heaps, and
  `Heap.SameStructureUpTo` — with strings compared otherwise;
* `Heap.Unpaired` — no string in a value has surrogates that look like a pair;
* `Heap.SameStructureUpTo.same` — of such values, units tell all;
* `Heap.SameStructureUpTo.canonical?_eq` — copies have one canonical form;
* `canonical_forms_of_graphs` — which graphs of objects have a canonical form, and what literals
  make of the others.
-/

open Relation

/-! ### The texts of floats -/

/-- Names that are no numerals and differ, also behind a sign. -/
structure SpecialNames.Legible (names : SpecialNames) : Prop where
  nan : ¬ Numeral.Numeric names.nan
  infinity : ∀ negative : Bool, ¬ Numeral.Numeric ((if negative then "-" else "") ++ names.infinity)
  apart : ∀ negative : Bool, names.nan ≠ (if negative then "-" else "") ++ names.infinity

theorem displayNames_legible : displayNames.Legible := ⟨by decide, by decide, by decide⟩

theorem jsonNames_legible : jsonNames.Legible := ⟨by decide, by decide, by decide⟩

namespace Binary64

variable {x y : Binary64} {names : SpecialNames}

theorem text_of_isFinite (hx : x.isFinite = true) : x.text names = x.finiteText .usual := by
  rw [text, if_pos hx]

theorem not_isFinite_of_isNaN (hx : x.isNaN = true) : ¬ x.isFinite = true := by
  intro hfinite
  rw [isNaN, hfinite] at hx
  cases hx

theorem text_of_isNaN (hx : x.isNaN = true) : x.text names = names.nan := by
  rw [text, if_neg (not_isFinite_of_isNaN hx), if_pos hx]

theorem text_of_infinity (hfinite : ¬ x.isFinite = true) (hnan : ¬ x.isNaN = true) :
    x.text names = (if x.isNegative then "-" else "") ++ names.infinity := by
  rw [text, if_neg hfinite, if_neg hnan]

/-- The numbers are told from the names by the characters. -/
theorem numeric_text_iff (hnames : names.Legible) :
    Numeral.Numeric (x.text names) ↔ x.isFinite = true := by
  by_cases hfinite : x.isFinite = true
  · refine iff_of_true ?_ hfinite
    obtain ⟨numeral, htext, -, -, hnumeric, -⟩ := Numeral.exists_finiteText hfinite
    rw [text_of_isFinite hfinite, htext]
    refine .append ?_ hnumeric
    split <;> decide
  · refine iff_of_false ?_ hfinite
    by_cases hnan : x.isNaN = true
    · rw [text_of_isNaN hnan]
      exact hnames.nan
    · rw [text_of_infinity hfinite hnan]
      exact hnames.infinity _

/-- The two infinities differ in their sign only. -/
theorem eq_of_infinity (hx : ¬ x.isFinite = true) (hx' : ¬ x.isNaN = true)
    (hy : ¬ y.isFinite = true) (hy' : ¬ y.isNaN = true) (hsign : x.isNegative = y.isNegative) :
    x = y := by
  have code_eq {z : Binary64} (hz : ¬ z.isFinite = true) (hz' : ¬ z.isNaN = true) :
      z.code = 2047 * fractionSpan := by
    have hfraction : z.fractionField = 0 := by simpa [isNaN, hz] using hz'
    have hexponent : z.exponentField = 2047 := by simpa [isFinite] using hz
    rw [code, hfraction, hexponent, Nat.add_zero]
  exact eq_of_code hsign ((code_eq hx hx').trans (code_eq hy hy').symm)

/-- Floats have one text if they are the same, or both are not numbers. -/
theorem text_eq_text_iff (hnames : names.Legible) :
    x.text names = y.text names ↔ x = y ∨ x.isNaN = true ∧ y.isNaN = true := by
  constructor
  · intro h
    have hfinite : x.isFinite = true ↔ y.isFinite = true := by
      rw [← numeric_text_iff hnames, ← numeric_text_iff hnames, h]
    -- numerals tell finite floats apart; without a numeral there is a name, and maybe a sign
    by_cases hx : x.isFinite = true
    · rw [text_of_isFinite hx, text_of_isFinite (hfinite.mp hx)] at h
      exact .inl (Numeral.finiteText_injective hx (hfinite.mp hx) h)
    · have hy : ¬ y.isFinite = true := fun hy => hx (hfinite.mpr hy)
      by_cases hxnan : x.isNaN = true <;> by_cases hynan : y.isNaN = true
      · exact .inr ⟨hxnan, hynan⟩
      · rw [text_of_isNaN hxnan, text_of_infinity hy hynan] at h
        exact absurd h (hnames.apart _)
      · rw [text_of_infinity hx hxnan, text_of_isNaN hynan] at h
        exact absurd h.symm (hnames.apart _)
      · rw [text_of_infinity hx hxnan, text_of_infinity hy hynan] at h
        refine .inl (eq_of_infinity hx hxnan hy hynan ?_)
        have hchars := congrArg String.toList h
        rw [String.toList_append, String.toList_append, Numeral.toList_sign, Numeral.toList_sign]
          at hchars
        exact Numeral.sign_injective (List.append_cancel_right hchars)
  · rintro (rfl | ⟨hx, hy⟩)
    · rfl
    · rw [text_of_isNaN hx, text_of_isNaN hy]

/-- So what a float has as its text under some names tells what it has under any other ones. -/
theorem text_congr {names' : SpecialNames} (hnames : names.Legible) (hnames' : names'.Legible) :
    x.text names = y.text names ↔ x.text names' = y.text names' := by
  rw [text_eq_text_iff hnames, text_eq_text_iff hnames']

/-- Floats of one text amount to the same. -/
theorem quantity_eq_of_text (hnames : names.Legible) (h : x.text names = y.text names) :
    x.quantity = y.quantity := by
  have quantity_nan {z : Binary64} (hz : z.isNaN = true) : z.quantity = .nan := by
    rw [quantity, if_neg (not_isFinite_of_isNaN hz), if_pos hz]
  rcases (text_eq_text_iff hnames).mp h with rfl | ⟨hx, hy⟩
  · rfl
  · rw [quantity_nan hx, quantity_nan hy]

end Binary64

/-! ### The texts of keys -/

/-- The text of a key: a string is its own text, null and the Booleans are words, an integer is
    written in decimal, if it fits, and a float as it is shown under some names. -/
inductive Value.KeyText (names : SpecialNames) (fits : Int → Prop) : Value → Text → Prop where
  | text {v : Value} {s : Text} (hv : v.text? = some s) : KeyText names fits v s
  | null : KeyText names fits .null "null"
  | bool (b : Bool) : KeyText names fits (.bool b) (if b then "true" else "false")
  | int {n : Int} (hn : fits n) : KeyText names fits (.int n) (toString n)
  | float (x : Binary64) : KeyText names fits (.float x) (x.text names)

/-- The text of a key in a canonical form: an integer has it if it is not of too many digits, and
    the floats that are not finite go by their names in JSON. -/
def Value.JsonKey : Value → Text → Prop := Value.KeyText jsonNames fun n => n.natAbs < digitBound

theorem Value.jsonKey_iff {v : Value} {s : Text} : v.JsonKey s ↔ v.jsonKey? = some s := by
  constructor
  · intro hkey
    cases hkey with
    | text hv =>
      cases v with
      | str _ | code _ => exact hv
      | _ => cases hv
    | @int n hn =>
      have hfits : n.natAbs < digitBound := hn
      rw [jsonKey?, integerText, if_pos hfits]
      rfl
    | null | bool _ | float _ => rfl
  · intro hkey
    cases v with
    | int n =>
      -- a key that is an integer is written only within the digit limit
      have hn := Value.isSome_jsonKey?_iff.mp (Option.isSome_iff_exists.mpr ⟨s, hkey⟩)
      have hfits : n.natAbs < digitBound := hn.2 n rfl
      rw [jsonKey?] at hkey
      obtain rfl := Heap.eq_toString_of_integerText hkey
      exact .int hfits
    | str _ | code _ => exact .text hkey
    | null =>
      obtain rfl := Option.some.inj hkey
      exact .null
    | bool b =>
      obtain rfl := Option.some.inj hkey
      exact .bool b
    | float x =>
      obtain rfl := Option.some.inj hkey
      exact .float x
    | _ => cases hkey

namespace Heap

/-! ### Structure -/

/-- A value and a value over other objects have the same structure: both are null, or equal
    Booleans or integers, or strings that are alike, or floats that are shown alike, or both are lists
    or tuples of one length with the same items in turn, or both are dictionaries of one length, with
    keys of texts that are alike and the same values in turn. -/
inductive SameStructureUpTo (alike : Text → Text → Prop) (h : Heap) (key : Value → Text → Prop)
    (h' : Heap) : Value → Value → Prop where
  | null : SameStructureUpTo alike h key h' .null .null
  | bool (b : Bool) : SameStructureUpTo alike h key h' (.bool b) (.bool b)
  | int (n : Int) : SameStructureUpTo alike h key h' (.int n) (.int n)
  | float {x y : Binary64} (hxy : x.text displayNames = y.text displayNames) :
    SameStructureUpTo alike h key h' (.float x) (.float y)
  | text {v w : Value} {s t : Text} (hv : v.text? = some s) (hw : w.text? = some t)
    (hst : alike s t) : SameStructureUpTo alike h key h' v w
  | sequence {v w : Value} {items items' : List Value} (hv : h.sequence? v = some items)
    (hw : h'.sequence? w = some items') (hlength : items.length = items'.length)
    (hitems : ∀ pair ∈ items.zip items', SameStructureUpTo alike h key h' pair.1 pair.2) :
    SameStructureUpTo alike h key h' v w
  | dictionary {v w : Value} {entries entries' : List (Value × Value)}
    (hv : h.dictionary? v = some entries) (hw : h'.dictionary? w = some entries')
    (hlength : entries.length = entries'.length)
    (hkeys : ∀ pair ∈ entries.zip entries', ∃ s t, key pair.1.1 s ∧ key pair.2.1 t ∧ alike s t)
    (hvalues : ∀ pair ∈ entries.zip entries', SameStructureUpTo alike h key h' pair.1.2 pair.2.2) :
    SameStructureUpTo alike h key h' v w

/-- A value and a value over other objects have the same structure, with equal strings. -/
abbrev SameStructure (h : Heap) (key : Value → Text → Prop) (h' : Heap) : Value → Value → Prop :=
  SameStructureUpTo (· = ·) h key h'

/-- A value and a value over other objects have the same structure, as far as units tell. -/
abbrev SameUnits (h : Heap) (key : Value → Text → Prop) (h' : Heap) : Value → Value → Prop :=
  SameStructureUpTo Text.SameUnits h key h'

/-- No string in a value has surrogates that look like a pair, be it a part of the value or the text of
    a key. -/
def Unpaired (h : Heap) (key : Value → Text → Prop) (v : Value) : Prop :=
  ∀ w, ReflTransGen h.HeldBy w v → w.Unpaired ∧
    ∀ entries, h.dictionary? w = some entries → ∀ entry ∈ entries, ∀ s, key entry.1 s → s.Unpaired

theorem Unpaired.held {h : Heap} {key : Value → Text → Prop} {v w : Value} (hv : h.Unpaired key v)
    (hw : h.HeldBy w v) : h.Unpaired key w := fun u hu => hv u (hu.tail hw)

theorem unpaired_scalar {h : Heap} {key : Value → Text → Prop} {v : Value} (hscalar : v.isScalar = true)
    (hv : v.Unpaired) : h.Unpaired key v := by
  intro w hw
  rcases ReflTransGen.cases_tail hw with rfl | ⟨u, -, hu⟩
  · refine ⟨hv, fun entries hd => ?_⟩
    obtain ⟨a, rfl⟩ := exists_ref_of_mapping? (mapping?_of_dictionary? hd)
    cases hscalar
  · exact absurd hu (not_heldBy_scalar hscalar)

/-- The strings in a list or a tuple are those in its items. -/
theorem unpaired_sequence {h : Heap} {key : Value → Text → Prop} {v : Value} {items : List Value}
    (hs : h.sequence? v = some items) (hitems : ∀ item ∈ items, h.Unpaired key item) :
    h.Unpaired key v := by
  intro w hw
  rcases ReflTransGen.cases_tail hw with rfl | ⟨u, hwu, hu⟩
  · obtain ⟨a, rfl⟩ := exists_ref_of_sequence? hs
    refine ⟨nofun, fun entries hd => ?_⟩
    rw [sequence?_of_mapping? (mapping?_of_dictionary? hd)] at hs
    cases hs
  · exact hitems u ((heldBy_of_sequence hs).mp hu) w hwu

/-- Those in a dictionary are those in its keys and its values. -/
theorem unpaired_dictionary {h : Heap} {key : Value → Text → Prop} {v : Value}
    {entries : List (Value × Value)} (hd : h.dictionary? v = some entries)
    (hentries : ∀ entry ∈ entries, (∀ s, key entry.1 s → s.Unpaired) ∧ h.Unpaired key entry.2) :
    h.Unpaired key v := by
  intro w hw
  rcases ReflTransGen.cases_tail hw with rfl | ⟨u, hwu, hu⟩
  · obtain ⟨a, rfl⟩ := exists_ref_of_mapping? (mapping?_of_dictionary? hd)
    refine ⟨nofun, fun entries' hd' => ?_⟩
    obtain rfl := Option.some.inj (hd.symm.trans hd')
    exact fun entry he => (hentries entry he).1
  · obtain ⟨key', hmem⟩ := (heldBy_of_dictionary hd).mp hu
    exact (hentries _ hmem).2 w hwu

namespace SameStructureUpTo

variable {alike : Text → Text → Prop} {h h' : Heap} {key : Value → Text → Prop} {v w : Value}

/-- Partners in lists of one length. -/
theorem exists_mem_zip {α β : Type} {l : List α} {l' : List β} (hlength : l.length = l'.length)
    {a : α} (ha : a ∈ l) : ∃ b, (a, b) ∈ l.zip l' := by
  obtain ⟨i, hi, rfl⟩ := List.getElem_of_mem ha
  refine ⟨l'[i], ?_⟩
  rw [List.mem_iff_getElem]
  refine ⟨i, by rw [List.length_zip]; omega, by rw [List.getElem_zip]⟩

/-- A finer comparison of strings makes fewer copies. -/
theorem mono {alike' : Text → Text → Prop} (halike : ∀ s t, alike s t → alike' s t)
    (hvw : SameStructureUpTo alike h key h' v w) : SameStructureUpTo alike' h key h' v w := by
  induction hvw with
  | null => exact .null
  | bool b => exact .bool b
  | int n => exact .int n
  | float hxy => exact .float hxy
  | text hv hw hst => exact .text hv hw (halike _ _ hst)
  | sequence hv hw hlength _ ih => exact .sequence hv hw hlength ih
  | dictionary hv hw hlength hkeys _ ih =>
    refine .dictionary hv hw hlength (fun pair hpair => ?_) ih
    obtain ⟨s, t, hs, ht, hst⟩ := hkeys pair hpair
    exact ⟨s, t, hs, ht, halike _ _ hst⟩

/-- Of values without pairs of surrogates, units tell all. -/
theorem same (hvw : h.SameUnits key h' v w) (hv : h.Unpaired key v) (hw : h'.Unpaired key w) :
    h.SameStructure key h' v w := by
  induction hvw with
  | null => exact .null
  | bool b => exact .bool b
  | int n => exact .int n
  | float hxy => exact .float hxy
  | text hs ht hst => exact .text hs ht (hst.eq ((hv _ .refl).1 _ hs) ((hw _ .refl).1 _ ht))
  | sequence hs hs' hlength _ ih =>
    refine .sequence hs hs' hlength fun pair hpair => ih pair hpair ?_ ?_
    · exact hv.held (.item hs (List.of_mem_zip hpair).1)
    · exact hw.held (.item hs' (List.of_mem_zip hpair).2)
  | dictionary hd hd' hlength hkeys _ ih =>
    refine .dictionary hd hd' hlength (fun pair hpair => ?_) fun pair hpair => ih pair hpair ?_ ?_
    · -- key texts with the same units are the same, as neither has surrogates that look like a pair
      obtain ⟨s, t, hs, ht, hst⟩ := hkeys pair hpair
      have hunpaired := (hv _ .refl).2 _ hd _ (List.of_mem_zip hpair).1 s hs
      have hunpaired' := (hw _ .refl).2 _ hd' _ (List.of_mem_zip hpair).2 t ht
      exact ⟨s, t, hs, ht, hst.eq hunpaired hunpaired'⟩
    · exact hv.held (.entry hd (List.of_mem_zip hpair).1)
    · exact hw.held (.entry hd' (List.of_mem_zip hpair).2)

protected theorem symm (halike : ∀ s t, alike s t → alike t s)
    (hvw : SameStructureUpTo alike h key h' v w) : SameStructureUpTo alike h' key h w v := by
  have swap {α β : Type} {l : List α} {l' : List β} {pair : β × α} (hpair : pair ∈ l'.zip l) :
      pair.swap ∈ l.zip l' := by
    rw [← List.zip_swap]
    exact List.mem_map_of_mem hpair
  induction hvw with
  | null => exact .null
  | bool b => exact .bool b
  | int n => exact .int n
  | float hxy => exact .float hxy.symm
  | text hv hw hst => exact .text hw hv (halike _ _ hst)
  | sequence hv hw hlength _ ih =>
    exact .sequence hw hv hlength.symm fun pair hpair => ih _ (swap hpair)
  | dictionary hv hw hlength hkeys _ ih =>
    refine .dictionary hw hv hlength.symm (fun pair hpair => ?_) fun pair hpair => ih _ (swap hpair)
    obtain ⟨s, t, hs, ht, hst⟩ := hkeys _ (swap hpair)
    exact ⟨t, s, ht, hs, halike _ _ hst⟩

/-- What a dictionary has in common with one of the same structure. -/
theorem of_dictionary (hvw : SameStructureUpTo alike h key h' v w)
    {entries entries' : List (Value × Value)} (hv : h.dictionary? v = some entries)
    (hw : h'.dictionary? w = some entries') :
    entries.length = entries'.length ∧ ∀ pair ∈ entries.zip entries',
      (∃ s t, key pair.1.1 s ∧ key pair.2.1 t ∧ alike s t) ∧
        SameStructureUpTo alike h key h' pair.1.2 pair.2.2 := by
  cases hvw with
  | dictionary hv' hw' hlength hkeys hvalues =>
    obtain rfl := Option.some.inj (hv.symm.trans hv')
    obtain rfl := Option.some.inj (hw.symm.trans hw')
    exact ⟨hlength, fun pair hpair => ⟨hkeys pair hpair, hvalues pair hpair⟩⟩
  | sequence hs _ _ _ =>
    rw [sequence?_of_mapping? (mapping?_of_dictionary? hv)] at hs
    cases hs
  | text hs _ _ =>
    obtain ⟨a, rfl⟩ := exists_ref_of_mapping? (mapping?_of_dictionary? hv)
    cases hs
  | null | bool _ | int _ | float _ => cases hv

/-- A value with a structure contains nothing that contains itself. -/
theorem acc (hvw : SameStructureUpTo alike h key h' v w) : Acc h.HeldBy v := by
  have scalar {v : Value} (hv : v.isScalar = true) : Acc h.HeldBy v :=
    .intro v fun u hu => absurd hu (not_heldBy_scalar hv)
  induction hvw with
  | null | bool b | int n | float hxy => exact scalar rfl
  | @text v w s t hv hw _ =>
    cases v with
    | str _ | code _ => exact scalar rfl
    | _ => cases hv
  | sequence hv hw hlength _ ih =>
    refine .intro _ fun u hu => ?_
    obtain ⟨u', hpair⟩ := exists_mem_zip hlength ((heldBy_of_sequence hv).mp hu)
    exact ih _ hpair
  | dictionary hv hw hlength _ _ ih =>
    refine .intro _ fun u hu => ?_
    obtain ⟨key', hu⟩ := (heldBy_of_dictionary hv).mp hu
    obtain ⟨entry', hpair⟩ := exists_mem_zip hlength hu
    exact ih _ hpair

/-! ### Copies have one canonical form -/

/-- Results that agree in turn are collected to one list. -/
theorem mapM_congr {α β γ : Type} {f : α → Option γ} {g : β → Option γ} {l : List α} {l' : List β}
    (hlength : l.length = l'.length) (h : ∀ pair ∈ l.zip l', f pair.1 = g pair.2) :
    l.mapM f = l'.mapM g := by
  have hforall : List.Forall₂ (fun a b => f a = g b) l l' :=
    List.forall₂_iff_zip.mpr ⟨hlength, fun hpair => h _ hpair⟩
  clear hlength h
  induction hforall with
  | nil => rfl
  | cons hfirst _ ih => rw [List.mapM_cons, List.mapM_cons, hfirst, ih]

/-- Scalars of one structure have one text inside of containers. -/
theorem scalarText?_eq (hv : v.isScalar = true) (hvw : h.SameUnits key h' v w) :
    v.scalarText? = w.scalarText? ∧ w.isScalar = true := by
  have text {v : Value} {s : Text} (hv : v.text? = some s) :
      v.scalarText? = some (Text.escaped .ascii s) ∧ v.isScalar = true := by
    cases v with
    | str _ | code _ =>
      obtain rfl := Option.some.inj hv
      exact ⟨rfl, rfl⟩
    | _ => cases hv
  cases hvw with
  | null | bool b | int n => exact ⟨rfl, rfl⟩
  | float hxy =>
    -- floats are compared by their text, in whichever style
    refine ⟨congrArg (fun text : String => some (text : Text)) ?_, rfl⟩
    exact (Binary64.text_congr displayNames_legible jsonNames_legible).mp hxy
  | text hs hs' hunits =>
    rw [(text hs).1, (text hs').1, Text.escaped_eq_iff.mpr hunits]
    exact ⟨rfl, (text hs').2⟩
  | sequence hs _ _ _ =>
    obtain ⟨a, rfl⟩ := exists_ref_of_sequence? hs
    cases hv
  | dictionary hd _ _ _ _ =>
    obtain ⟨a, rfl⟩ := exists_ref_of_mapping? (mapping?_of_dictionary? hd)
    cases hv

/-- Copies have one text, inside of any containers that they do not contain.  The addresses on the
    two ways from the root need not have anything to do with each other. -/
theorem jsonWithin?_eq {fuel : Nat} {enclosing enclosing' : List Addr}
    (hvw : h.SameUnits Value.JsonKey h' v w)
    (hv : ∀ a ∈ enclosing, TransGen h.HeldBy v (.ref a))
    (hw : ∀ a ∈ enclosing', TransGen h'.HeldBy w (.ref a)) :
    h.jsonWithin? canonicalStyle fuel enclosing v =
      h'.jsonWithin? canonicalStyle fuel enclosing' w := by
  induction fuel generalizing enclosing enclosing' v w with
  | zero => rfl
  | succ fuel ih =>
    -- no way leads back to a value with a structure, on neither side
    have fresh {h : Heap} {a : Addr} {enclosing : List Addr} (hacc : Acc h.HeldBy (.ref a))
        (hway : ∀ b ∈ enclosing, TransGen h.HeldBy (.ref a) (.ref b)) : a ∉ enclosing := fun ha =>
      not_transGen_of_acc hacc .refl (hway a ha)
    have hvacc := hvw.acc
    have hwacc := (hvw.symm fun _ _ => Eq.symm).acc
    by_cases hscalar : v.isScalar = true
    · obtain ⟨htext, hscalar'⟩ := hvw.scalarText?_eq hscalar
      rw [jsonWithin?_of_isScalar hscalar, jsonWithin?_of_isScalar hscalar', htext]
    · cases hvw with
      | null | bool b | int n | float hxy => exact absurd rfl hscalar
      | text hs _ _ =>
        cases v with
        | str _ | code _ => exact absurd rfl hscalar
        | _ => cases hs
      | sequence hs hs' hlength hitems =>
        obtain ⟨a, rfl⟩ := exists_ref_of_sequence? hs
        obtain ⟨b, rfl⟩ := exists_ref_of_sequence? hs'
        rw [jsonWithin?_eq_jsonArray? hs (fresh hvacc hv),
          jsonWithin?_eq_jsonArray? hs' (fresh hwacc hw), jsonArray?_eq, jsonArray?_eq]
        congr 1
        refine mapM_congr hlength fun pair hpair => ih (hitems pair hpair) ?_ ?_
        · exact transGen_enclosing (.item hs (List.of_mem_zip hpair).1) hv
        · exact transGen_enclosing (.item hs' (List.of_mem_zip hpair).2) hw
      | dictionary hd hd' hlength hkeys hvalues =>
        obtain ⟨a, rfl⟩ := exists_ref_of_mapping? (mapping?_of_dictionary? hd)
        obtain ⟨b, rfl⟩ := exists_ref_of_mapping? (mapping?_of_dictionary? hd')
        rw [jsonWithin?_eq_jsonObject? hd (fresh hvacc hv),
          jsonWithin?_eq_jsonObject? hd' (fresh hwacc hw), jsonObject?_eq, jsonObject?_eq]
        congr 1
        refine mapM_congr hlength fun pair hpair => ?_
        obtain ⟨s, t, hkey, hkey', hunits⟩ := hkeys pair hpair
        have hescaped : Text.escaped canonicalStyle.range s = Text.escaped canonicalStyle.range t :=
          Text.escaped_eq_iff.mpr hunits
        rw [entryText?, entryText?, Value.jsonKey_iff.mp hkey, Value.jsonKey_iff.mp hkey',
          ih (hvalues pair hpair) (transGen_enclosing (.entry hd (List.of_mem_zip hpair).1) hv)
            (transGen_enclosing (.entry hd' (List.of_mem_zip hpair).2) hw), Option.bind_eq_bind,
          Option.bind_some, Option.bind_some, hescaped]

/-- Copies have one canonical form. -/
theorem canonical?_eq (hvw : h.SameUnits Value.JsonKey h' v w) :
    h.canonical? v = h'.canonical? w := by
  have htext : h.json? canonicalStyle v = h'.json? canonicalStyle w :=
    hvw.jsonWithin?_eq nofun nofun
  cases hvw with
  | null | bool b | int n => exact htext
  | float hxy =>
    have hquantity := Binary64.quantity_eq_of_text displayNames_legible hxy
    exact canonical?_congr_quantity h h' rfl (congrArg some hquantity.symm)
  | text hs hs' hunits =>
    rw [canonical?_text h hs, canonical?_text h' hs', Text.escaped_eq_iff.mpr hunits]
  | sequence hs hs' _ _ =>
    obtain ⟨a, rfl⟩ := exists_ref_of_sequence? hs
    obtain ⟨b, rfl⟩ := exists_ref_of_sequence? hs'
    exact htext
  | dictionary hd hd' _ _ _ =>
    obtain ⟨a, rfl⟩ := exists_ref_of_mapping? (mapping?_of_dictionary? hd)
    obtain ⟨b, rfl⟩ := exists_ref_of_mapping? (mapping?_of_dictionary? hd')
    exact htext

end SameStructureUpTo

end Heap

/-! ### Graphs as literals see them -/

/-- A value has a canonical form if and only if it is not undefined, no list or dictionary that is
    reached from it contains itself, and everything that is reached is a plain scalar, a list, a
    tuple, or a dictionary with plain keys.  Sharing makes no difference: copies have one canonical
    form, however their objects are shared.  No literal accepts a value without a canonical form. -/
theorem canonical_forms_of_graphs {s : Session} {settings : Settings} {opts : Value}
    {options : Options} (hsettings : s.Settled settings) (hdepth : 0 < settings.maxDepth)
    (hopts : Options.coerce s.store.heap opts = .ok options)
    (hsink : options.logFailures = true → ∀ sink, options.sink = some sink → s.Harmless sink) :
    (∀ (h : Heap) (v : Value), h.CyclesAreMutable → (h.Acyclic v → h.NestsBelow 300 v) →
      ((h.canonical? v).isSome ↔
        v ≠ .undefined ∧ h.Acyclic v ∧ ∀ w, ReflTransGen h.HeldBy w v → h.Plain w)) ∧
    (∀ (h h' : Heap) (v w : Value), h.SameStructure Value.JsonKey h' v w →
      h.canonical? v = h'.canonical? w) ∧
    (∀ v, ¬ (v ≠ .undefined ∧ s.store.heap.Acyclic v ∧
        ∀ w, ReflTransGen s.store.heap.HeldBy w v → s.store.heap.Plain w) →
      ∀ constant canonical, ∃ t,
        run (.literal constant canonical) v opts s = .ok false t) := by
  refine ⟨fun h v hcycles hnests => Heap.isSome_canonical?_iff hcycles hnests,
    fun h h' v w hvw => (hvw.mono fun _ _ => congrArg Text.units).canonical?_eq,
    fun v hnone constant canonical => ?_⟩
  obtain ⟨verdict, t, hrun, hiff⟩ :=
    exists_literal_run hsettings hdepth hopts hsink constant canonical v
  obtain rfl : verdict = false := Bool.eq_false_iff.mpr fun htrue =>
    hnone (Heap.acyclic_of_canonical? (hiff.mp htrue))
  exact ⟨t, hrun⟩

/-- A pair that holds one list twice has a canonical form, which is that of a list of two copies of
    the list.  A list that contains itself is accepted by no literal. -/
theorem canonical_forms_of_graphs_of_shared_list :
    let s := Session.holding [.list [.str "a"], .tuple [.ref 0, .ref 0], .list [.str "a"],
      .list [.str "a"], .list [.ref 2, .ref 3], .list [.ref 5]] ⟨2, 16⟩
    let h := s.store.heap
    ((h.canonical? (.ref 1)).isSome ∧ h.CyclesAreMutable ∧ h.NestsBelow 300 (.ref 1) ∧
      h.Acyclic (.ref 1)) ∧
    h.canonical? (.ref 1) = h.canonical? (.ref 4) ∧
    ∃ t, run (.literal .null "null") (.ref 5) .null s = .ok false t := by
  intro s h
  have hopts : Options.coerce s.store.heap .null = .ok .usual := rfl
  obtain ⟨hform, hcopies, hrefused⟩ :=
    canonical_forms_of_graphs (.inl rfl) (by decide) hopts nofun
  have hcycles : h.CyclesAreMutable := by
    refine .of_late fun a items hcell b hb => ?_
    -- the pair at address 1 is the only tuple
    have ha : a = 1 ∧ items = [.ref 0, .ref 0] := by
      rcases a with _ | _ | _ | _ | _ | _ | a
      · cases hcell
      · exact ⟨rfl, (Cell.tuple.inj hcell).symm⟩
      · cases hcell
      · cases hcell
      · cases hcell
      · cases hcell
      · simp [h, s, Session.holding, Heap.cell] at hcell
    obtain ⟨rfl, rfl⟩ := ha
    obtain rfl : b = 0 := by simpa using hb
    decide
  have hinner : h.NestsBelow 299 (.ref 0) :=
    Heap.nestsBelow_sequence rfl fun item hitem => by
      rw [List.mem_singleton.mp hitem]
      exact Heap.nestsBelow_scalar rfl
  have hnests : h.NestsBelow 300 (.ref 1) :=
    Heap.nestsBelow_sequence rfl fun item hitem => by
      obtain rfl : item = .ref 0 := by simpa using hitem
      exact hinner
  refine ⟨?_, ?_, ?_⟩
  · have hsome : (h.canonical? (.ref 1)).isSome := by decide +kernel
    exact ⟨hsome, hcycles, hnests, ((hform h (.ref 1) hcycles fun _ => hnests).mp hsome).2.1⟩
  · have hcopy (a : Addr) (ha : h.sequence? (.ref a) = some [.str "a"]) :
        h.SameStructure Value.JsonKey h (.ref 0) (.ref a) :=
      .sequence rfl ha rfl fun pair hpair => by
        rw [List.mem_singleton.mp hpair]
        exact .text rfl rfl rfl
    refine hcopies h h _ _ (.sequence rfl rfl rfl fun pair hpair => ?_)
    have hpair' : pair = (.ref 0, .ref 2) ∨ pair = (.ref 0, .ref 3) := by simpa using hpair
    rcases hpair' with rfl | rfl
    · exact hcopy 2 rfl
    · exact hcopy 3 rfl
  · refine hrefused (.ref 5) ?_ .null "null"
    rintro ⟨-, hacyclic, -⟩
    exact hacyclic (.ref 5) .refl rfl (.single (.item rfl (List.mem_singleton.mpr rfl)))

end Conform
