import Conform.Proofs.Structure

namespace Conform

/-!
# Canonical forms read back

The canonical form of a container tells its structure, as far as UTF-16 units tell strings.  A text is
read from its start: a string ends at the first quote that is not escaped, a word or a numeral in front
of the first code point that it cannot have, and a container with its last part; what follows is left
over for the next part.  So a string may contain whatever it likes, it is never taken for structure.

* `isWord`, `Ends` — where words and numerals end;
* `Readable` — texts that tell what they were written for, whatever follows them;
* `Readable.brackets` — so do lists of such texts between brackets;
* `Heap.readable_jsonWithin?` — and the texts of values, on all levels;
* `Heap.canonical?_eq_iff_sameUnits` — a value has the canonical form of a container if and only if it
  has the same structure, as far as units tell.
-/

open Relation

variable {α β : Type}

/-! ### Where a text ends -/

/-- The code points of words and of numerals. -/
def isWord (c : CodePoint) : Bool :=
  (0x30 ≤ c.val && c.val ≤ 0x39) || (0x41 ≤ c.val && c.val ≤ 0x5a) ||
    (0x61 ≤ c.val && c.val ≤ 0x7a) || c == '.' || c == '+' || c == '-'

theorem isWord_of_isNumeric {c : Char} (h : Numeral.isNumeric c = true) : isWord c = true := by
  simp only [Numeral.isNumeric, Bool.or_eq_true, beq_iff_eq] at h
  obtain (((hdigit | rfl) | rfl) | rfl) | rfl := h
  · have hrange := CodePoint.val_of_isDigit hdigit
    simp only [isWord, Bool.or_eq_true, Bool.and_eq_true, decide_eq_true_eq]
    omega
  all_goals decide

/-- A word or a numeral, which is not empty. -/
def IsWord (s : Text) : Prop := s ≠ [] ∧ ∀ c ∈ s, isWord c = true

instance (s : Text) : Decidable (IsWord s) :=
  decidable_of_iff (s ≠ [] ∧ s.all isWord = true) (and_congr_right fun _ => List.all_eq_true)

/-- Numerals are words. -/
theorem isWord_ofString {s : String} (hne : s.toList ≠ []) (h : Numeral.Numeric s) :
    IsWord (Text.ofString s) := by
  refine ⟨fun hempty => hne (List.map_eq_nil_iff.mp hempty), fun c hc => ?_⟩
  obtain ⟨char, hchar, rfl⟩ := List.mem_map.mp hc
  exact isWord_of_isNumeric (h char hchar)

/-- The brackets at the end of a container. -/
def isClosing (c : CodePoint) : Bool := c == ']' || c == '\x7d'

/-- What follows does not carry on a word or a numeral. -/
def Ends (rest : Text) : Prop := ∀ c, rest.head? = some c → isWord c = false

/-- Words are read as far as they go. -/
theorem word_append_injective {l l' rest rest' : Text} (hl : ∀ c ∈ l, isWord c = true)
    (hl' : ∀ c ∈ l', isWord c = true) (hrest : Ends rest) (hrest' : Ends rest')
    (h : l ++ rest = l' ++ rest') : l = l' ∧ rest = rest' := by
  have word {l rest : Text} (hl : ∀ c ∈ l, isWord c = true) (hrest : Ends rest) :
      (l ++ rest).takeWhile isWord = l := by
    rw [List.takeWhile_append_of_pos hl]
    cases rest with
    | nil => rw [List.takeWhile_nil, List.append_nil]
    | cons c rest =>
      rw [List.takeWhile_cons, hrest c rfl, if_neg Bool.false_ne_true, List.append_nil]
  obtain rfl : l = l' := by rw [← word hl hrest, h, word hl' hrest']
  exact ⟨rfl, List.append_cancel_left h⟩

/-! ### Readable texts -/

/-- From the texts of two functions it can be read whether what they were written for is related,
    and what follows them can be told as well. -/
def Readable (R : α → β → Prop) (f : α → Option Text) (g : β → Option Text) : Prop :=
  ∀ ⦃a b t u⦄, f a = some t → g b = some u → ∀ ⦃rest rest'⦄, Ends rest → Ends rest' →
    t ++ rest = u ++ rest' → R a b ∧ rest = rest'

/-- No text starts with a bracket at the end of a container; in particular none is empty. -/
def Opens (f : α → Option Text) : Prop :=
  ∀ ⦃a t⦄, f a = some t → ∃ c rest, t = c :: rest ∧ isClosing c = false

/-- Texts that each stand behind a comma. -/
def behindCommas (parts : List Text) : Text := parts.flatMap fun text => (',' : CodePoint) :: text

theorem behindCommas_cons (part : Text) (parts : List Text) :
    behindCommas (part :: parts) = (',' : CodePoint) :: (part ++ behindCommas parts) :=
  List.flatMap_cons

/-- Texts with commas between them: behind the first one, each stands behind a comma. -/
theorem intercalate_comma (part : Text) (parts : List Text) :
    List.intercalate Heap.canonicalStyle.comma (part :: parts) = part ++ behindCommas parts := by
  induction parts generalizing part with
  | nil => simp [behindCommas]
  | cons next parts ih =>
    rw [List.intercalate_cons_cons, ih, behindCommas_cons, List.append_assoc]
    rfl

theorem ends_of_isClosing {close : CodePoint} (hclose : isClosing close = true) (rest : Text) :
    Ends (close :: rest) := by
  rintro c hc
  obtain rfl := Option.some.inj hc
  simp only [isClosing, Bool.or_eq_true, beq_iff_eq] at hclose
  rcases hclose with rfl | rfl <;> rfl

/-- What follows a part of a list, be it the next part or the end. -/
theorem ends_behind {close : CodePoint} (hclose : isClosing close = true) (parts : List Text)
    (rest : Text) : Ends (behindCommas parts ++ close :: rest) := by
  cases parts with
  | nil => exact ends_of_isClosing hclose rest
  | cons part parts =>
    intro c hc
    obtain rfl := Option.some.inj hc
    rfl

namespace Readable

variable {R : α → β → Prop} {f : α → Option Text} {g : β → Option Text} {close : CodePoint}
  {l : List α} {l' : List β} {parts parts' : List Text} {rest rest' : Text}

/-- Behind the first part of a list, the others are read in turn up to the bracket. -/
theorem behind (hread : Readable R f g) (hclose : isClosing close = true)
    (hparts : List.Forall₂ (fun a t => f a = some t) l parts)
    (hparts' : List.Forall₂ (fun b t => g b = some t) l' parts')
    (h : behindCommas parts ++ close :: rest = behindCommas parts' ++ close :: rest') :
    List.Forall₂ R l l' ∧ rest = rest' := by
  have not_comma {part : Text} {parts : List Text} {rest rest' : Text} :
      close :: rest ≠ behindCommas (part :: parts) ++ rest' := by
    rw [behindCommas_cons]
    intro hcons
    rw [(List.cons.inj hcons).1] at hclose
    cases hclose
  induction hparts generalizing l' parts' with
  | nil =>
    cases hparts' with
    | nil => exact ⟨.nil, (List.cons.inj h).2⟩
    | cons _ _ => exact absurd h not_comma
  | @cons a part l parts ha hl ih =>
    cases hparts' with
    | nil => exact absurd h.symm not_comma
    | @cons b part' l' parts' hb hl' =>
      rw [behindCommas_cons, behindCommas_cons, List.cons_append, List.cons_append,
        List.append_assoc, List.append_assoc] at h
      -- commas are no part of an item, so that both sides read the same first item
      obtain ⟨hab, hrest⟩ := hread ha hb (ends_behind hclose parts rest)
        (ends_behind hclose parts' rest') (List.cons.inj h).2
      obtain ⟨hothers, hend⟩ := ih hl' hrest
      exact ⟨.cons hab hothers, hend⟩

/-- A list of texts is read up to the bracket.  That it is empty is seen from the bracket, with
    which no text starts. -/
theorem brackets (hread : Readable R f g) (hf : Opens f) (hg : Opens g)
    (hclose : isClosing close = true) (hparts : l.mapM f = some parts)
    (hparts' : l'.mapM g = some parts')
    (h : List.intercalate Heap.canonicalStyle.comma parts ++ close :: rest =
      List.intercalate Heap.canonicalStyle.comma parts' ++ close :: rest') :
    List.Forall₂ R l l' ∧ rest = rest' := by
  -- no item starts like the end of the list
  have not_closing {c : CodePoint} {others rest rest' : Text} (hc : isClosing c = false) :
      close :: rest ≠ c :: others ++ rest' := by
    intro hcons
    rw [(List.cons.inj hcons).1, hc] at hclose
    cases hclose
  cases mapM_eq_some_iff.mp hparts with
  | nil =>
    cases mapM_eq_some_iff.mp hparts' with
    | nil => exact ⟨.nil, (List.cons.inj h).2⟩
    | @cons b part' l' parts' hb _ =>
      obtain ⟨c, others, hpart, hc⟩ := hg hb
      rw [intercalate_comma, hpart, List.cons_append] at h
      exact absurd h (not_closing hc)
  | @cons a part l parts ha hl =>
    cases mapM_eq_some_iff.mp hparts' with
    | nil =>
      obtain ⟨c, others, hpart, hc⟩ := hf ha
      rw [intercalate_comma, hpart, List.cons_append] at h
      exact absurd h.symm (not_closing hc)
    | @cons b part' l' parts' hb hl' =>
      rw [intercalate_comma, intercalate_comma, List.append_assoc,
        List.append_assoc] at h
      -- the first items end at the same place, and the induction is on what stands behind them
      obtain ⟨hab, hrest⟩ := hread ha hb (ends_behind hclose parts rest)
        (ends_behind hclose parts' rest') h
      obtain ⟨hothers, hend⟩ := hread.behind hclose hl hl' hrest
      exact ⟨.cons hab hothers, hend⟩

end Readable

/-! ### Scalars -/

theorem Binary64.isWord_text (x : Binary64) : IsWord (x.text jsonNames) := by
  by_cases hfinite : x.isFinite = true
  · refine isWord_ofString ?_ ((numeric_text_iff jsonNames_legible).mpr hfinite)
    obtain ⟨numeral, htext, ⟨c, rest, hchars, -⟩, -⟩ := Numeral.exists_finiteText hfinite
    rw [text_of_isFinite hfinite, htext, String.toList_append, hchars]
    exact List.append_ne_nil_of_right_ne_nil _ (List.cons_ne_nil c rest)
  · by_cases hnan : x.isNaN = true
    · rw [text_of_isNaN hnan]
      decide
    · rw [text_of_infinity hfinite hnan]
      cases x.isNegative <;> decide

/-- The kind of a float's text, inside of a container. -/
theorem Binary64.kind_text (x : Binary64) :
    TextKind.of (x.text jsonNames) = .broken ∨ TextKind.of (x.text jsonNames) = .nan ∨
      TextKind.of (x.text jsonNames) = .infinite := by
  by_cases hfinite : x.isFinite = true
  · obtain ⟨numeral, htext, hdigit, hmarked, -⟩ := Numeral.exists_finiteText hfinite
    rw [text_of_isFinite hfinite, htext, Text.ofString, String.toList_append, Numeral.toList_sign,
      TextKind.of_numeral _ hdigit, if_pos hmarked]
    exact .inl rfl
  · by_cases hnan : x.isNaN = true
    · rw [text_of_isNaN hnan]
      exact .inr (.inl rfl)
    · rw [text_of_infinity hfinite hnan]
      cases x.isNegative <;> exact .inr (.inr rfl)

namespace Value

variable {v w : Value} {t u : Text}

theorem isScalar_of_scalarText? (ht : v.scalarText? = some t) : v.isScalar = true :=
  (isSome_scalarText?_iff.mp (Option.isSome_iff_exists.mpr ⟨t, ht⟩)).1

/-- The text of a scalar is a JSON string, or a word or a numeral. -/
theorem string_or_word (ht : v.scalarText? = some t) :
    (∃ s, v.text? = some s ∧ t = Text.escaped .ascii s) ∨ IsWord t := by
  cases v with
  | null =>
    obtain rfl := Option.some.inj ht
    exact .inr (by decide)
  | bool b =>
    obtain rfl := Option.some.inj ht
    exact .inr (by cases b <;> decide)
  | int n =>
    rw [scalarText?] at ht
    obtain rfl := Heap.eq_toString_of_integerText ht
    refine .inr (isWord_ofString ?_ (Numeral.numeric_integer n))
    -- a numeral has a digit at least
    obtain ⟨c, rest, hdigits, -⟩ := Numeral.startsWithDigit_toDigits n.natAbs
    rw [Numeral.toList_integer, hdigits]
    exact List.append_ne_nil_of_right_ne_nil _ (List.cons_ne_nil c rest)
  | float x =>
    obtain rfl := Option.some.inj ht
    exact .inr x.isWord_text
  | str s | code c =>
    obtain rfl := Option.some.inj ht
    exact .inl ⟨_, rfl, rfl⟩
  | _ => cases ht

/-- But for floats, a scalar has the same text on its own and inside of a container. -/
theorem exists_scribed_of_scalarText? (hv : ∀ x, v ≠ .float x) (ht : v.scalarText? = some t) :
    ∃ kind, Scribed kind v t ∧ kind ≠ .broken ∧ kind ≠ .nan ∧ kind ≠ .infinite := by
  have hcanonical : Heap.empty.canonical? v = some t := by
    cases v with
    | null | bool _ | int _ | str _ | code _ => exact ht
    | float x => exact absurd rfl (hv x)
    | _ => cases ht
  have not_quantity {q : Quantity} (hq : v.quantity? = some q) : ∃ n : Int, q = .exact n := by
    cases v with
    | int n => exact ⟨n, (Option.some.inj hq).symm⟩
    | float x => exact absurd rfl (hv x)
    | _ => cases hq
  obtain ⟨kind, hscribed⟩ := Heap.exists_scribed (isScalar_of_scalarText? ht) hcanonical
  refine ⟨kind, hscribed, ?_⟩
  cases hscribed with
  | null | bool _ | text _ | whole _ => exact ⟨nofun, nofun, nofun⟩
  | nan hq | infinite hq => exact absurd (not_quantity hq) nofun
  | broken _ _ => exact absurd rfl (hv _)

/-- Scalars of one text are the same, as far as units tell; an integer is never taken for a float. -/
theorem sameUnits_of_scalarText? {h h' : Heap} {key : Value → Text → Prop}
    (hv : v.scalarText? = some t) (hw : w.scalarText? = some t) : h.SameUnits key h' v w := by
  -- a float has a broken number or one of the three names as its text, which nothing else has
  have not_float {v : Value} {x : Binary64} (hv : ∀ x, v ≠ .float x)
      (ht : v.scalarText? = some t) (hx : Value.scalarText? (.float x) = some t) : False := by
    obtain ⟨kind, hscribed, hbroken, hnan, hinfinite⟩ := exists_scribed_of_scalarText? hv ht
    have hkind := x.kind_text
    rw [Option.some.inj hx, hscribed.kind_eq] at hkind
    rcases hkind with rfl | rfl | rfl <;> contradiction
  by_cases hvfloat : ∃ x, v = .float x <;> by_cases hwfloat : ∃ y, w = .float y
  · obtain ⟨x, rfl⟩ := hvfloat
    obtain ⟨y, rfl⟩ := hwfloat
    refine .float ((Binary64.text_congr jsonNames_legible displayNames_legible).mp ?_)
    exact Text.ofString_injective ((Option.some.inj hv).trans (Option.some.inj hw).symm)
  · obtain ⟨x, rfl⟩ := hvfloat
    exact (not_float (fun y hy => hwfloat ⟨y, hy⟩) hw hv).elim
  · obtain ⟨y, rfl⟩ := hwfloat
    exact (not_float (fun x hx => hvfloat ⟨x, hx⟩) hv hw).elim
  · obtain ⟨_, hscribed, -⟩ := exists_scribed_of_scalarText? (fun x hx => hvfloat ⟨x, hx⟩) hv
    obtain ⟨_, hscribed', -⟩ := exists_scribed_of_scalarText? (fun y hy => hwfloat ⟨y, hy⟩) hw
    cases hscribed.same hscribed' with
    | null => exact .null
    | bool b => exact .bool b
    | text hs hs' hunits => exact .text hs hs' hunits
    | @number _ _ q hq hq' =>
      cases v with
      | int m =>
        cases w with
        | int n =>
          have hmn : m = n := by
            have hexact := Quantity.exact.inj (Option.some.inj (hq.trans hq'.symm))
            exact_mod_cast hexact
          rw [hmn]
          exact .int n
        | float y => exact absurd ⟨y, rfl⟩ hwfloat
        | _ => cases hq'
      | float x => exact absurd ⟨x, rfl⟩ hvfloat
      | _ => cases hq

/-- Scalars are read as far as their texts go. -/
theorem readable_scalarText? (h h' : Heap) (key : Value → Text → Prop) :
    Readable (h.SameUnits key h') scalarText? scalarText? := by
  intro v w t u hv hw rest rest' hrest hrest' htexts
  have not_quote {s l rest rest' : Text} (hl : l ≠ []) (hword : ∀ c ∈ l, isWord c = true) :
      Text.escaped .ascii s ++ rest ≠ l ++ rest' := by
    intro heq
    obtain ⟨c, others, rfl⟩ := List.exists_cons_of_ne_nil hl
    have hc := hword c List.mem_cons_self
    rw [← (List.cons.inj heq).1] at hc
    exact absurd hc (by decide)
  rcases string_or_word hv with ⟨s, hs, rfl⟩ | ⟨ht, hword⟩ <;>
    rcases string_or_word hw with ⟨s', hs', rfl⟩ | ⟨hu, hword'⟩
  · obtain ⟨hunits, hrest⟩ := Text.escaped_append_injective htexts
    exact ⟨.text hs hs' hunits, hrest⟩
  · exact absurd htexts (not_quote hu hword')
  · exact absurd htexts.symm (not_quote ht hword)
  · obtain ⟨rfl, hrest⟩ := word_append_injective hword hword' hrest hrest' htexts
    exact ⟨sameUnits_of_scalarText? hv hw, hrest⟩

end Value

namespace Heap

/-! ### Containers -/

variable {h h' : Heap} {inner inner' : Value → Option Text} {v w : Value} {t u : Text}

theorem exists_parts_of_jsonArray? {items : List Value}
    (ht : jsonArray? canonicalStyle inner items = some t) :
    ∃ parts, items.mapM inner = some parts ∧
      t = ('[' : CodePoint) :: (List.intercalate canonicalStyle.comma parts ++ [(']' : CodePoint)]) := by
  rw [jsonArray?_eq] at ht
  obtain ⟨parts, hparts, rfl⟩ := Option.map_eq_some_iff.mp ht
  exact ⟨parts, hparts, rfl⟩

theorem exists_parts_of_jsonObject? {entries : List (Value × Value)}
    (ht : jsonObject? canonicalStyle inner entries = some t) :
    ∃ parts, entries.mapM (entryText? canonicalStyle inner) = some parts ∧
      t = ('\x7b' : CodePoint) ::
        (List.intercalate canonicalStyle.comma parts ++ [('\x7d' : CodePoint)]) := by
  rw [jsonObject?_eq] at ht
  obtain ⟨parts, hparts, rfl⟩ := Option.map_eq_some_iff.mp ht
  exact ⟨parts, hparts, rfl⟩

/-- The text of an entry: a JSON string, a colon, and the text of the value. -/
theorem exists_of_entryText? {entry : Value × Value}
    (ht : entryText? canonicalStyle inner entry = some t) :
    ∃ key value, entry.1.JsonKey key ∧ inner entry.2 = some value ∧
      t = Text.escaped .ascii key ++ (':' : CodePoint) :: value := by
  obtain ⟨key, hkey, ht⟩ := Option.bind_eq_some_iff.mp ht
  obtain ⟨value, hvalue, ht⟩ := Option.bind_eq_some_iff.mp ht
  obtain rfl := Option.some.inj ht
  refine ⟨key, value, Value.jsonKey_iff.mpr hkey, hvalue, ?_⟩
  exact List.append_assoc _ _ _

theorem opens_entryText? : Opens (entryText? canonicalStyle inner) := by
  intro entry t ht
  obtain ⟨key, value, -, -, htext⟩ := exists_of_entryText? ht
  exact ⟨_, _, htext, by decide⟩

/-- A scalar starts with a quote or with a code point of a word. -/
theorem exists_first_of_scalarText? (ht : v.scalarText? = some t) :
    ∃ c rest, t = c :: rest ∧ (c = ('"' : CodePoint) ∨ isWord c = true) := by
  rcases Value.string_or_word ht with ⟨s, -, rfl⟩ | ⟨hne, hword⟩
  · exact ⟨_, _, rfl, .inl rfl⟩
  · obtain ⟨c, rest, hchars⟩ := List.exists_cons_of_ne_nil hne
    exact ⟨c, rest, hchars, .inr (hword c (by rw [hchars]; exact List.mem_cons_self))⟩

theorem Written.opens (ht : h.Written inner v t) :
    ∃ c rest, t = c :: rest ∧ isClosing c = false := by
  cases ht with
  | scalar ht =>
    obtain ⟨c, rest, hchars, hc⟩ := exists_first_of_scalarText? ht
    refine ⟨c, rest, hchars, Bool.eq_false_iff.mpr fun hclosing => ?_⟩
    simp only [isClosing, Bool.or_eq_true, beq_iff_eq] at hclosing
    rcases hclosing with rfl | rfl <;> exact hc.elim (by decide) (by decide)
  | sequence _ ht =>
    obtain ⟨parts, -, htext⟩ := exists_parts_of_jsonArray? ht
    exact ⟨_, _, htext, by decide⟩
  | dictionary _ ht =>
    obtain ⟨parts, -, htext⟩ := exists_parts_of_jsonObject? ht
    exact ⟨_, _, htext, by decide⟩

/-- The entries of dictionaries are read by their keys, and by their values behind the colon. -/
theorem readable_entryText? (hread : Readable (h.SameUnits Value.JsonKey h') inner inner') :
    Readable (fun entry entry' : Value × Value =>
      (∃ s t, entry.1.JsonKey s ∧ entry'.1.JsonKey t ∧ s.SameUnits t) ∧
        h.SameUnits Value.JsonKey h' entry.2 entry'.2)
      (entryText? canonicalStyle inner) (entryText? canonicalStyle inner') := by
  intro entry entry' t u ht hu rest rest' hrest hrest' hchars
  obtain ⟨key, value, hkey, hvalue, htext⟩ := exists_of_entryText? ht
  obtain ⟨key', value', hkey', hvalue', htext'⟩ := exists_of_entryText? hu
  rw [htext, htext', List.append_assoc, List.append_assoc, List.cons_append,
    List.cons_append] at hchars
  obtain ⟨hunits, hbehind⟩ := Text.escaped_append_injective hchars
  obtain ⟨hsame, hend⟩ := hread hvalue hvalue' hrest hrest' (List.cons.inj hbehind).2
  exact ⟨⟨⟨key, key', hkey, hkey', hunits⟩, hsame⟩, hend⟩

/-- A scalar's text does not start with a bracket, which tells it from a container. -/
theorem scalarText?_not_bracket {bracket : CodePoint} {inside rest rest' : Text}
    (ht : v.scalarText? = some t)
    (hbracket : bracket = ('[' : CodePoint) ∨ bracket = ('\x7b' : CodePoint)) :
    t ++ rest ≠ bracket :: inside ++ rest' := by
  intro heq
  obtain ⟨c, others, rfl, hc⟩ := exists_first_of_scalarText? ht
  rw [List.cons_append, List.cons_append] at heq
  rw [(List.cons.inj heq).1] at hc
  rcases hbracket with rfl | rfl <;> exact hc.elim (by decide) (by decide)

/-- One level: what kind of value it is shows in the first character, and the parts of a container
    are read in turn. -/
theorem Written.readable (hread : Readable (h.SameUnits Value.JsonKey h') inner inner')
    (hopen : Opens inner) (hopen' : Opens inner') (hv : h.Written inner v t)
    (hw : h'.Written inner' w u) {rest rest' : Text} (hrest : Ends rest) (hrest' : Ends rest')
    (hchars : t ++ rest = u ++ rest') : h.SameUnits Value.JsonKey h' v w ∧ rest = rest' := by
  -- a word or a quote, `[` and `{` come first in texts of different kinds, so that only the cases of
  -- one kind on both sides are left
  cases hv with
  | scalar ht =>
    cases hw with
    | scalar hu => exact Value.readable_scalarText? h h' Value.JsonKey ht hu hrest hrest' hchars
    | sequence _ hu =>
      obtain ⟨parts', -, hu⟩ := exists_parts_of_jsonArray? hu
      rw [hu] at hchars
      exact absurd hchars (scalarText?_not_bracket ht (.inl rfl))
    | dictionary _ hu =>
      obtain ⟨parts', -, hu⟩ := exists_parts_of_jsonObject? hu
      rw [hu] at hchars
      exact absurd hchars (scalarText?_not_bracket ht (.inr rfl))
  | sequence hs ht =>
    obtain ⟨parts, hparts, ht⟩ := exists_parts_of_jsonArray? ht
    rw [ht] at hchars
    cases hw with
    | scalar hu => exact absurd hchars.symm (scalarText?_not_bracket hu (.inl rfl))
    | sequence hs' hu =>
      obtain ⟨parts', hparts', hu⟩ := exists_parts_of_jsonArray? hu
      rw [hu, List.cons_append, List.cons_append, List.append_assoc, List.append_assoc] at hchars
      have hclose : isClosing (']' : CodePoint) = true := by decide
      obtain ⟨hitems, hend⟩ := hread.brackets hopen hopen' hclose hparts hparts'
        (List.cons.inj hchars).2
      obtain ⟨hlength, hitems⟩ := List.forall₂_iff_zip.mp hitems
      exact ⟨.sequence hs hs' hlength fun pair hpair => hitems hpair, hend⟩
    | dictionary _ hu =>
      obtain ⟨parts', -, hu⟩ := exists_parts_of_jsonObject? hu
      rw [hu] at hchars
      exact absurd (List.cons.inj hchars).1 (by decide)
  | dictionary hd ht =>
    obtain ⟨parts, hparts, ht⟩ := exists_parts_of_jsonObject? ht
    rw [ht] at hchars
    cases hw with
    | scalar hu => exact absurd hchars.symm (scalarText?_not_bracket hu (.inr rfl))
    | sequence _ hu =>
      obtain ⟨parts', -, hu⟩ := exists_parts_of_jsonArray? hu
      rw [hu] at hchars
      exact absurd (List.cons.inj hchars).1 (by decide)
    | dictionary hd' hu =>
      obtain ⟨parts', hparts', hu⟩ := exists_parts_of_jsonObject? hu
      rw [hu, List.cons_append, List.cons_append, List.append_assoc, List.append_assoc] at hchars
      have hclose : isClosing ('\x7d' : CodePoint) = true := by decide
      obtain ⟨hentries, hend⟩ := (readable_entryText? hread).brackets opens_entryText?
        opens_entryText? hclose hparts hparts' (List.cons.inj hchars).2
      obtain ⟨hlength, hentries⟩ := List.forall₂_iff_zip.mp hentries
      exact ⟨.dictionary hd hd' hlength (fun pair hpair => (hentries hpair).1)
        fun pair hpair => (hentries hpair).2, hend⟩

/-! ### All levels -/

theorem opens_jsonWithin? (h : Heap) (fuel : Nat) (enclosing : List Addr) :
    Opens (h.jsonWithin? canonicalStyle fuel enclosing) := by
  intro v t ht
  cases fuel with
  | zero => cases ht
  | succ fuel =>
    obtain ⟨enclosing', hwritten⟩ := exists_written ht
    exact hwritten.opens

/-- The texts of values are read on all levels, on whatever ways they were reached. -/
theorem readable_jsonWithin? (h h' : Heap) (fuel fuel' : Nat) (enclosing enclosing' : List Addr) :
    Readable (h.SameUnits Value.JsonKey h') (h.jsonWithin? canonicalStyle fuel enclosing)
      (h'.jsonWithin? canonicalStyle fuel' enclosing') := by
  induction fuel generalizing fuel' enclosing enclosing' with
  | zero =>
    intro v w t u hv
    cases hv
  | succ fuel ih =>
    intro v w t u hv hw rest rest' hrest hrest' hchars
    cases fuel' with
    | zero => cases hw
    | succ fuel' =>
      obtain ⟨below, hwritten⟩ := exists_written hv
      obtain ⟨below', hwritten'⟩ := exists_written hw
      exact hwritten.readable (ih fuel' below below') (opens_jsonWithin? h fuel below)
        (opens_jsonWithin? h' fuel' below') hwritten' hrest hrest' hchars

/-- Lists, tuples and dictionaries. -/
def IsContainer (h : Heap) (v : Value) : Prop :=
  (h.sequence? v).isSome ∨ (h.dictionary? v).isSome

/-- No two containers of different structure have one canonical form. -/
theorem sameUnits_of_canonical? (hw : h'.IsContainer w) (ht : h.canonical? v = some t)
    (hu : h'.canonical? w = some t) : h.SameUnits Value.JsonKey h' v w := by
  obtain ⟨a, rfl⟩ : ∃ a, w = .ref a := by
    rcases hw with hs | hd
    · obtain ⟨items, hs⟩ := Option.isSome_iff_exists.mp hs
      exact exists_ref_of_sequence? hs
    · obtain ⟨entries, hd⟩ := Option.isSome_iff_exists.mp hd
      exact exists_ref_of_mapping? (mapping?_of_dictionary? hd)
  -- the text is that of a container, so that the other value is none but a container
  have hkind : TextKind.of t = .container := container_of_canonical? rfl hu
  have hscalar : v.isScalar = false := by
    by_contra hscalar
    obtain ⟨kind, hscribed⟩ := exists_scribed (by simpa using hscalar) ht
    obtain rfl := hscribed.kind_eq.symm.trans hkind
    cases hscribed
  have htext : h.json? canonicalStyle v = some t := by
    cases v with
    | ref a => exact ht
    | undefined | bytes _ | type _ | builtin _ => cases ht
    | _ => cases hscalar
  have htext' : h'.json? canonicalStyle (.ref a) = some t := hu
  have hread := readable_jsonWithin? h h' nestingLimit nestingLimit [] []
  have hends : Ends [] := nofun
  exact (hread htext htext' hends hends rfl).1

/-- A value has the canonical form of a container if and only if it has the same structure, as far as
    units tell. -/
theorem canonical?_eq_iff_sameUnits (hw : h'.IsContainer w) (hu : h'.canonical? w = some u) :
    h.canonical? v = some u ↔ h.SameUnits Value.JsonKey h' v w := by
  constructor
  · exact fun ht => sameUnits_of_canonical? hw ht hu
  · intro hvw
    rw [hvw.canonical?_eq, hu]

end Heap

end Conform
