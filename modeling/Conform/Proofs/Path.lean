import Conform.Rejection

namespace Conform

/-!
# Paths

A path is read back as the list of segments that it was written for, as long as field names are
strings without a dot or an opening bracket in them.

* `Label.Simple`, `Segment.Simple` — names and segments whose text can be told from what
  follows;
* `trailText` — the text of a trail, of which a path is the part behind the dots in front;
* `Segment.before` — the path that continues a segment;
* `pathText_cons` — the path of a longer trail, from that of the shorter one;
* `pathText_injective` — no two trails have the same path.
-/

/-! ### Simple names -/

/-- A code point that starts a segment. -/
def startsSegment (c : CodePoint) : Bool := c = '.' ∨ c = '['

/-- A string that is not empty and in which no segment starts. -/
def Label.Simple : Label → Prop
  | .plain s => s ≠ [] ∧ ∀ c ∈ s, startsSegment c = false
  | .code _ => False

instance : DecidablePred Label.Simple
  | .plain s =>
    have hpoints : Decidable (∀ c ∈ s, startsSegment c = false) := List.decidableBAll _ _
    @instDecidableAnd (s ≠ []) _ inferInstance hpoints
  | .code _ => instDecidableFalse

/-- A segment whose name, if it has one, is simple. -/
def Segment.Simple : Segment → Prop
  | .field name => name.Simple
  | .index _ => True

/-- A simple name has a first code point, in which no segment starts. -/
theorem Label.Simple.exists_cons {name : Label} (h : name.Simple) :
    ∃ c cs, name.inline = c :: cs ∧ c ≠ '.' ∧ c ≠ '[' := by
  cases name with
  | code code => exact h.elim
  | plain s =>
    obtain ⟨hne, hs⟩ := h
    cases s with
    | nil => exact absurd rfl hne
    | cons c cs =>
      have hc : startsSegment c = false := hs c List.mem_cons_self
      have hnot := of_decide_eq_false hc
      exact ⟨c, cs, rfl, fun h => hnot (.inl h), fun h => hnot (.inr h)⟩

namespace Segment

/-! ### The text of a segment -/

/-- The code point that a segment starts with. -/
def start : Segment → CodePoint
  | .field _ => '.'
  | .index _ => '['

/-- The text of a segment behind its start. -/
def body : Segment → Text
  | .field name => name.inline
  | .index i => toString i ++ "]"

theorem text_eq (segment : Segment) : segment.text = segment.start :: segment.body := by
  cases segment <;> rfl

theorem startsSegment_start (segment : Segment) : startsSegment segment.start = true := by
  cases segment <;> rfl

theorem toString_toList (i : Nat) : (toString i).toList = Nat.toDigits 10 i := by
  rw [Nat.toString_eq_ofList_toDigits, String.toList_ofList]

theorem ofString_toString (i : Nat) :
    Text.ofString (toString i) = Text.ofChars (Nat.toDigits 10 i) := by
  rw [Text.ofString, toString_toList]

theorem startsSegment_of_mem_body {segment : Segment} (h : segment.Simple) {c : CodePoint}
    (hc : c ∈ segment.body) : startsSegment c = false := by
  cases segment with
  | field name =>
    cases name with
    | plain s => exact h.2 c hc
    | code code => exact h.elim
  | index i =>
    -- digits, and a closing bracket
    rw [body, ofString_toString, List.mem_append] at hc
    rcases hc with hc | hc
    · obtain ⟨digit, hmem, rfl⟩ := List.mem_map.mp hc
      have hdigit := Nat.isDigit_of_mem_toDigits (by decide) (by decide) hmem
      apply Bool.eq_false_iff.mpr
      intro hstart
      rcases of_decide_eq_true hstart with hdot | hbracket
      · rw [CodePoint.ofChar_injective hdot] at hdigit
        exact absurd hdigit (by decide)
      · rw [CodePoint.ofChar_injective hbracket] at hdigit
        exact absurd hdigit (by decide)
    · obtain rfl := List.mem_singleton.mp hc
      rfl

/-- A segment is known by its text. -/
theorem eq_of_start_body {s t : Segment} (hs : s.Simple) (ht : t.Simple)
    (hstart : s.start = t.start) (hbody : s.body = t.body) : s = t := by
  cases s with
  | field name =>
    cases t with
    | field name' =>
      cases name with
      | code code => exact hs.elim
      | plain s =>
        cases name' with
        | code code => exact ht.elim
        | plain t =>
          have hst : s = t := hbody
          rw [hst]
    | index j => exact absurd hstart (show ('.' : CodePoint) ≠ '[' by decide)
  | index i =>
    cases t with
    | field name => exact absurd hstart (show ('[' : CodePoint) ≠ '.' by decide)
    | index j =>
      -- the digits of a number give the number back
      rw [body, body, List.append_cancel_right_eq, ofString_toString, ofString_toString] at hbody
      have hdigits := Text.ofChars_injective hbody
      have hij : i = j := by
        rw [← Nat.ofDigitChars_ten_toDigits (n := i), hdigits, Nat.ofDigitChars_ten_toDigits]
      rw [hij]

end Segment

/-! ### The text of a trail -/

/-- The text of segments, one after the other. -/
def trailText (trail : List Segment) : Text := trail.flatMap Segment.text

theorem trailText_cons (segment : Segment) (trail : List Segment) :
    trailText (segment :: trail) = segment.start :: (segment.body ++ trailText trail) := by
  rw [trailText, List.flatMap_cons, Segment.text_eq, List.cons_append, trailText]

theorem pathText_eq (trail : List Segment) :
    pathText trail = (trailText trail).dropWhile (· = ('.' : CodePoint)) := rfl

/-- The body of a segment ends where the next segment starts. -/
theorem takeWhile_trailText {segment : Segment} (h : segment.Simple) (trail : List Segment) :
    (segment.body ++ trailText trail).takeWhile (fun c => !startsSegment c) = segment.body := by
  rw [List.takeWhile_append_of_pos]
  · cases trail with
    | nil => simp [trailText]
    | cons next rest => simp [trailText_cons, Segment.startsSegment_start]
  · intro c hc
    simp [Segment.startsSegment_of_mem_body h hc]

/-- The segments can be read off from their text. -/
theorem trailText_injective {s t : List Segment} (hs : ∀ segment ∈ s, segment.Simple)
    (ht : ∀ segment ∈ t, segment.Simple) (h : trailText s = trailText t) : s = t := by
  induction s generalizing t with
  | nil =>
    cases t with
    | nil => rfl
    | cons b t =>
      rw [trailText_cons] at h
      cases h
  | cons a s ih =>
    cases t with
    | nil =>
      rw [trailText_cons] at h
      cases h
    | cons b t =>
      rw [trailText_cons, trailText_cons, List.cons.injEq] at h
      obtain ⟨hstart, hrest⟩ := h
      -- both trails have their first segment up to the code point that starts the next one
      have ha := hs a List.mem_cons_self
      have hb := ht b List.mem_cons_self
      have hbody : a.body = b.body := by
        rw [← takeWhile_trailText ha s, hrest, takeWhile_trailText hb t]
      rw [hbody, List.append_cancel_left_eq] at hrest
      have hst := ih (fun c hc => hs c (List.mem_cons_of_mem a hc))
        (fun c hc => ht c (List.mem_cons_of_mem b hc)) hrest
      rw [Segment.eq_of_start_body ha hb hstart hbody, hst]

/-! ### Dots in front -/

/-- A path as it goes on behind a segment: a name in front needs its dot. -/
def continued : Text → Text
  | [] => []
  | c :: rest => if c = ('[' : CodePoint) then c :: rest else '.' :: c :: rest

/-- Of a trail that starts with a name, only the dot of that name is dropped. -/
theorem continued_pathText {trail : List Segment} (h : ∀ segment ∈ trail, segment.Simple) :
    continued (pathText trail) = trailText trail := by
  cases trail with
  | nil => rfl
  | cons segment rest =>
    have hsegment : segment.Simple := h segment List.mem_cons_self
    rw [pathText_eq, trailText_cons]
    cases segment with
    | index i => rfl
    | field name =>
      obtain ⟨c, cs, hname, hdot, hbracket⟩ := Label.Simple.exists_cons hsegment
      simp [Segment.start, Segment.body, hname, hdot, hbracket, continued]

/-! ### Paths of trails -/

/-- Trails of simple segments with the same path are the same. -/
theorem pathText_injective {s t : List Segment} (hs : ∀ segment ∈ s, segment.Simple)
    (ht : ∀ segment ∈ t, segment.Simple) (h : pathText s = pathText t) : s = t := by
  apply trailText_injective hs ht
  rw [← continued_pathText hs, ← continued_pathText ht, h]

/-- The path of a value behind a segment, from the path inside of that value. -/
def Segment.before (segment : Segment) (path : Text) : Text :=
  match segment with
  | .field name => name.inline ++ continued path
  | .index i => "[" ++ toString i ++ "]" ++ continued path

theorem pathText_cons {segment : Segment} {trail : List Segment}
    (h : ∀ s ∈ segment :: trail, s.Simple) :
    pathText (segment :: trail) = segment.before (pathText trail) := by
  have hsegment : segment.Simple := h segment List.mem_cons_self
  have htrail := continued_pathText fun s hs => h s (List.mem_cons_of_mem segment hs)
  rw [pathText_eq, trailText_cons]
  cases segment with
  | index i =>
    rw [Segment.before, htrail]
    rfl
  | field name =>
    obtain ⟨c, cs, hname, hdot, -⟩ := Label.Simple.exists_cons hsegment
    rw [Segment.before, htrail]
    simp [Segment.start, Segment.body, hname, hdot]

end Conform
