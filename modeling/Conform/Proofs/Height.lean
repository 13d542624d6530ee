import Conform.Proofs.Positions

namespace Conform

/-!
# The height of a schema

How many levels a schema has.  A schema that has no more levels than the bound on the depth allows is
not cut, and whatever is accepted under one bound is accepted under a higher one.

* `Schema.height` — the number of levels, a leaf being one level high;
* `Schema.cut_of_height_le` — at its height or deeper, a cut leaves a schema as it is;
* `Accepts.of_cut_le`, `Accepts.of_cut` — a deeper cut accepts no less, nor does the whole schema;
* `Schema.At.lt_height` — every position lies above the height.
-/

namespace Schema

/-! ### Levels -/

mutual

/-- The number of levels of a schema.  The schema inside of a test has levels of its own. -/
def height : Schema → Nat
  | .shape fields => heightOfFields fields + 1
  | .array member => member.height + 1
  | .tuple members | .union members | .intersection members => heightOfMembers members + 1
  | .taggedUnion _ variants => heightOfVariants variants + 1
  | .primitive _ | .literal _ _ | .predicate _ _ | .bare => 1

/-- The number of levels of the highest rule of a field. -/
def heightOfFields : List (Label × Schema) → Nat
  | [] => 0
  | (_, rule) :: rest => max rule.height (heightOfFields rest)

/-- The number of levels of the highest member. -/
def heightOfMembers : List Schema → Nat
  | [] => 0
  | member :: rest => max member.height (heightOfMembers rest)

/-- The number of levels of the highest rule of a field in any variant. -/
def heightOfVariants : List (Label × List (Label × Schema)) → Nat
  | [] => 0
  | (_, fields) :: rest => max (heightOfFields fields) (heightOfVariants rest)

end

section Bounds

variable {n : Nat}

theorem heightOfFields_le_iff {fields : List (Label × Schema)} :
    heightOfFields fields ≤ n ↔ ∀ field ∈ fields, field.2.height ≤ n := by
  induction fields with
  | nil => simp [heightOfFields]
  | cons field rest ih => rw [heightOfFields, Nat.max_le, ih, List.forall_mem_cons]

theorem heightOfMembers_le_iff {members : List Schema} :
    heightOfMembers members ≤ n ↔ ∀ member ∈ members, member.height ≤ n := by
  induction members with
  | nil => simp [heightOfMembers]
  | cons member rest ih => rw [heightOfMembers, Nat.max_le, ih, List.forall_mem_cons]

theorem heightOfVariants_le_iff {variants : List (Label × List (Label × Schema))} :
    heightOfVariants variants ≤ n ↔
      ∀ variant ∈ variants, ∀ field ∈ variant.2, field.2.height ≤ n := by
  induction variants with
  | nil => simp [heightOfVariants]
  | cons variant rest ih =>
    rw [heightOfVariants, Nat.max_le, heightOfFields_le_iff, ih, List.forall_mem_cons]

/-- A schema is one level higher than its highest child. -/
theorem height_le_succ_iff {schema : Schema} :
    schema.height ≤ n + 1 ↔ ∀ child ∈ schema.children, child.height ≤ n := by
  cases schema with
  | shape fields =>
    rw [height, Nat.add_le_add_iff_right, heightOfFields_le_iff, children, List.forall_mem_map]
  | array member => rw [height, Nat.add_le_add_iff_right, children, List.forall_mem_singleton]
  | tuple members | union members | intersection members =>
    rw [height, Nat.add_le_add_iff_right, heightOfMembers_le_iff, children]
  | taggedUnion tag variants =>
    rw [height, Nat.add_le_add_iff_right, heightOfVariants_le_iff, children, List.forall_mem_flatMap]
    simp only [List.forall_mem_map]
  | primitive kind | literal constant canonical | predicate test name | bare =>
    simp [height, children]

theorem height_pos (schema : Schema) : 0 < schema.height := by
  cases schema <;> simp [height]

theorem height_child_lt {schema child : Schema} (h : child ∈ schema.children) :
    child.height < schema.height := by
  obtain ⟨levels, hlevels⟩ := Nat.exists_eq_add_one_of_ne_zero (Nat.ne_of_gt schema.height_pos)
  rw [hlevels]
  exact Nat.lt_add_one_of_le (height_le_succ_iff.mp (Nat.le_of_eq hlevels) child h)

end Bounds

/-! ### Cuts below the height -/

theorem mapChildren_eq_self {f : Schema → Schema} {schema : Schema}
    (h : ∀ child ∈ schema.children, f child = child) : schema.mapChildren f = schema := by
  -- fields are named, and what is mapped are their rules
  have fields_eq {fields : List (Label × Schema)} (hfields : ∀ field ∈ fields, f field.2 = field.2) :
      fields.map (fun field => (field.1, f field.2)) = fields := by
    refine (List.map_congr_left fun field hf => ?_).trans (List.map_id fields)
    rw [hfields field hf]
    rfl
  cases schema with
  | shape fields =>
    rw [mapChildren, fields_eq fun field hf => h field.2 (List.mem_map_of_mem hf)]
  | array member => rw [mapChildren, h member List.mem_cons_self]
  | tuple members | union members | intersection members =>
    have hmembers : members.map f = members :=
      (List.map_congr_left h).trans (List.map_id' members)
    rw [mapChildren, hmembers]
  | taggedUnion tag variants =>
    have hvariants : variants.map (fun variant =>
        (variant.1, variant.2.map fun field => (field.1, f field.2))) = variants := by
      refine (List.map_congr_left fun variant hv => ?_).trans (List.map_id variants)
      rw [fields_eq fun field hf => h field.2 (mem_children_taggedUnion hv hf)]
      rfl
    rw [mapChildren, hvariants]
  | primitive kind | literal constant canonical | predicate test name | bare => rfl

/-- A schema that is no higher than the cut is deep, is not changed by it. -/
theorem cut_of_height_le {n : Nat} {schema : Schema} (h : schema.height ≤ n) :
    schema.cut n = schema := by
  induction n generalizing schema with
  | zero => exact absurd h (Nat.not_le_of_lt schema.height_pos)
  | succ n ih =>
    rw [cut]
    exact mapChildren_eq_self fun child hc => ih (height_le_succ_iff.mp h child hc)

end Schema

/-! ### Deeper cuts -/

section Cuts

variable {heap : Heap} {passes passes' : Test → Value → Prop} {schema : Schema} {v : Value}

/-- Whatever a node accepts with its children changed in one way, it accepts with its children
    changed in another way, if each of them accepts no less. -/
theorem Accepts.of_mapChildren {f g : Schema → Schema}
    (htest : ∀ test name, schema = .predicate test name → ∀ w, passes test w → passes' test w)
    (h : ∀ child ∈ schema.children, ∀ w, Accepts heap passes (f child) w →
      Accepts heap passes' (g child) w)
    (haccepts : Accepts heap passes (schema.mapChildren f) v) :
    Accepts heap passes' (schema.mapChildren g) v := by
  -- shapes and variants have their fields in common
  have fields_of {fields : List (Label × Schema)} {m : Mapping}
      (hchild : ∀ field ∈ fields, field.2 ∈ schema.children)
      (hfields : ∀ field ∈ fields.map (fun field => (field.1, f field.2)),
        Accepts heap passes field.2 (m.content field.1.content)) :
      ∀ field ∈ fields.map (fun field => (field.1, g field.2)),
        Accepts heap passes' field.2 (m.content field.1.content) := by
    rw [List.forall_mem_map] at hfields ⊢
    exact fun field hf => h field.2 (hchild field hf) _ (hfields field hf)
  cases schema with
  | primitive kind => cases haccepts with | primitive hkind => exact .primitive hkind
  | literal constant canonical => cases haccepts with | literal htext => exact .literal htext
  | shape fields =>
    obtain ⟨m, hm, hfields⟩ := accepts_shape_iff.mp haccepts
    exact .shape hm (fields_of (fun field hf => List.mem_map_of_mem hf) hfields)
  | array member =>
    obtain ⟨items, hs, hitems⟩ := accepts_array_iff.mp haccepts
    exact .array hs fun item hi => h member List.mem_cons_self item (hitems item hi)
  | tuple members =>
    obtain ⟨items, hs, hlen, hitems⟩ := accepts_tuple_iff.mp haccepts
    rw [List.zip_map_left, List.forall_mem_map] at hitems
    refine .tuple hs (by rwa [List.length_map] at hlen ⊢) ?_
    rw [List.zip_map_left, List.forall_mem_map]
    exact fun pair hp => h pair.1 (List.of_mem_zip hp).1 pair.2 (hitems pair hp)
  | union members =>
    obtain ⟨member, hm, hmember⟩ := accepts_union_iff.mp haccepts
    obtain ⟨child, hc, rfl⟩ := List.mem_map.mp hm
    exact .union (List.mem_map_of_mem hc) (h child hc v hmember)
  | intersection members =>
    have hmembers := List.forall_mem_map.mp (accepts_intersection_iff.mp haccepts)
    exact .intersection (List.forall_mem_map.mpr fun child hc => h child hc v (hmembers child hc))
  | taggedUnion tag variants =>
    obtain ⟨m, hm, tagValue, htag, fields, hvariant, hfields⟩ :=
      accepts_taggedUnion_iff.mp haccepts
    rw [variantOf?_map, Option.map_eq_some_iff] at hvariant
    obtain ⟨fields, hvariant, rfl⟩ := hvariant
    obtain ⟨variant, hv, rfl⟩ := exists_of_variantOf? hvariant
    refine .taggedUnion hm htag (by rw [variantOf?_map, hvariant]; rfl) ?_
    exact fields_of (fun field hf => Schema.mem_children_taggedUnion hv hf) hfields
  | predicate test name =>
    cases haccepts with | predicate hpasses => exact .predicate (htest test name rfl v hpasses)
  | bare => cases haccepts

/-- Whatever a cut schema accepts, the schema accepts when it is cut deeper. -/
theorem Accepts.of_cut_le {n n' : Nat} (hn : n ≤ n')
    (htest : schema.EveryTest fun test _ => ∀ w, passes test w → passes' test w)
    (h : Accepts heap passes (schema.cut n) v) : Accepts heap passes' (schema.cut n') v := by
  induction n generalizing n' schema v with
  | zero => exact (not_accepts_cut_zero h).elim
  | succ n ih =>
    obtain ⟨m, rfl⟩ := Nat.exists_eq_add_of_le' (Nat.le_trans (Nat.le_add_left 1 n) hn)
    refine h.of_mapChildren (fun test name hs => ?_) fun child hc w hw => ?_
    · exact htest test name (hs ▸ .self)
    · exact ih (Nat.le_of_succ_le_succ hn) (htest.child hc) hw

/-- Whatever a cut schema accepts, the whole schema accepts. -/
theorem Accepts.of_cut {n : Nat} (h : Accepts heap passes (schema.cut n) v) :
    Accepts heap passes schema v := by
  have hdeep : Accepts heap passes (schema.cut (max n schema.height)) v :=
    h.of_cut_le (Nat.le_max_left _ _) fun _ _ _ _ => id
  rwa [Schema.cut_of_height_le (Nat.le_max_right _ _)] at hdeep

end Cuts

/-! ### Positions -/

/-- A position is reached by fewer steps than the schema has levels. -/
theorem Schema.At.lt_height {heap : Heap} {schema node : Schema} {v x : Value}
    {trail : List Segment} {d : Nat} (h : At heap schema v trail d node x) : d < schema.height := by
  induction h with
  | root => exact height_pos _
  | step hs _ ih => exact Nat.lt_of_le_of_lt ih (height_child_lt hs.mem_children)

end Conform
