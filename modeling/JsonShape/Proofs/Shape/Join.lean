import JsonShape.Proofs.Shape.Order

/-!
# The join is the least upper bound

`Shape.join` gives equal shapes back before it looks at anything else. The equations of this module
hold with or without that shortcut, one for each way in which two constructible shapes meet, and
`join_induction` follows them, so that no later proof opens the join. Both shapes lie within their
join (`within_join`), and the join lies within whatever both lie within (`join_within`); on shapes
of distinct keys, where this order is `≤`, the join is the least upper bound
(`join_isLeast_upperBound`).
-/

namespace JsonShape.Shape

/-! ## Equations -/

/-- Bottom adds nothing on the left. -/
@[simp] theorem join_bottom_left (b : Shape) : join bottom b = b := by
  rw [join.eq_def]
  split
  · next h => exact h
  · rfl

/-- Bottom adds nothing on the right. -/
@[simp] theorem join_bottom_right (a : Shape) : join a bottom = a := by
  rw [join.eq_def]
  split
  · rfl
  · cases a <;> rfl

/-- Integers are floats where both were seen. -/
theorem join_int_float : join int float = float := by
  rw [join.eq_def]
  rfl

/-- Integers are floats where both were seen. -/
theorem join_float_int : join float int = float := by
  rw [join.eq_def]
  rfl

/-- Lists are joined by joining their elements. -/
theorem join_list (a b : Shape) : join (list a) (list b) = list (join a b) := by
  by_cases h : a = b
  · rw [h, join_self, join_self]
  · rw [join.eq_def, if_neg fun e => h (Shape.list.inj e)]

/-- Marking an inner shape as optional gives the optional shape. -/
theorem makeOptional_eq_optional {a : Shape} (h : a.isOptional = false) :
    a.makeOptional = optional a := by
  cases a with
  | optional => cases h
  | _ => rfl

/-- An optional shape on the left of another one is joined inside its mark. -/
theorem join_optional_left_of_ne {a b : Shape} (hne : optional a ≠ b) (hb : b ≠ bottom) :
    join (optional a) b = (join b.stripOptional a).makeOptional := by
  rw [join.eq_def, if_neg hne]
  cases b with
  | bottom => exact absurd rfl hb
  | _ => rfl

/-- An optional shape on the right of one that is not is joined inside its mark. -/
theorem join_optional_right_of_ne {a : Shape} (hbottom : a ≠ bottom)
    (ha : a.isOptional = false) (b : Shape) :
    join a (optional b) = (join a b).makeOptional := by
  rw [join.eq_def, if_neg fun e => by rw [e] at ha; cases ha]
  cases a with
  | bottom => exact absurd rfl hbottom
  | optional => cases ha
  | _ => rfl

/-- An optional shape on the left that can be built is joined inside its mark, also with bottom and
with itself. What it says comes second. -/
theorem join_optional_left {a : Shape} (ha : a.isOptional = false) (b : Shape) :
    join (optional a) b = (join b.stripOptional a).makeOptional := by
  by_cases hb : b = bottom
  · rw [hb, join_bottom_right]
    show optional a = (join bottom a).makeOptional
    rw [join_bottom_left, makeOptional_eq_optional ha]
  by_cases hab : optional a = b
  · rw [← hab, join_self]
    show optional a = (join a a).makeOptional
    rw [join_self, makeOptional_eq_optional ha]
  · exact join_optional_left_of_ne hab hb

/-- An optional shape on the right that can be built is joined inside its mark, also with bottom. -/
theorem join_optional_right {a : Shape} (ha : a.isOptional = false) {b : Shape}
    (hb : b.isOptional = false) : join a (optional b) = (join a b).makeOptional := by
  by_cases hbottom : a = bottom
  · rw [hbottom, join_bottom_left, join_bottom_left, makeOptional_eq_optional hb]
  · exact join_optional_right_of_ne hbottom ha b

/-- The kinds of two shapes go together: one of them is bottom or optional, or both are numbers,
lists or records. -/
def Compatible : Shape → Shape → Bool
  | bottom, _ | _, bottom | optional _, _ | _, optional _ => true
  | int, float | float, int | list _, list _ | record _, record _ => true
  | _, _ => false

/-- An optional shape goes together with every other one. -/
theorem isOptional_of_not_compatible {a b : Shape} (h : Compatible a b = false) :
    a.isOptional = false ∧ b.isOptional = false := by
  cases a <;> cases b <;> first | exact ⟨rfl, rfl⟩ | cases h

/-- Different shapes whose kinds do not go together have nothing in common. -/
theorem join_eq_top {a b : Shape} (hab : a ≠ b) (h : Compatible a b = false) :
    join a b = top := by
  rw [join.eq_def, if_neg hab]
  cases a <;> cases b <;> first | rfl | cases h

/-- A record is constructible exactly if the shapes of its fields are. -/
theorem constructible_record {f : Fields} :
    (record f).Constructible ↔ ∀ key s, (key, s) ∈ f → s.Constructible := by
  rw [Constructible, constructibleFields_iff]
  exact ⟨fun h key s hs => h _ hs, fun h p hp => h p.1 p.2 hp⟩

/-- Induction along the rules of the join. A rule comes after those in front of it have failed, and
of two records the partners in the alignment of their fields are joined. -/
theorem join_rule_induction {motive : Shape → Shape → Prop} (same : ∀ a, motive a a)
    (bottomLeft : ∀ b, motive bottom b) (bottomRight : ∀ a, motive a bottom)
    (widenRight : motive int float) (widenLeft : motive float int)
    (optionalLeft : ∀ a b, optional a ≠ b → b ≠ bottom → motive b.stripOptional a →
      motive (optional a) b)
    (optionalRight : ∀ a b, a ≠ bottom → a.isOptional = false → motive a b →
      motive a (optional b))
    (list : ∀ a b, motive a b → motive (list a) (list b))
    (record : ∀ f g, (∀ key x y, (key, Pairing.both x y) ∈ Alignment.align f g → motive x y) →
      motive (record f) (record g))
    (clash : ∀ a b, a ≠ b → Compatible a b = false → motive a b) (a b : Shape) : motive a b := by
  induction a, b using join.induct with
  | case1 b => exact same b
  | case2 b => exact bottomLeft b
  | case3 a => exact bottomRight a
  | case4 => exact widenRight
  | case5 => exact widenLeft
  | case6 a b hb hne ih => exact optionalLeft a b hne hb ih
  | case7 a b ha ho _ ih =>
    refine optionalRight a b ha ?_ ih
    cases a with
    | optional a => exact (ho a rfl).elim
    | _ => rfl
  | case8 a b _ ih => exact list a b ih
  | case9 f g _ ih => exact record f g ih
  | case10 a b hab h1 h2 h3 h4 h5 h6 h7 h8 =>
    refine clash a b hab (Bool.eq_false_iff.2 fun hc => ?_)
    unfold Compatible at hc
    split at hc
    · exact h1 rfl
    · exact h3 rfl
    · exact h2 _ rfl
    · exact h4 _ rfl
    · exact h5 rfl rfl
    · exact h6 rfl rfl
    · exact h7 _ _ rfl rfl
    · exact h8 _ _ rfl rfl
    · cases hc

/-- Induction along the join of two shapes. Of two records, the fields of one key and rank are
joined. -/
theorem join_induction {motive : Shape → Shape → Prop} (same : ∀ a, motive a a)
    (bottomLeft : ∀ b, motive bottom b) (bottomRight : ∀ a, motive a bottom)
    (widenRight : motive int float) (widenLeft : motive float int)
    (optionalLeft : ∀ a b, motive b.stripOptional a → motive (optional a) b)
    (optionalRight : ∀ a b, a.isOptional = false → motive a b → motive a (optional b))
    (list : ∀ a b, motive a b → motive (list a) (list b))
    (record : ∀ f g,
      (∀ key (i : Nat) x y, (Fields.values f key)[i]? = some x →
        (Fields.values g key)[i]? = some y → motive x y) → motive (record f) (record g))
    (clash : ∀ a b, a ≠ b → Compatible a b = false → motive a b) (a b : Shape) : motive a b := by
  refine join_rule_induction same bottomLeft bottomRight widenRight widenLeft
    (fun a b _ _ ih => optionalLeft a b ih) (fun a b _ ha ih => optionalRight a b ha ih) list
    (fun f g ih => ?_) clash a b
  exact record f g fun key i x y hx hy => ih key x y (Alignment.both_mem_align hx hy)

/-- What two joined records have in a place is the join of what both have there, or what one of
them has, marked as optional. -/
theorem joinSlot_eq_some {o p : Option Shape} {s : Shape} (h : joinSlot o p = some s) :
    (∃ x y, o = some x ∧ p = some y ∧ s = x.join y) ∨
      (∃ x, o = some x ∧ p = none ∧ s = x.makeOptional) ∨
        ∃ y, o = none ∧ p = some y ∧ s = y.makeOptional := by
  cases o with
  | some x =>
    cases p with
    | some y => exact .inl ⟨x, y, rfl, rfl, (Option.some.inj h).symm⟩
    | none => exact .inr (.inl ⟨x, rfl, rfl, (Option.some.inj h).symm⟩)
  | none =>
    cases p with
    | some y => exact .inr (.inr ⟨y, rfl, rfl, (Option.some.inj h).symm⟩)
    | none => cases h

/-- What holds of the join of two fields of one key and rank, and of every field once it is
optional, holds of the fields of two joined records. -/
theorem forall_mem_joinFields {P : Shape → Prop} {f g : Fields}
    (both : ∀ key (i : Nat) x y, (f.values key)[i]? = some x → (g.values key)[i]? = some y →
      P (x.join y))
    (left : ∀ key x, (key, x) ∈ f → P x.makeOptional)
    (right : ∀ key y, (key, y) ∈ g → P y.makeOptional) :
    ∀ key s, (key, s) ∈ joinFields f g → P s := by
  intro key s hs
  obtain ⟨i, hi⟩ := List.mem_iff_getElem?.1 (Fields.mem_values.2 hs)
  rw [getElem?_values_joinFields] at hi
  rcases joinSlot_eq_some hi with ⟨x, y, hx, hy, rfl⟩ | ⟨x, hx, -, rfl⟩ | ⟨y, -, hy, rfl⟩
  · exact both key i x y hx hy
  · exact left key x (Fields.mem_of_getElem?_values hx)
  · exact right key y (Fields.mem_of_getElem?_values hy)

/-! ## What a join keeps -/

/-- Marking a shape leaves its inner shape. -/
@[simp] theorem stripOptional_makeOptional (a : Shape) :
    a.makeOptional.stripOptional = a.stripOptional := by
  cases a <;> rfl

/-- A mark can be put on every constructible shape. -/
theorem Constructible.makeOptional {a : Shape} (h : a.Constructible) :
    a.makeOptional.Constructible := by
  cases a with
  | optional => exact h
  | _ => exact ⟨rfl, h⟩

/-- A join is optional exactly if one of the joined shapes is. -/
theorem isOptional_join {a b : Shape} (ha : a.Constructible) (hb : b.Constructible) :
    (a.join b).isOptional = (a.isOptional || b.isOptional) := by
  induction a, b using join_induction with
  | same a => rw [join_self, Bool.or_self]
  | bottomLeft b => rw [join_bottom_left]; rfl
  | bottomRight a => rw [join_bottom_right]; exact (Bool.or_false _).symm
  | widenRight => rw [join_int_float]; rfl
  | widenLeft => rw [join_float_int]; rfl
  | optionalLeft a b => rw [join_optional_left ha.1, isOptional_makeOptional]; rfl
  | optionalRight a b hn =>
    rw [join_optional_right hn hb.1, isOptional_makeOptional]
    exact (Bool.or_true _).symm
  | list a b => rw [join_list]; rfl
  | record f g => rw [join_record]; rfl
  | clash a b hab hc =>
    obtain ⟨ha', hb'⟩ := isOptional_of_not_compatible hc
    rw [join_eq_top hab hc, ha', hb']
    rfl

/-- The join of constructible shapes is constructible. -/
theorem Constructible.join {a b : Shape} (ha : a.Constructible) (hb : b.Constructible) :
    (a.join b).Constructible := by
  induction a, b using join_induction with
  | same a => rwa [join_self]
  | bottomLeft b => rwa [join_bottom_left]
  | bottomRight a => rwa [join_bottom_right]
  | widenRight => rw [join_int_float]; trivial
  | widenLeft => rw [join_float_int]; trivial
  | optionalLeft a b ih =>
    rw [join_optional_left ha.1]
    exact (ih hb.stripOptional ha.2).makeOptional
  | optionalRight a b hn ih =>
    rw [join_optional_right hn hb.1]
    exact (ih ha hb.2).makeOptional
  | list a b ih =>
    rw [join_list]
    exact ih ha hb
  | record f g ih =>
    rw [join_record, constructible_record]
    rw [constructible_record] at ha hb
    refine forall_mem_joinFields (fun key i x y hx hy => ?_)
      (fun key x hx => (ha key x hx).makeOptional) (fun key y hy => (hb key y hy).makeOptional)
    exact ih key i x y hx hy (ha key x (Fields.mem_of_getElem?_values hx))
      (hb key y (Fields.mem_of_getElem?_values hy))
  | clash a b hab hc =>
    rw [join_eq_top hab hc]
    trivial

/-- A mark can be put on every shape of distinct keys. -/
theorem DistinctKeys.makeOptional {a : Shape} (h : a.DistinctKeys) :
    a.makeOptional.DistinctKeys := by
  cases a <;> exact h

/-- The join of shapes of distinct keys has distinct keys: at rank one no record has a field. -/
theorem DistinctKeys.join {a b : Shape} (ha : a.DistinctKeys) (hb : b.DistinctKeys)
    (ca : a.Constructible) (cb : b.Constructible) : (a.join b).DistinctKeys := by
  induction a, b using join_induction with
  | same a => rwa [join_self]
  | bottomLeft b => rwa [join_bottom_left]
  | bottomRight a => rwa [join_bottom_right]
  | widenRight => rw [join_int_float]; trivial
  | widenLeft => rw [join_float_int]; trivial
  | optionalLeft a b ih =>
    rw [join_optional_left ca.1]
    exact (ih hb.stripOptional ha cb.stripOptional ca.2).makeOptional
  | optionalRight a b hn ih =>
    rw [join_optional_right hn cb.1]
    exact (ih ha hb ca cb.2).makeOptional
  | list a b ih =>
    rw [join_list]
    exact ih ha hb ca cb
  | record f g ih =>
    rw [join_record, distinctKeys_record]
    rw [distinctKeys_record] at ha hb
    rw [constructible_record] at ca cb
    refine ⟨Fields.nodup_keys_iff.2 fun key => ?_, ?_⟩
    · have hf := List.getElem?_eq_none_iff.2 (Fields.nodup_keys_iff.1 ha.1 key)
      have hg := List.getElem?_eq_none_iff.2 (Fields.nodup_keys_iff.1 hb.1 key)
      rw [← List.getElem?_eq_none_iff, getElem?_values_joinFields, hf, hg]
      rfl
    · refine forall_mem_joinFields (fun key i x y hx hy => ?_)
        (fun key x hx => (ha.2 key x hx).makeOptional)
        (fun key y hy => (hb.2 key y hy).makeOptional)
      have hf := Fields.mem_of_getElem?_values hx
      have hg := Fields.mem_of_getElem?_values hy
      exact ih key i x y hx hy (ha.2 key x hf) (hb.2 key y hg) (ca key x hf) (cb key y hg)
  | clash a b hab hc =>
    rw [join_eq_top hab hc]
    trivial

/-! ## An upper bound -/

/-- A shape lies within the same shape marked as optional. -/
theorem within_makeOptional (a : Shape) : a.Within a.makeOptional :=
  within_makeOptional_iff.2 (.refl _)

/-- What each of two records has in a place lies within the join of what they have there. -/
theorem slotWithin_joinSlot {o p : Option Shape}
    (h : ∀ x y, o = some x → p = some y → x.Within (x.join y) ∧ y.Within (x.join y)) :
    SlotWithin o (joinSlot o p) ∧ SlotWithin p (joinSlot o p) := by
  cases o with
  | some x =>
    cases p with
    | some y => exact h x y rfl rfl
    | none => exact ⟨within_makeOptional x, isOptional_makeOptional x⟩
  | none =>
    cases p with
    | some y => exact ⟨isOptional_makeOptional y, within_makeOptional y⟩
    | none => exact ⟨trivial, trivial⟩

/-- Both of two shapes lie within their join. -/
theorem within_join {a b : Shape} (ha : a.Constructible) (hb : b.Constructible) :
    a.Within (a.join b) ∧ b.Within (a.join b) := by
  induction a, b using join_induction with
  | same a =>
    rw [join_self]
    exact ⟨.refl a, .refl a⟩
  | bottomLeft b =>
    rw [join_bottom_left]
    exact ⟨.bottom b, .refl b⟩
  | bottomRight a =>
    rw [join_bottom_right]
    exact ⟨.refl a, .bottom a⟩
  | widenRight =>
    rw [join_int_float]
    exact ⟨.widen, .float⟩
  | widenLeft =>
    rw [join_float_int]
    exact ⟨.float, .widen⟩
  | optionalLeft a b ih =>
    obtain ⟨hba, hab⟩ := ih hb.stripOptional ha.2
    rw [join_optional_left ha.1, within_makeOptional_iff, within_makeOptional_iff]
    have h1 := hab.stripOptional
    have h2 := hba.stripOptional
    rw [stripOptional_eq_self ha.1] at h1
    rw [stripOptional_eq_self hb.isOptional_stripOptional] at h2
    exact ⟨h1, h2⟩
  | optionalRight a b hn ih =>
    obtain ⟨hab, hba⟩ := ih ha hb.2
    rw [join_optional_right hn hb.1, within_makeOptional_iff, within_makeOptional_iff]
    have h2 := hba.stripOptional
    rw [stripOptional_eq_self hb.1] at h2
    exact ⟨hab.stripOptional, h2⟩
  | list a b ih =>
    rw [join_list]
    exact ⟨.list (ih ha hb).1, .list (ih ha hb).2⟩
  | record f g ih =>
    rw [constructible_record] at ha hb
    rw [join_record, within_record_iff, within_record_iff]
    have h : ∀ key (i : Nat),
        SlotWithin (Fields.values f key)[i]? (Fields.values (joinFields f g) key)[i]? ∧
          SlotWithin (Fields.values g key)[i]? (Fields.values (joinFields f g) key)[i]? := by
      intro key i
      rw [getElem?_values_joinFields]
      refine slotWithin_joinSlot fun x y hx hy => ih key i x y hx hy ?_ ?_
      · exact ha key x (Fields.mem_of_getElem?_values hx)
      · exact hb key y (Fields.mem_of_getElem?_values hy)
    exact ⟨fun key i => (h key i).1, fun key i => (h key i).2⟩
  | clash a b hab hc =>
    obtain ⟨ha', hb'⟩ := isOptional_of_not_compatible hc
    rw [join_eq_top hab hc]
    exact ⟨.top ha', .top hb'⟩

/-! ## The least one -/

/-- A shape that lies within an optional one does so with a mark of its own. -/
theorem makeOptional_within {a b : Shape} (h : a.Within b) (hb : b.isOptional = true) :
    a.makeOptional.Within b := by
  cases b with
  | optional b =>
    refine .optional ?_
    rw [stripOptional_makeOptional]
    exact h.stripOptional
  | _ => cases hb

/-- A shape without its mark lies within the same shape with it. -/
theorem stripOptional_within : (a : Shape) → a.stripOptional.Within a
  | .optional a => .optional (stripOptional_within a)
  | .bottom | .top | .bool | .str | .int | .float | .list _ | .record _ => .refl _

/-- To bound a shape that is not optional by all common bounds of two others that are not, those
bounds suffice that are not optional themselves. -/
theorem within_of_bounds {a b j : Shape} (ha : a.isOptional = false) (hb : b.isOptional = false)
    (hj : j.isOptional = false)
    (h : ∀ c, c.isOptional = false → a.Within c → b.Within c → j.Within c) :
    ∀ c, a.Within c → b.Within c → j.Within c
  | .optional c, hac, hbc => by
    have ha' := hac.stripOptional
    have hb' := hbc.stripOptional
    rw [stripOptional_eq_self ha] at ha'
    rw [stripOptional_eq_self hb] at hb'
    refine .optional ?_
    rw [stripOptional_eq_self hj]
    exact within_of_bounds ha hb hj h c ha' hb'
  | .bottom, hac, hbc | .top, hac, hbc | .bool, hac, hbc | .str, hac, hbc | .int, hac, hbc
  | .float, hac, hbc | .list _, hac, hbc | .record _, hac, hbc => h _ rfl hac hbc

/-- What bounds the contents of a place of two records bounds their join. -/
theorem joinSlot_slotWithin {o p r : Option Shape}
    (h : ∀ x y t, o = some x → p = some y → r = some t → x.Within t → y.Within t →
      (x.join y).Within t)
    (ho : SlotWithin o r) (hp : SlotWithin p r) : SlotWithin (joinSlot o p) r := by
  cases r with
  | none => cases o <;> cases p <;> trivial
  | some t =>
    cases o with
    | some x =>
      cases p with
      | some y => exact h x y t rfl rfl rfl ho hp
      | none => exact makeOptional_within ho hp
    | none =>
      cases p with
      | some y => exact makeOptional_within hp ho
      | none => exact ho

/-- The join of two shapes lies within whatever both of them lie within. -/
theorem join_within {a b c : Shape} (ha : a.Constructible) (hb : b.Constructible)
    (hac : a.Within c) (hbc : b.Within c) : (a.join b).Within c := by
  induction a, b using join_induction generalizing c with
  | same a => rwa [join_self]
  | bottomLeft b => rwa [join_bottom_left]
  | bottomRight a => rwa [join_bottom_right]
  | widenRight => rwa [join_int_float]
  | widenLeft => rwa [join_float_int]
  | optionalLeft a b ih =>
    rw [join_optional_left ha.1]
    refine makeOptional_within ?_ (hac.isOptional_of_isOptional rfl)
    exact ih hb.stripOptional ha.2 ((stripOptional_within b).trans hbc)
      ((stripOptional_within (optional a)).trans hac)
  | optionalRight a b hn ih =>
    rw [join_optional_right hn hb.1]
    refine makeOptional_within ?_ (hbc.isOptional_of_isOptional rfl)
    exact ih ha hb.2 hac ((stripOptional_within (optional b)).trans hbc)
  | list a b ih =>
    rw [join_list]
    refine within_of_bounds (a := list a) (b := list b) rfl rfl rfl (fun c hc hac hbc => ?_)
      c hac hbc
    cases hac with
    | top => exact .top rfl
    | optional => cases hc
    | list hac =>
      cases hbc with
      | list hbc => exact .list (ih ha hb hac hbc)
  | record f g ih =>
    rw [constructible_record] at ha hb
    rw [join_record]
    refine within_of_bounds (a := record f) (b := record g) rfl rfl rfl (fun c hc hac hbc => ?_)
      c hac hbc
    cases c with
    | top => exact .top rfl
    | record e =>
      rw [within_record_iff] at hac hbc ⊢
      intro key i
      rw [getElem?_values_joinFields]
      refine joinSlot_slotWithin (fun x y t hx hy _ hxt hyt => ?_) (hac key i) (hbc key i)
      exact ih key i x y hx hy (ha key x (Fields.mem_of_getElem?_values hx))
        (hb key y (Fields.mem_of_getElem?_values hy)) hxt hyt
    | optional => cases hc
    | _ => cases hac
  | clash a b hab hk =>
    obtain ⟨ha', hb'⟩ := isOptional_of_not_compatible hk
    rw [join_eq_top hab hk]
    refine within_of_bounds ha' hb' rfl (fun c hc hac hbc => ?_) c hac hbc
    cases hac with
    | top => exact .top rfl
    | optional => cases hc
    | bottom => cases hk
    | bool | str | int =>
      cases hbc with
      | bottom => cases hk
      | _ => exact absurd rfl hab
    | float | widen | list | record => cases hbc <;> first | exact absurd rfl hab | cases hk

/-- Over the constructible shapes of distinct keys, the join of two shapes is their least upper
bound. -/
theorem join_isLeast_upperBound {a b c : Shape} (ha : a.Constructible ∧ a.DistinctKeys)
    (hb : b.Constructible ∧ b.DistinctKeys) (hc : c.Constructible ∧ c.DistinctKeys) :
    ((a.join b).Constructible ∧ (a.join b).DistinctKeys) ∧
      a ≤ a.join b ∧ b ≤ a.join b ∧ (a ≤ c → b ≤ c → a.join b ≤ c) := by
  have hj := ha.2.join hb.2 ha.1 hb.1
  obtain ⟨hl, hr⟩ := within_join ha.1 hb.1
  refine ⟨⟨ha.1.join hb.1, hj⟩, hl.le ha.2 hj, hr.le hb.2 hj, fun hac hbc => ?_⟩
  exact (join_within ha.1 hb.1 (hac.within ha.2 hc.2) (hbc.within hb.2 hc.2)).le hj hc.2

/-- Two records that have one key in common, and a third one that admits both. -/
theorem join_isLeast_upperBound_records :
    let a := record [("k", int), ("l", list bottom)]
    let b := record [("m", optional bool), ("k", float)]
    let c := record [("k", optional float), ("l", optional (list str)), ("m", optional top)]
    (a.Constructible ∧ a.DistinctKeys) ∧ (b.Constructible ∧ b.DistinctKeys) ∧
      (c.Constructible ∧ c.DistinctKeys) ∧
      a.join b = record [("k", float), ("l", optional (list bottom)), ("m", optional bool)] ∧
      ((a.join b).Constructible ∧ (a.join b).DistinctKeys) ∧
      a ≤ a.join b ∧ b ≤ a.join b ∧ (a ≤ c → b ≤ c → a.join b ≤ c) := by
  intro a b c
  have ha : a.Constructible ∧ a.DistinctKeys := by
    simp [a, Constructible, ConstructibleFields, DistinctKeys, DistinctKeysOfFields]
  have hb : b.Constructible ∧ b.DistinctKeys := by
    simp [b, Constructible, ConstructibleFields, DistinctKeys, DistinctKeysOfFields, isOptional]
  have hc : c.Constructible ∧ c.DistinctKeys := by
    simp [c, Constructible, ConstructibleFields, DistinctKeys, DistinctKeysOfFields, isOptional]
  exact ⟨ha, hb, hc, by decide +kernel, join_isLeast_upperBound ha hb hc⟩

end JsonShape.Shape
