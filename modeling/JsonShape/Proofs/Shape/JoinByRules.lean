import JsonShape.Proofs.Shape.Join
import JsonShape.Shape.JoinByRules

/-!
# The rules make up the whole join

`Shape.join` gives equal shapes back before it looks at their kinds, and equal fields before it
aligns them. Both are shortcuts: `Shape.joinByRules` takes them for scalars alone, and gives every
constructible shape back when it is joined with itself (`Shape.joinByRules_self`), with its fields
in their order. So the two joins are the same for all pairs of constructible shapes
(`Shape.joinByRules_eq_join`). Of an optional shape that is the inner shape of another, the rules
would take one mark away.
-/

namespace JsonShape.Shape

/-! ## Equations -/

/-- Bottom adds nothing on the left. -/
theorem joinByRules_bottom_left (b : Shape) : joinByRules bottom b = b := by
  rw [joinByRules.eq_def]
  split
  · next h => exact h.2
  · rfl

/-- Bottom adds nothing on the right. -/
theorem joinByRules_bottom_right (a : Shape) : joinByRules a bottom = a := by
  rw [joinByRules.eq_def]
  split
  · rfl
  · cases a <;> rfl

/-- A scalar is given back at once. -/
theorem joinByRules_scalar {a : Shape} (h : a.isScalar = true) : joinByRules a a = a := by
  rw [joinByRules.eq_def, if_pos ⟨h, rfl⟩]

/-- Shapes with parts are joined by the rules, equal or not. -/
theorem not_scalar_and_eq {a : Shape} (h : a.isScalar = false) (b : Shape) :
    ¬(a.isScalar = true ∧ a = b) := by
  simp [h]

/-- An optional shape on the left is joined inside its mark. -/
theorem joinByRules_optional_left (a : Shape) {b : Shape} (hb : b ≠ bottom) :
    joinByRules (optional a) b = (joinByRules b.stripOptional a).makeOptional := by
  rw [joinByRules.eq_def, if_neg (not_scalar_and_eq rfl b)]
  cases b with
  | bottom => exact absurd rfl hb
  | _ => rfl

/-- An optional shape on the right of one that is not is joined inside its mark. -/
theorem joinByRules_optional_right {a : Shape} (hbottom : a ≠ bottom)
    (ha : a.isOptional = false) (b : Shape) :
    joinByRules a (optional b) = (joinByRules a b).makeOptional := by
  rw [joinByRules.eq_def, if_neg fun h => by rw [h.2] at ha; cases ha]
  cases a with
  | bottom => exact absurd rfl hbottom
  | optional => cases ha
  | _ => rfl

/-- Lists are joined by joining their elements. -/
theorem joinByRules_list (a b : Shape) :
    joinByRules (list a) (list b) = list (joinByRules a b) := by
  rw [joinByRules.eq_def, if_neg (not_scalar_and_eq rfl _)]

/-- Records are joined by joining the partners in the alignment of their fields. -/
theorem joinByRules_record (f g : Fields) :
    joinByRules (record f) (record g) =
      record ((Alignment.align f g).map fun (k, p) => (k, p.resolve joinByRules makeOptional)) := by
  rw [joinByRules.eq_def, if_neg (not_scalar_and_eq rfl _), ← List.attach_map_val]
  refine congrArg record (List.map_congr_left fun p _ => ?_)
  obtain ⟨⟨k, _ | _⟩, _⟩ := p <;> rfl

/-- Different shapes whose kinds do not go together have nothing in common. -/
theorem joinByRules_eq_top {a b : Shape} (hab : a ≠ b) (h : Compatible a b = false) :
    joinByRules a b = top := by
  rw [joinByRules.eq_def, if_neg fun e => hab e.2]
  cases a <;> cases b <;> first | rfl | cases h

/-! ## Equal shapes -/

/-- The rules give a constructible shape back when it is joined with itself: its mark is taken away
once and put on again, and each field is aligned with itself. -/
theorem joinByRules_self (a : Shape) : a.Constructible → joinByRules a a = a := by
  cases a with
  | bottom | top | bool | str | int | float => exact fun _ => joinByRules_scalar rfl
  | optional a =>
    intro ha
    rw [joinByRules_optional_left a (b := optional a) nofun]
    show (joinByRules a a).makeOptional = optional a
    rw [joinByRules_self a ha.2, makeOptional_eq_optional ha.1]
  | list a =>
    intro ha
    rw [joinByRules_list, joinByRules_self a ha]
  | record f =>
    intro ha
    rw [constructible_record] at ha
    rw [joinByRules_record, Alignment.align_self, List.map_map]
    refine congrArg record ((List.map_congr_left fun p hp => ?_).trans (List.map_id f))
    obtain ⟨key, x⟩ := p
    have := sizeOf_lt_of_mem hp
    exact congrArg (Prod.mk key) (joinByRules_self x (ha key x hp))
termination_by sizeOf a

/-! ## All shapes -/

/-- The join of two constructible shapes is what the rules make of them, field order included. -/
theorem joinByRules_eq_join {a b : Shape} (ha : a.Constructible) (hb : b.Constructible) :
    a.joinByRules b = a.join b := by
  induction a, b using join_rule_induction with
  | same a => rw [joinByRules_self a ha, join_self]
  | bottomLeft b => rw [joinByRules_bottom_left, join_bottom_left]
  | bottomRight a => rw [joinByRules_bottom_right, join_bottom_right]
  | widenRight => rw [joinByRules.eq_def, join_int_float]; rfl
  | widenLeft => rw [joinByRules.eq_def, join_float_int]; rfl
  | optionalLeft a b _ hbottom ih =>
    rw [joinByRules_optional_left a hbottom, join_optional_left ha.1, ih hb.stripOptional ha.2]
  | optionalRight a b hbottom ho ih =>
    rw [joinByRules_optional_right hbottom ho, join_optional_right ho hb.1, ih ha hb.2]
  | list a b ih => rw [joinByRules_list, join_list, ih ha hb]
  | record f g ih =>
    rw [constructible_record] at ha hb
    rw [joinByRules_record, join_record, joinFields_eq_map_align]
    refine congrArg record (List.map_congr_left fun p hp => ?_)
    obtain ⟨key, x | x⟩ := p
    · obtain ⟨hx, hy⟩ := Alignment.mem_of_mem_align_both hp
      exact congrArg (Prod.mk key) (ih key _ _ hp (ha key _ hx) (hb key _ hy))
    · rfl
  | clash a b hab hc => rw [joinByRules_eq_top hab hc, join_eq_top hab hc]

/-- Two records that differ in one field and have others in common, one of them under a key that
comes twice. -/
theorem joinByRules_eq_join_common :
    let inner := record [("m", int), ("m", optional (list str)), ("l", bottom)]
    let a := optional (record [("k", optional inner), ("k", list inner), ("n", int)])
    let b := record [("n", float), ("k", optional inner), ("k", list inner), ("k", bool)]
    a.Constructible ∧ b.Constructible ∧
      a.join b = optional (record [("n", float), ("k", optional inner), ("k", list inner),
        ("k", optional bool)]) ∧
      a.joinByRules b = a.join b ∧ a.joinByRules a = a.join a := by
  intro inner a b
  have ha : a.Constructible := by
    simp [a, inner, Constructible, ConstructibleFields, isOptional]
  have hb : b.Constructible := by
    simp [b, inner, Constructible, ConstructibleFields, isOptional]
  exact ⟨ha, hb, by decide +kernel, joinByRules_eq_join ha hb, joinByRules_eq_join ha ha⟩

/-- Of two marks, which no constructible shape has, one is lost. -/
example : joinByRules (optional (optional int)) (optional (optional int)) = optional int := by
  decide +kernel

end JsonShape.Shape
