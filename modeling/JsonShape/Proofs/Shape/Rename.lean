import JsonShape.Proofs.Shape.Join
import JsonShape.Shape.Rename

/-!
# Other keys

Keys are compared with each other and used for nothing else. So an alignment of fields under other
names has the same partners (`Alignment.align_map`), and the join of two shapes with other keys is
their join with these keys (`Shape.rename_join`), as long as different keys stay different. The same
holds of an object with one more member (`Shape.renameFields_observe`).
-/

namespace JsonShape

/-- What stands in a place of an alignment, with other values. -/
def Pairing.map {α β : Type} (m : α → β) : Pairing α → Pairing β
  | both x y => both (m x) (m y)
  | alone x => alone (m x)

/-! ## Alignments -/

namespace Alignment

variable {α β : Type}

/-- A field with another name and another value. -/
def relabel (naming : String → String) (m : α → β) (p : String × α) : String × β :=
  (naming p.1, m p.2)

section

variable {naming : String → String} (hn : Function.Injective naming) (m : α → β)
include hn

/-- Under other names, the same field is the first of its name. -/
theorem detach?_map (name : String) (g : List (String × α)) :
    detach? (naming name) (g.map (relabel naming m)) =
      (detach? name g).map fun (y, rest) => (m y, rest.map (relabel naming m)) := by
  induction g with
  | nil => rfl
  | cons p g ih =>
    obtain ⟨k, x⟩ := p
    rw [List.map_cons, relabel, detach?, detach?]
    by_cases hk : k = name
    · rw [if_pos hk, if_pos (congrArg naming hk)]
      rfl
    · rw [if_neg hk, if_neg fun e => hk (hn e), ih]
      cases detach? name g <;> rfl

/-- Under other names, the same fields are partners. -/
theorem align_map (f g : List (String × α)) :
    align (f.map (relabel naming m)) (g.map (relabel naming m)) =
      (align f g).map (relabel naming (Pairing.map m)) := by
  induction f generalizing g with
  | nil =>
    rw [List.map_nil, align, align, List.map_map, List.map_map]
    rfl
  | cons p f ih =>
    obtain ⟨k, x⟩ := p
    rw [List.map_cons, relabel, align, align, detach?_map hn]
    cases detach? k g with
    | none =>
      simp only [Option.map_none, ih]
      rfl
    | some r =>
      simp only [Option.map_some, ih]
      rfl

end

end Alignment

namespace Shape

open JsonShape.Alignment (relabel)

/-! ## Renamed shapes -/

/-- Fields are renamed one by one. -/
theorem renameFields_eq_map (naming : String → String) (f : Fields) :
    renameFields naming f = f.map (relabel naming (rename naming)) := by
  induction f with
  | nil => rfl
  | cons p f ih => rw [renameFields, ih, List.map_cons, relabel]

/-- A mark has no keys to be renamed. -/
theorem rename_makeOptional (naming : String → String) (a : Shape) :
    a.makeOptional.rename naming = (a.rename naming).makeOptional := by
  cases a <;> rfl

/-- A mark has no keys to be renamed. -/
theorem rename_stripOptional (naming : String → String) (a : Shape) :
    a.stripOptional.rename naming = (a.rename naming).stripOptional := by
  cases a <;> rfl

/-- A shape is optional whatever its keys are. -/
theorem isOptional_rename (naming : String → String) (a : Shape) :
    (a.rename naming).isOptional = a.isOptional := by
  cases a <;> rfl

/-- Kinds go together whatever the keys are. -/
theorem compatible_rename (naming : String → String) (a b : Shape) :
    Compatible (a.rename naming) (b.rename naming) = Compatible a b := by
  cases a <;> cases b <;> rfl

mutual

/-- Shapes are not made equal by new names, as long as different keys get different ones. -/
theorem eq_of_rename_eq {naming : String → String} (hn : Function.Injective naming) :
    {a b : Shape} → a.rename naming = b.rename naming → a = b
  | bottom, b, h | top, b, h | bool, b, h | str, b, h | int, b, h | float, b, h => by
    cases b <;> first | rfl | cases h
  | optional a, b, h => by
    cases b with
    | optional b => rw [eq_of_rename_eq hn (Shape.optional.inj h)]
    | _ => cases h
  | list a, b, h => by
    cases b with
    | list b => rw [eq_of_rename_eq hn (Shape.list.inj h)]
    | _ => cases h
  | record f, b, h => by
    cases b with
    | record g => rw [eq_of_renameFields_eq hn (Shape.record.inj h)]
    | _ => cases h

/-- Nor are fields. -/
theorem eq_of_renameFields_eq {naming : String → String} (hn : Function.Injective naming) :
    {f g : Fields} → renameFields naming f = renameFields naming g → f = g
  | [], [], _ => rfl
  | [], _ :: _, h | _ :: _, [], h => by cases h
  | (k, a) :: f, (l, b) :: g, h => by
    obtain ⟨hfirst, hrest⟩ := List.cons.inj h
    obtain ⟨hkey, hshape⟩ := Prod.mk.inj hfirst
    rw [hn hkey, eq_of_rename_eq hn hshape, eq_of_renameFields_eq hn hrest]

end

/-! ## Joins -/

section

variable {naming : String → String} (hn : Function.Injective naming)
include hn

/-- The fields of two records are joined under other names as they are under their own. -/
theorem renameFields_joinFields {f g : Fields}
    (h : ∀ k x y, (k, Pairing.both x y) ∈ Alignment.align f g →
      (x.join y).rename naming = (x.rename naming).join (y.rename naming)) :
    renameFields naming (joinFields f g) =
      joinFields (renameFields naming f) (renameFields naming g) := by
  simp only [joinFields_eq_map_align, renameFields_eq_map, Alignment.align_map hn, List.map_map]
  refine List.map_congr_left fun p hp => ?_
  obtain ⟨k, x | x⟩ := p
  · exact congrArg (Prod.mk (naming k)) (h k _ _ hp)
  · exact congrArg (Prod.mk (naming k)) (rename_makeOptional naming x)

/-- Shapes are joined under other names as they are under their own. -/
theorem rename_join (a b : Shape) :
    (a.join b).rename naming = (a.rename naming).join (b.rename naming) := by
  have hbottom : rename naming bottom = bottom := rfl
  induction a, b using join_rule_induction with
  | same a => rw [join_self, join_self]
  | bottomLeft b => rw [join_bottom_left, hbottom, join_bottom_left]
  | bottomRight a => rw [join_bottom_right, hbottom, join_bottom_right]
  | widenRight => exact (congrArg (rename naming) join_int_float).trans join_int_float.symm
  | widenLeft => exact (congrArg (rename naming) join_float_int).trans join_float_int.symm
  | optionalLeft a b hne hb ih =>
    have hne' : optional (a.rename naming) ≠ b.rename naming :=
      fun e => hne (eq_of_rename_eq hn e)
    have hb' : b.rename naming ≠ bottom := fun e => hb (eq_of_rename_eq hn e)
    rw [join_optional_left_of_ne hne hb, rename_makeOptional, ih, rename_stripOptional, rename,
      join_optional_left_of_ne hne' hb']
  | optionalRight a b ha ho ih =>
    have ha' : a.rename naming ≠ bottom := fun e => ha (eq_of_rename_eq hn e)
    have ho' : (a.rename naming).isOptional = false := by rwa [isOptional_rename]
    rw [join_optional_right_of_ne ha ho, rename_makeOptional, ih,
      ← join_optional_right_of_ne ha' ho', rename]
  | list a b ih => rw [join_list, rename, ih, rename, rename, join_list]
  | record f g ih =>
    rw [join_record, rename, renameFields_joinFields hn ih, rename, rename, join_record]
  | clash a b hne hc =>
    have hne' : a.rename naming ≠ b.rename naming := fun e => hne (eq_of_rename_eq hn e)
    have hc' : Compatible (a.rename naming) (b.rename naming) = false := by
      rwa [compatible_rename]
    rw [join_eq_top hne hc, join_eq_top hne' hc']
    rfl

/-- An object has one more member under other names as it has under its own. -/
theorem renameFields_observe (key : String) (value : Shape) (fields : Fields) :
    renameFields naming (Fields.observe key value fields) =
      Fields.observe (naming key) (value.rename naming) (renameFields naming fields) := by
  induction fields with
  | nil => rfl
  | cons p fields ih =>
    obtain ⟨k, s⟩ := p
    rw [Fields.observe, renameFields, Fields.observe]
    by_cases hk : k = key
    · rw [if_pos hk, if_pos (congrArg naming hk), renameFields, rename_join hn]
    · rw [if_neg hk, if_neg fun e => hk (hn e), renameFields, ih]

end

end Shape

end JsonShape
