import JsonShape.Shape.Basic
import JsonShape.Shape.Alignment

/-!
# The join of two shapes

`Shape.join` is the least specific shape that covers what two shapes say of the same place: bottom
adds nothing, integers widen to floats, lists are joined element by element and records field by
field, an optional side makes the result optional, and kinds that do not go together give top. A
field that only one of two records has may be absent, so it becomes optional. `Shape.fold` joins
the shapes of a whole list, from bottom.
-/

namespace JsonShape

namespace Shape

theorem sizeOf_lt_of_mem {k : String} {s : Shape} {f : List (String × Shape)} (h : (k, s) ∈ f) :
    sizeOf s < sizeOf f := by
  have := List.sizeOf_lt_of_mem h
  simp only [Prod.mk.sizeOf_spec] at this
  omega

/-- The join of two shapes seen in the same place. Where one of them is optional, what the other
one says comes first. -/
def join (a b : Shape) : Shape :=
  if a = b then a
  else
    match a, b with
    | bottom, b => b
    | a, bottom => a
    | int, float => float
    | float, int => float
    | optional a, b => (join b.stripOptional a).makeOptional
    | a, optional b => (join a b).makeOptional
    | list a, list b => list (join a b)
    | record f, record g =>
      record ((Alignment.align f g).attach.map fun
        | ⟨(k, .both x y), _⟩ => (k, join x y)
        | ⟨(k, .alone x), _⟩ => (k, x.makeOptional))
    | _, _ => top
termination_by sizeOf a + sizeOf b
decreasing_by
  · have := sizeOf_stripOptional_le b
    simp only [optional.sizeOf_spec]
    omega
  · simp only [optional.sizeOf_spec]
    omega
  · simp only [list.sizeOf_spec]
    omega
  · next h =>
    obtain ⟨hx, hy⟩ := Alignment.mem_of_mem_align_both h
    have := sizeOf_lt_of_mem hx
    have := sizeOf_lt_of_mem hy
    simp only [record.sizeOf_spec]
    omega

/-- The join of the fields of two records: the keys of the first in order, then those that only
the second has. -/
def joinFields (f g : Fields) : Fields :=
  if f = g then f
  else (Alignment.align f g).map fun (k, p) => (k, p.resolve join makeOptional)

/-- The join of all shapes of a list. -/
def fold (shapes : List Shape) : Shape :=
  shapes.foldl join bottom

theorem join_self (a : Shape) : join a a = a := by
  rw [join.eq_def, if_pos rfl]

/-- Records are joined by joining their fields. -/
theorem join_record (f g : Fields) : join (record f) (record g) = record (joinFields f g) := by
  by_cases h : f = g
  · rw [h, join_self, joinFields, if_pos rfl]
  · rw [join.eq_def, if_neg (fun e => h (Shape.record.inj e)), joinFields, if_neg h]
    rw [← List.attach_map_val]
    refine congrArg record (List.map_congr_left fun p _ => ?_)
    obtain ⟨⟨k, _ | _⟩, _⟩ := p <;> rfl

end Shape

end JsonShape
