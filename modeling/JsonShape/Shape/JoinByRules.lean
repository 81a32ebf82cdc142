import JsonShape.Shape.Join

/-!
# The join by its rules alone

`Shape.join` gives two equal shapes back at once. `Shape.joinByRules` does so for scalars only:
equal optionals, lists and records are taken apart and put together again by the rules for their
kinds.
-/

namespace JsonShape.Shape

/-- A shape that has no parts. -/
def isScalar : Shape → Bool
  | optional _ | list _ | record _ => false
  | _ => true

/-- The join of two shapes, whose parts are joined even if they are equal. -/
def joinByRules (a b : Shape) : Shape :=
  if a.isScalar ∧ a = b then a
  else
    match a, b with
    | bottom, b => b
    | a, bottom => a
    | int, float => float
    | float, int => float
    | optional a, b => (joinByRules b.stripOptional a).makeOptional
    | a, optional b => (joinByRules a b).makeOptional
    | list a, list b => list (joinByRules a b)
    | record f, record g =>
      record ((Alignment.align f g).attach.map fun
        | ⟨(k, .both x y), _⟩ => (k, joinByRules x y)
        | ⟨(k, .alone x), _⟩ => (k, x.makeOptional))
    | _, _ => top
termination_by sizeOf a + sizeOf b
decreasing_by
  · have := sizeOf_stripOptional_le b
    simp only [optional.sizeOf_spec]
    omega
  · simp only [optional.sizeOf_spec]
    omega
  · simp only [list.sizeOf_spec]
    omega
  · next h =>
    obtain ⟨hx, hy⟩ := Alignment.mem_of_mem_align_both h
    have := sizeOf_lt_of_mem hx
    have := sizeOf_lt_of_mem hy
    simp only [record.sizeOf_spec]
    omega

end JsonShape.Shape
