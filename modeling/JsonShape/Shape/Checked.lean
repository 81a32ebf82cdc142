import JsonShape.Shape.Edit

/-!
# Shapes built under a check

An optional shape is built by `Shape.optional?`, which refuses a shape that is optional already.
Here the join and the edits build every optional shape in that way, also those inside the shape that
comes out: `Shape.join?` and `Shape.Edit.build?` fail as soon as one of them is refused.
-/

namespace JsonShape.Shape

/-- Marks a shape as optional, under the check, unless it is marked already. -/
def makeOptional? : Shape → Option Shape
  | optional s => some (optional s)
  | s => s.optional?

/-- The join of two shapes, if none of the optional shapes in it is refused. -/
def join? (a b : Shape) : Option Shape :=
  if a = b then some a
  else
    match a, b with
    | bottom, b => some b
    | a, bottom => some a
    | int, float => some float
    | float, int => some float
    | optional a, b => (join? b.stripOptional a).bind makeOptional?
    | a, optional b => (join? a b).bind makeOptional?
    | list a, list b => (join? a b).map list
    | record f, record g =>
      ((Alignment.align f g).attach.mapM (m := Option) fun
        | ⟨(k, .both x y), _⟩ => (join? x y).map (Prod.mk k)
        | ⟨(k, .alone x), _⟩ => x.makeOptional?.map (Prod.mk k)).map record
    | _, _ => some top
termination_by sizeOf a + sizeOf b
decreasing_by
  · have := sizeOf_stripOptional_le b
    simp only [optional.sizeOf_spec]
    omega
  · simp only [optional.sizeOf_spec]
    omega
  · simp only [list.sizeOf_spec]
    omega
  · next h =>
    obtain ⟨hx, hy⟩ := Alignment.mem_of_mem_align_both h
    have := sizeOf_lt_of_mem hx
    have := sizeOf_lt_of_mem hy
    simp only [record.sizeOf_spec]
    omega

/-- The shape that an edit makes of the current one, unless an optional shape in it is refused. -/
def Edit.build? (e : Edit) (current : Shape) : Option Shape :=
  match e with
  | set s => some s
  | join s => current.join? s
  | joinLeft s => s.join? current
  | makeOptional => current.makeOptional?
  | stripOptional => some current.stripOptional
  | optional => current.optional?
  | list => some (.list current)
  | record key => some (.record [(key, current)])

/-- The shape that the edit brings along can be built. -/
def Edit.Constructible : Edit → Prop
  | set s | join s | joinLeft s => s.Constructible
  | _ => True

end JsonShape.Shape
