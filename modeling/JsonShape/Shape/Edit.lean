import JsonShape.Shape.Join

/-!
# Edits of a shape

A shape may be built up step by step. Each `Edit` replaces the current shape, and only one of them
can be refused: marking a shape as optional that is marked already.
-/

namespace JsonShape.Shape

/-- A step that replaces the current shape. -/
inductive Edit where
  /-- Starts anew from another shape. -/
  | set (s : Shape)
  /-- Joins another shape to the current one. -/
  | join (s : Shape)
  /-- Joins the current shape to another one. -/
  | joinLeft (s : Shape)
  | makeOptional
  | stripOptional
  | optional
  | list
  /-- A record with the current shape as its one field. -/
  | record (key : String)
  deriving DecidableEq, Repr

/-- The shape that an edit makes of the current one, unless it is refused. -/
def Edit.perform? (e : Edit) (current : Shape) : Option Shape :=
  match e with
  | set s => some s
  | join s => some (current.join s)
  | joinLeft s => some (s.join current)
  | makeOptional => some current.makeOptional
  | stripOptional => some current.stripOptional
  | optional => current.optional?
  | list => some (.list current)
  | record key => some (.record [(key, current)])

/-- An edit that is refused leaves the current shape as it is. -/
def Edit.perform (e : Edit) (current : Shape) : Shape :=
  (e.perform? current).getD current

/-- The shapes after each of the edits. -/
def history (current : Shape) : List Edit → List Shape
  | [] => []
  | e :: edits => e.perform current :: history (e.perform current) edits

end JsonShape.Shape
