import JsonShape.Shape.Basic

/-!
# Renamed keys

`Shape.rename` replaces every key of a shape, at any depth, and leaves all else as it is.
-/

namespace JsonShape.Shape

mutual

/-- The shape with other keys. -/
def rename (naming : String → String) : Shape → Shape
  | optional s => optional (s.rename naming)
  | list s => list (s.rename naming)
  | record f => record (renameFields naming f)
  | s => s

/-- The fields with other keys. -/
def renameFields (naming : String → String) : List (String × Shape) → List (String × Shape)
  | [] => []
  | (key, s) :: f => (naming key, s.rename naming) :: renameFields naming f

end

end JsonShape.Shape
