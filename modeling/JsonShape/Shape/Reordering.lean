import JsonShape.Shape.Fields

/-!
# Shapes up to the order of their fields

Two shapes are reorderings of each other if they differ only in the order of fields, at any depth,
and if fields of the same key keep their order among each other.
-/

namespace JsonShape.Shape

/-- The shapes differ at most in the order of fields with different keys. -/
inductive Reordering : Shape → Shape → Prop where
  | bottom : Reordering bottom bottom
  | top : Reordering top top
  | bool : Reordering bool bool
  | str : Reordering str str
  | int : Reordering int int
  | float : Reordering float float
  | optional {a b : Shape} (h : Reordering a b) : Reordering (optional a) (optional b)
  | list {a b : Shape} (h : Reordering a b) : Reordering (list a) (list b)
  | record {f g : Fields}
      (counts : ∀ key, (f.values key).length = (g.values key).length)
      (shapes : ∀ key (i : Nat) a b,
        (f.values key)[i]? = some a → (g.values key)[i]? = some b → Reordering a b) :
      Reordering (record f) (record g)

end JsonShape.Shape
