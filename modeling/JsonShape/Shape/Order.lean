import JsonShape.Shape.Join

/-!
# The order of shapes

`a ≤ b` says that the shape `b` admits whatever the shape `a` admits. Bottom is below every shape
and top above every shape that is not optional; integers are below floats; a shape is below an
optional one if it is so without its own mark. A record is below another if its fields are below the
other's of the same keys and the other's remaining fields are optional.
-/

namespace JsonShape.Shape

mutual

/-- The keys of each record are distinct, at any depth. -/
def DistinctKeys : Shape → Prop
  | optional s => s.DistinctKeys
  | list s => s.DistinctKeys
  | record f => (f.map (·.1)).Nodup ∧ DistinctKeysOfFields f
  | _ => True

/-- The keys of each record in the shape of a field are distinct. -/
def DistinctKeysOfFields : List (String × Shape) → Prop
  | [] => True
  | (_, s) :: f => s.DistinctKeys ∧ DistinctKeysOfFields f

end

/-- The order of shapes. -/
inductive Le : Shape → Shape → Prop where
  | bottom (b : Shape) : Le bottom b
  | top {a : Shape} (h : a.isOptional = false) : Le a top
  | bool : Le bool bool
  | str : Le str str
  | int : Le int int
  | float : Le float float
  | widen : Le int float
  | optional {a b : Shape} (h : Le a.stripOptional b) : Le a (optional b)
  | list {a b : Shape} (h : Le a b) : Le (list a) (list b)
  | record {f g : List (String × Shape)}
      (known : ∀ p ∈ f, p.1 ∈ g.map (·.1))
      (below : ∀ key s t, (key, s) ∈ f → (key, t) ∈ g → Le s t)
      (absent : ∀ key t, (key, t) ∈ g → key ∉ f.map (·.1) → t.isOptional = true) :
      Le (record f) (record g)

instance : LE Shape := ⟨Le⟩

end JsonShape.Shape
