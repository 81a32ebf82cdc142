/-!
# Shapes

A `Shape` says what is known of the JSON values seen in one place. `Shape.bottom` is the shape of
a place where nothing was seen and `Shape.top` that of a place whose values have no kind in common.
An optional place is one whose value may be null or absent; saying so twice says nothing new, so
the shapes of interest are the `Constructible` ones, in which no optional is the inner shape of
another, and `optional?`, `makeOptional` and `stripOptional` stay among them.
-/

namespace JsonShape

/-- What is known of the values of one place. -/
inductive Shape where
  /-- No value was seen. -/
  | bottom
  /-- The values seen are of kinds that do not go together. -/
  | top
  | bool
  | str
  /-- Numbers without a fraction or an exponent. -/
  | int
  /-- Numbers of any form. -/
  | float
  /-- A value that may be null, or absent from its record. -/
  | optional (inner : Shape)
  /-- Arrays, all of whose elements have one shape. -/
  | list (element : Shape)
  /-- Objects, with their fields in the order in which they were first seen. -/
  | record (fields : List (String × Shape))
  deriving Inhabited, Repr

/-- Named shapes in their order of appearance. A key may stand there twice. -/
abbrev Fields := List (String × Shape)

namespace Shape

/-! ## Equality -/

mutual

/-- Two shapes are equal if they are built in the same way, field order included. -/
def beq : Shape → Shape → Bool
  | bottom, bottom => true
  | top, top => true
  | bool, bool => true
  | str, str => true
  | int, int => true
  | float, float => true
  | optional a, optional b => beq a b
  | list a, list b => beq a b
  | record f, record g => beqFields f g
  | _, _ => false

/-- Equality of field sequences, field by field. -/
def beqFields : List (String × Shape) → List (String × Shape) → Bool
  | [], [] => true
  | (k, a) :: f, (l, b) :: g => k == l && beq a b && beqFields f g
  | _, _ => false

end

mutual

theorem beq_refl : (a : Shape) → beq a a = true
  | bottom | top | bool | str | int | float => rfl
  | optional a => beq_refl a
  | list a => beq_refl a
  | record f => beqFields_refl f

theorem beqFields_refl : (f : List (String × Shape)) → beqFields f f = true
  | [] => rfl
  | (k, a) :: f => by simp [beqFields, beq_refl a, beqFields_refl f]

end

mutual

theorem eq_of_beq : {a b : Shape} → beq a b = true → a = b
  | bottom, b, h | top, b, h | bool, b, h | str, b, h | int, b, h | float, b, h => by
    cases b <;> first | rfl | cases h
  | optional a, b, h => by
    cases b with
    | optional b => rw [eq_of_beq (a := a) (b := b) h]
    | _ => cases h
  | list a, b, h => by
    cases b with
    | list b => rw [eq_of_beq (a := a) (b := b) h]
    | _ => cases h
  | record f, b, h => by
    cases b with
    | record g => rw [eq_of_beqFields (f := f) (g := g) h]
    | _ => cases h

theorem eq_of_beqFields : {f g : List (String × Shape)} → beqFields f g = true → f = g
  | [], [], _ => rfl
  | [], _ :: _, h | _ :: _, [], h => by cases h
  | (k, a) :: f, (l, b) :: g, h => by
    simp only [beqFields, Bool.and_eq_true, beq_iff_eq] at h
    obtain ⟨⟨rfl, ha⟩, hf⟩ := h
    rw [eq_of_beq ha, eq_of_beqFields hf]

end

instance : DecidableEq Shape := fun a b =>
  if h : beq a b = true then .isTrue (eq_of_beq h)
  else .isFalse fun hab => h (hab ▸ beq_refl a)

/-! ## Optional shapes -/

/-- A place that was seen null, or absent. -/
def isOptional : Shape → Bool
  | optional _ => true
  | _ => false

/-- Marks a shape as optional, unless it is marked already. -/
def optional? (s : Shape) : Option Shape :=
  if s.isOptional then none else some (optional s)

/-- Marks a shape as optional; a shape that is marked already stays as it is. -/
def makeOptional : Shape → Shape
  | optional s => optional s
  | s => optional s

/-- Takes the mark of an optional shape away. -/
def stripOptional : Shape → Shape
  | optional s => s
  | s => s

mutual

/-- No optional is the inner shape of an optional, at any depth. -/
def Constructible : Shape → Prop
  | optional s => s.isOptional = false ∧ s.Constructible
  | list s => s.Constructible
  | record f => ConstructibleFields f
  | _ => True

/-- The shape of every field is constructible. -/
def ConstructibleFields : List (String × Shape) → Prop
  | [] => True
  | (_, s) :: f => s.Constructible ∧ ConstructibleFields f

end

/-- What the log calls a shape, whatever its parts are. -/
def kindName : Shape → String
  | bottom => "Bottom"
  | top => "Top"
  | bool => "Bool"
  | str => "Str"
  | int => "Integer"
  | float => "Float"
  | optional _ => "Optional"
  | list _ => "List"
  | record _ => "Record"

theorem optional?_eq_some_iff {s t : Shape} :
    s.optional? = some t ↔ s.isOptional = false ∧ t = optional s := by
  unfold optional?
  cases s.isOptional <;> simp [eq_comm]

theorem isOptional_makeOptional (s : Shape) : s.makeOptional.isOptional = true := by
  cases s <;> rfl

theorem sizeOf_stripOptional_le (s : Shape) : sizeOf s.stripOptional ≤ sizeOf s := by
  cases s with
  | optional t =>
    show sizeOf t ≤ sizeOf (optional t)
    simp
  | _ => exact Nat.le_refl _

theorem constructibleFields_iff {f : List (String × Shape)} :
    ConstructibleFields f ↔ ∀ p ∈ f, p.2.Constructible := by
  induction f with
  | nil => simp [ConstructibleFields]
  | cons p f ih => simp [ConstructibleFields, ih]

end Shape

end JsonShape
