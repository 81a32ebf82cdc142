import JsonShape.Proofs.Shape.Fold
import JsonShape.Proofs.Shape.Gather
import JsonShape.Value.Basic

/-!
# The shapes of values

The shape of a value is defined by recursion over the value. `Value.induction` is the induction that
goes with it, and the equations for arrays and objects read off the shapes of elements and members
one by one. Every shape of a value is constructible and has distinct keys
(`Value.constructible_shape`, `Value.distinctKeys_shape`).
-/

namespace JsonShape

namespace Value

/-- Induction over values: of an array the elements are known, of an object the members. -/
theorem induction {motive : Value → Prop} (null : motive null) (bool : ∀ b, motive (bool b))
    (number : ∀ literal, motive (number literal)) (string : ∀ text, motive (string text))
    (array : ∀ vs, (∀ v ∈ vs, motive v) → motive (array vs))
    (object : ∀ ms, (∀ key v, (key, v) ∈ ms → motive v) → motive (object ms)) :
    (v : Value) → motive v
  | .null => null
  | .bool b => bool b
  | .number literal => number literal
  | .string text => string text
  | .array vs => array vs fun v hv => by
    have := List.sizeOf_lt_of_mem hv
    exact induction null bool number string array object v
  | .object ms => object ms fun key v hv => by
    have := List.sizeOf_lt_of_mem hv
    exact induction null bool number string array object v
termination_by v => sizeOf v
decreasing_by
  · simp only [Value.array.sizeOf_spec]
    omega
  · simp only [Prod.mk.sizeOf_spec] at this
    simp only [Value.object.sizeOf_spec]
    omega

/-- The shapes of elements are the shapes of each. -/
theorem elementShapes_eq_map (vs : List Value) : elementShapes vs = vs.map shape := by
  induction vs with
  | nil => rfl
  | cons v vs ih => rw [elementShapes, ih, List.map_cons]

/-- The shapes of members are the shapes of each, under the same keys. -/
theorem memberShapes_eq_map (ms : List (String × Value)) :
    memberShapes ms = ms.map fun (key, v) => (key, v.shape) := by
  induction ms with
  | nil => rfl
  | cons m ms ih => rw [memberShapes, ih, List.map_cons]

/-- The elements of an array are shaped by their fold. -/
theorem shape_array (vs : List Value) : (array vs).shape = .list (Shape.fold (vs.map shape)) := by
  rw [shape, elementShapes_eq_map]

/-- The keys of the shapes of members are those of the members. -/
theorem keys_memberShapes (ms : List (String × Value)) :
    (memberShapes ms).keys = ms.map (·.1) := by
  simp [memberShapes_eq_map, Fields.keys, Function.comp_def]

/-- The shapes of a key are the shapes of its values. -/
theorem mem_values_memberShapes {ms : List (String × Value)} {key : String} {s : Shape} :
    s ∈ (memberShapes ms).values key ↔ ∃ v, (key, v) ∈ ms ∧ v.shape = s := by
  rw [Fields.mem_values, memberShapes_eq_map, List.mem_map]
  constructor
  · rintro ⟨⟨_, v⟩, hv, h⟩
    cases h
    exact ⟨v, hv, rfl⟩
  · rintro ⟨v, hv, rfl⟩
    exact ⟨(key, v), hv, rfl⟩

/-- The shape of an object has a field for each key: the fold of the shapes of the key's values. -/
theorem mem_shape_object {ms : List (String × Value)} {key : String} {s : Shape} :
    (key, s) ∈ (memberShapes ms).gather ↔
      key ∈ ms.map (·.1) ∧ s = Shape.fold ((memberShapes ms).values key) := by
  rw [Fields.mem_gather, keys_memberShapes]

/-- The shape of a value is constructible. -/
theorem constructible_shape (v : Value) : v.shape.Constructible := by
  induction v using induction with
  | null => exact ⟨rfl, trivial⟩
  | bool | string => trivial
  | number literal => rw [shape]; split <;> trivial
  | array vs ih =>
    rw [shape_array]
    exact Shape.constructible_fold (List.forall_mem_map.2 ih)
  | object ms ih =>
    rw [shape, Shape.constructible_record]
    intro key s hs
    rw [(mem_shape_object.1 hs).2]
    refine Shape.constructible_fold fun t ht => ?_
    obtain ⟨v, hv, rfl⟩ := mem_values_memberShapes.1 ht
    exact ih key v hv

/-- The shape of a value has distinct keys. -/
theorem distinctKeys_shape (v : Value) : v.shape.DistinctKeys := by
  induction v using induction with
  | null | bool | string => trivial
  | number literal => rw [shape]; split <;> trivial
  | array vs ih =>
    rw [shape_array]
    exact Shape.distinctKeys_fold (List.forall_mem_map.2 fun v _ => constructible_shape v)
      (List.forall_mem_map.2 ih)
  | object ms ih =>
    rw [shape, Shape.distinctKeys_record, Fields.keys_gather]
    refine ⟨nodup_eraseDups _, fun key s hs => ?_⟩
    rw [(mem_shape_object.1 hs).2]
    refine Shape.distinctKeys_fold (fun t ht => ?_) (fun t ht => ?_)
    · obtain ⟨v, -, rfl⟩ := mem_values_memberShapes.1 ht
      exact constructible_shape v
    · obtain ⟨v, hv, rfl⟩ := mem_values_memberShapes.1 ht
      exact ih key v hv

/-- Shapes of values can be joined: they are constructible and have distinct keys. -/
theorem joinable_shapes {xs : List Shape} (h : ∀ x ∈ xs, ∃ v : Value, v.shape = x) :
    ∀ x ∈ xs, x.Constructible ∧ x.DistinctKeys := by
  intro x hx
  obtain ⟨v, rfl⟩ := h x hx
  exact ⟨constructible_shape v, distinctKeys_shape v⟩

/-- Only null is shaped as something optional. -/
theorem isOptional_shape {v : Value} (h : v ≠ null) : v.shape.isOptional = false := by
  cases v with
  | null => exact absurd rfl h
  | number literal => rw [shape]; split <;> rfl
  | _ => rfl

end Value

end JsonShape
