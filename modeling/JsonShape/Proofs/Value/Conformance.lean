import JsonShape.Proofs.Value.Shape
import JsonShape.Value.Conformance

/-!
# The shape of a value is principal

Whatever one shape admits, every larger one admits too (`Value.Conforms.mono`). The shape of a value
admits the value (`Value.conforms_shape`), and among the shapes of distinct keys that admit it, it
is the least (`Value.shape_le`).
-/

namespace JsonShape.Value

open Shape (Le)

/-- A shape admits null exactly if it is optional; whatever else it admits, its inner shape does. -/
theorem Conforms.eq_null_or_strip {v : Value} {s : Shape} (h : v.Conforms s) :
    v = Value.null ∧ s.isOptional = true ∨ v ≠ Value.null ∧ v.Conforms s.stripOptional := by
  cases h with
  | null => exact .inl ⟨rfl, rfl⟩
  | @optional v s h =>
    by_cases hv : v = Value.null
    · exact .inl ⟨hv, rfl⟩
    · exact .inr ⟨hv, h⟩
  | top hv => exact .inr ⟨hv, .top hv⟩
  | bool b => exact .inr ⟨nofun, .bool b⟩
  | str text => exact .inr ⟨nofun, .str text⟩
  | int h => exact .inr ⟨nofun, .int h⟩
  | float literal => exact .inr ⟨nofun, .float literal⟩
  | list h => exact .inr ⟨nofun, .list h⟩
  | record known admitted absent => exact .inr ⟨nofun, .record known admitted absent⟩

/-- Nothing optional is below a shape that is not optional. -/
theorem isOptional_of_le {s t : Shape} (h : s ≤ t) (hs : s.isOptional = true) :
    t.isOptional = true := by
  cases h with
  | optional => rfl
  | top h => rw [h] at hs; cases hs
  | _ => cases hs

/-- Whatever a shape admits, every larger shape admits. -/
theorem Conforms.mono {v : Value} {s t : Shape} (h : v.Conforms s) (hst : s ≤ t) :
    v.Conforms t := by
  induction hst generalizing v with
  | bottom => cases h
  | top hs =>
    rcases h.eq_null_or_strip with ⟨-, ho⟩ | ⟨hv, -⟩
    · rw [hs] at ho; cases ho
    · exact .top hv
  | bool | str | int | float => exact h
  | widen => cases h; exact .float _
  | optional _ ih =>
    rcases h.eq_null_or_strip with ⟨rfl, -⟩ | ⟨-, h⟩
    · exact .null _
    · exact .optional (ih h)
  | list _ ih =>
    cases h with
    | list h => exact .list fun v hv => ih (h v hv)
  | @record f g known below absent ih =>
    cases h with
    | @record ms _ known' admitted' absent' =>
      refine .record (fun m hm => ?_) (fun key v t hv ht => ?_) (fun key t ht hn => ?_)
      · obtain ⟨p, hp, hk⟩ := List.mem_map.1 (known' m hm)
        exact hk ▸ known p hp
      · obtain ⟨⟨_, s⟩, hs, rfl⟩ := List.mem_map.1 (known' (key, v) hv)
        exact ih _ s t hs ht (admitted' _ v s hv hs)
      · by_cases hk : key ∈ f.map (·.1)
        · obtain ⟨⟨_, s⟩, hs, rfl⟩ := List.mem_map.1 hk
          exact isOptional_of_le (below _ s t hs ht) (absent' _ s hs hn)
        · exact absent key t ht hk

/-- The shape of a value admits the value. -/
theorem conforms_shape (v : Value) : v.Conforms v.shape := by
  induction v using induction with
  | null => exact .null _
  | bool b => exact .bool b
  | string text => exact .str text
  | number literal =>
    rw [shape]
    split
    · exact .float literal
    · next h => exact .int (by simpa [not_or] using h)
  | array vs ih =>
    rw [shape_array]
    refine .list fun v hv => (ih v hv).mono (Shape.le_fold ?_ (List.mem_map_of_mem hv))
    exact joinable_shapes (List.forall_mem_map.2 fun w _ => ⟨w, rfl⟩)
  | object ms ih =>
    rw [shape]
    refine .record (fun m hm => ?_) (fun key v s hv hs => ?_) (fun key s hs hn => ?_)
    · rw [Fields.keys_gather, List.mem_eraseDups, keys_memberShapes]
      exact List.mem_map_of_mem hm
    · rw [(mem_shape_object.1 hs).2]
      refine (ih key v hv).mono (Shape.le_fold (joinable_shapes fun x hx => ?_) ?_)
      · obtain ⟨w, -, hw⟩ := mem_values_memberShapes.1 hx
        exact ⟨w, hw⟩
      · exact mem_values_memberShapes.2 ⟨v, hv, rfl⟩
    · exact absurd (mem_shape_object.1 hs).1 hn

/-- Among the shapes of distinct keys that admit a value, its own shape is the least. -/
theorem shape_le {v : Value} {c : Shape} (h : v.Conforms c) (hc : c.DistinctKeys) :
    v.shape ≤ c := by
  induction h with
  | top hv => exact Le.top (isOptional_shape hv)
  | bool => exact Le.bool
  | str => exact Le.str
  | int h => rw [shape, if_neg (by simpa [not_or] using h)]; exact Le.int
  | float literal =>
    rw [shape]
    split
    · exact Le.float
    · exact Le.widen
  | null s => exact Le.optional (Le.bottom s)
  | @optional v s _ ih =>
    refine Le.optional ?_
    by_cases hv : v = null
    · subst hv
      exact Le.bottom s
    · rw [Shape.stripOptional_eq_self (isOptional_shape hv)]
      exact ih hc
  | @list vs s _ ih =>
    rw [shape_array]
    refine Le.list (Shape.fold_le hc ?_ (List.forall_mem_map.2 fun v hv => ih v hv hc))
    exact joinable_shapes (List.forall_mem_map.2 fun w _ => ⟨w, rfl⟩)
  | @record ms g known _ absent ih =>
    rw [Shape.distinctKeys_record] at hc
    rw [shape]
    refine Le.record (fun p hp => ?_) (fun key s t hs ht => ?_) (fun key t ht hn => ?_)
    · obtain ⟨m, hm, hk⟩ := List.mem_map.1 (mem_shape_object.1 hp).1
      exact hk ▸ known m hm
    · rw [(mem_shape_object.1 hs).2]
      refine Shape.fold_le (hc.2 key t ht) (joinable_shapes fun x hx => ?_) (fun x hx => ?_)
      · obtain ⟨w, -, hw⟩ := mem_values_memberShapes.1 hx
        exact ⟨w, hw⟩
      · obtain ⟨w, hw, rfl⟩ := mem_values_memberShapes.1 hx
        exact ih key w t hw ht (hc.2 key t ht)
    · refine absent key t ht fun hk => hn ?_
      rw [← keys_memberShapes, ← List.mem_eraseDups, ← Fields.keys_gather] at hk
      exact hk

end JsonShape.Value
