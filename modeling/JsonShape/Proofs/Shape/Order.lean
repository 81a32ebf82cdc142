import JsonShape.Proofs.Shape.Ranks
import JsonShape.Shape.Order
import JsonShape.Shape.Reordering

/-!
# The order of shapes with repeated keys

The order `≤` finds the field of a key by the key alone, which is enough where keys are distinct.
`Shape.Within` is the same order with fields found by key and rank, and makes sense of every shape.
It is a preorder (`Within.refl`, `Within.trans`), two shapes lie within each other exactly if they
are reorderings of each other (`reordering_iff`), and on shapes of distinct keys it is the order `≤`
(`Within.le`, `Le.within`).
-/

namespace JsonShape.Shape

/-- The shape `b` says of a place whatever the shape `a` says of it, and maybe less. Fields are
found by key and rank. -/
inductive Within : Shape → Shape → Prop where
  | bottom (b : Shape) : Within bottom b
  | top {a : Shape} (h : a.isOptional = false) : Within a top
  | bool : Within bool bool
  | str : Within str str
  | int : Within int int
  | float : Within float float
  | widen : Within int float
  | optional {a b : Shape} (h : Within a.stripOptional b) : Within a (optional b)
  | list {a b : Shape} (h : Within a b) : Within (list a) (list b)
  | record {f g : Fields}
      (known : ∀ key (i : Nat), (g.values key)[i]? = none → (f.values key)[i]? = none)
      (below : ∀ key (i : Nat) s t,
        (f.values key)[i]? = some s → (g.values key)[i]? = some t → Within s t)
      (absent : ∀ key (i : Nat) t,
        (f.values key)[i]? = none → (g.values key)[i]? = some t → t.isOptional = true) :
      Within (record f) (record g)

/-- A shape that is not optional is its own inner shape. -/
theorem stripOptional_eq_self {a : Shape} (h : a.isOptional = false) : a.stripOptional = a := by
  cases a with
  | optional => cases h
  | _ => rfl

/-- The inner shape of a constructible shape is not optional. -/
theorem Constructible.isOptional_stripOptional {a : Shape} (h : a.Constructible) :
    a.stripOptional.isOptional = false := by
  cases a with
  | optional => exact h.1
  | _ => rfl

/-- The inner shape of a constructible shape is constructible. -/
theorem Constructible.stripOptional {a : Shape} (h : a.Constructible) :
    a.stripOptional.Constructible := by
  cases a with
  | optional => exact h.2
  | _ => exact h

/-! ## Optional shapes in the order -/

/-- Nothing optional lies within a shape that is not. -/
theorem Within.isOptional {a b : Shape} (h : a.Within b) (hb : b.isOptional = false) :
    a.isOptional = false := by
  cases h with
  | top ha => exact ha
  | optional => cases hb
  | _ => rfl

/-- Whatever an optional shape lies within is optional. -/
theorem Within.isOptional_of_isOptional {a b : Shape} (h : a.Within b)
    (ha : a.isOptional = true) : b.isOptional = true := by
  cases hb : b.isOptional with
  | true => rfl
  | false => rw [h.isOptional hb] at ha; cases ha

/-- Taking the marks of both sides away keeps the order. -/
theorem Within.stripOptional {a b : Shape} (h : a.Within b) :
    a.stripOptional.Within b.stripOptional := by
  cases hb : b.isOptional with
  | true =>
    cases h with
    | bottom => exact .bottom _
    | optional h => exact h
    | _ => cases hb
  | false => rwa [stripOptional_eq_self hb, stripOptional_eq_self (h.isOptional hb)]

/-- Only the inner shape counts on the left of an optional one. -/
theorem within_makeOptional_iff {a b : Shape} :
    a.Within b.makeOptional ↔ a.stripOptional.Within b.stripOptional := by
  refine ⟨fun h => ?_, fun h => ?_⟩
  · have := h.stripOptional
    cases b <;> exact this
  · cases b <;> exact .optional h

/-! ## A preorder -/

/-- A shape lies within itself. -/
theorem Within.refl (a : Shape) : a.Within a := by
  cases a with
  | bottom => exact .bottom _
  | top => exact .top rfl
  | bool => exact .bool
  | str => exact .str
  | int => exact .int
  | float => exact .float
  | optional a => exact .optional (Within.refl a)
  | list a => exact .list (Within.refl a)
  | record f =>
    refine .record (fun _ _ h => h) (fun key i s t hs ht => ?_) (fun key i t hn ht => ?_)
    · cases hs.symm.trans ht
      have := sizeOf_lt_of_mem (Fields.mem_of_getElem?_values hs)
      exact Within.refl s
    · cases hn.symm.trans ht
termination_by sizeOf a

/-- The order is transitive. -/
theorem Within.trans {a b c : Shape} (hab : a.Within b) (hbc : b.Within c) : a.Within c := by
  induction hbc generalizing a with
  | bottom =>
    cases hab with
    | bottom => exact .bottom _
  | top hb => exact .top (hab.isOptional hb)
  | bool | str | int | float => exact hab
  | widen =>
    cases hab with
    | bottom => exact .bottom _
    | int => exact .widen
  | optional _ ih => exact .optional (ih hab.stripOptional)
  | list _ ih =>
    cases hab with
    | bottom => exact .bottom _
    | list h => exact .list (ih h)
  | @record g e known below absent ih =>
    cases hab with
    | bottom => exact .bottom _
    | @record f _ known' below' absent' =>
      refine .record (fun key i h => known' key i (known key i h)) (fun key i s t hs ht => ?_)
        (fun key i t hn ht => ?_)
      · cases hg : (g.values key)[i]? with
        | none => cases (known' key i hg).symm.trans hs
        | some u => exact ih key i u t hg ht (below' key i s u hs hg)
      · cases hg : (g.values key)[i]? with
        | none => exact absent key i t hg ht
        | some u =>
          have hu := absent' key i u hn hg
          exact (below key i u t hg ht).isOptional_of_isOptional hu

/-! ## Records, place by place -/

/-- What one record has in a place lies within what another one has there: nothing lies within
nothing, and within an optional shape. -/
def SlotWithin : Option Shape → Option Shape → Prop
  | some s, some t => s.Within t
  | none, some t => t.isOptional = true
  | none, none => True
  | some _, none => False

/-- A record lies within another one exactly if it does so place by place. -/
theorem within_record_iff {f g : Fields} :
    (record f).Within (record g) ↔
      ∀ key (i : Nat), SlotWithin (f.values key)[i]? (g.values key)[i]? := by
  refine ⟨fun h key i => ?_, fun h => ?_⟩
  · cases h with
    | record known below absent =>
      cases hf : (f.values key)[i]? with
      | some s =>
        cases hg : (g.values key)[i]? with
        | some t => exact below key i s t hf hg
        | none => cases (known key i hg).symm.trans hf
      | none =>
        cases hg : (g.values key)[i]? with
        | some t => exact absent key i t hf hg
        | none => trivial
  · refine .record (fun key i hg => ?_) (fun key i s t hs ht => ?_) (fun key i t hn ht => ?_)
    · have := h key i
      cases hf : (f.values key)[i]? with
      | some s => rw [hf, hg] at this; exact this.elim
      | none => rfl
    · have := h key i
      rwa [hs, ht] at this
    · have := h key i
      rwa [hn, ht] at this

/-! ## Reorderings -/

/-- Reorderings can be read backwards. -/
theorem Reordering.symm {a b : Shape} (h : Reordering a b) : Reordering b a := by
  induction h with
  | bottom => exact .bottom
  | top => exact .top
  | bool => exact .bool
  | str => exact .str
  | int => exact .int
  | float => exact .float
  | optional _ ih => exact .optional ih
  | list _ ih => exact .list ih
  | record counts _ ih =>
    exact .record (fun key => (counts key).symm) (fun key i s t hs ht => ih key i t s ht hs)

/-- Two records that have as many fields of a key have the same ranks of the key. -/
theorem getElem?_eq_none_of_length {xs ys : List Shape} (h : xs.length = ys.length) {i : Nat}
    (hy : ys[i]? = none) : xs[i]? = none := by
  rw [List.getElem?_eq_none_iff] at hy ⊢
  omega

/-- The order of fields does not count. -/
theorem Reordering.within {a b : Shape} (h : Reordering a b) : a.Within b := by
  induction h with
  | bottom => exact .bottom _
  | top => exact .top rfl
  | bool => exact .bool
  | str => exact .str
  | int => exact .int
  | float => exact .float
  | optional _ ih => exact .optional ih
  | list _ ih => exact .list ih
  | record counts _ ih =>
    refine .record (fun key i h => getElem?_eq_none_of_length (counts key) h) ih
      (fun key i t hn ht => ?_)
    cases (getElem?_eq_none_of_length (counts key).symm hn).symm.trans ht

/-- Shapes that lie within each other differ in the order of fields alone. -/
theorem Within.antisymm {a b : Shape} (hab : a.Within b) (hba : b.Within a) : Reordering a b := by
  induction hab with
  | bottom =>
    cases hba with
    | bottom => exact .bottom
  | top ha =>
    cases hba with
    | top => exact .top
    | optional => cases ha
  | bool => exact .bool
  | str => exact .str
  | int => exact .int
  | float => exact .float
  | widen => cases hba
  | @optional a b _ ih =>
    cases hba with
    | top h => cases h
    | optional h => exact .optional (ih h)
  | list _ ih =>
    cases hba with
    | list h => exact .list (ih h)
  | @record f g known _ _ ih =>
    cases hba with
    | record known' below' _ =>
      refine .record (fun key => Nat.le_antisymm ?_ ?_) (fun key i s t hs ht => ?_)
      · exact List.getElem?_eq_none_iff.1
          (known key _ (List.getElem?_eq_none_iff.2 (Nat.le_refl _)))
      · exact List.getElem?_eq_none_iff.1
          (known' key _ (List.getElem?_eq_none_iff.2 (Nat.le_refl _)))
      · exact ih key i s t hs ht (below' key i t s ht hs)

/-- Two shapes are reorderings of each other exactly if each lies within the other. -/
theorem reordering_iff {a b : Shape} : Reordering a b ↔ a.Within b ∧ b.Within a :=
  ⟨fun h => ⟨h.within, h.symm.within⟩, fun ⟨hab, hba⟩ => hab.antisymm hba⟩

/-! ## Distinct keys -/

/-- The keys of the shapes of some fields are distinct exactly if those of each are. -/
theorem distinctKeysOfFields_iff {f : Fields} :
    DistinctKeysOfFields f ↔ ∀ p ∈ f, p.2.DistinctKeys := by
  induction f with
  | nil => simp [DistinctKeysOfFields]
  | cons p f ih => simp [DistinctKeysOfFields, ih]

/-- A record has distinct keys at any depth exactly if its own are distinct and its fields have
distinct keys. -/
theorem distinctKeys_record {f : Fields} :
    (record f).DistinctKeys ↔ f.keys.Nodup ∧ ∀ key s, (key, s) ∈ f → s.DistinctKeys := by
  rw [DistinctKeys, distinctKeysOfFields_iff]
  exact and_congr_right fun _ => ⟨fun h key s hs => h _ hs, fun h p hp => h p.1 p.2 hp⟩

/-- Taking a mark away leaves the keys. -/
theorem DistinctKeys.stripOptional {a : Shape} (h : a.DistinctKeys) :
    a.stripOptional.DistinctKeys := by
  cases a <;> exact h

/-- With distinct keys, fields found by key and rank are fields found by key. -/
theorem Within.le {a b : Shape} (h : a.Within b) (ha : a.DistinctKeys) (hb : b.DistinctKeys) :
    a ≤ b := by
  induction h with
  | bottom => exact Le.bottom _
  | top h => exact Le.top h
  | bool => exact Le.bool
  | str => exact Le.str
  | int => exact Le.int
  | float => exact Le.float
  | widen => exact Le.widen
  | optional _ ih => exact Le.optional (ih ha.stripOptional hb)
  | list _ ih => exact Le.list (ih ha hb)
  | @record f g known _ absent ih =>
    rw [distinctKeys_record] at ha hb
    refine Le.record (fun p hp => ?_) (fun key s t hs ht => ?_) (fun key t ht hn => ?_)
    · by_cases hk : p.1 ∈ g.keys
      · exact hk
      · have hf : Fields.values f p.1 = [p.2] := Fields.values_eq_singleton ha.1 hp
        have := known p.1 0 (by rw [Fields.values_eq_nil.2 hk]; rfl)
        rw [hf] at this
        cases this
    · refine ih key 0 s t ?_ ?_ (ha.2 key s hs) (hb.2 key t ht)
      · rw [Fields.values_eq_singleton ha.1 hs]; rfl
      · rw [Fields.values_eq_singleton hb.1 ht]; rfl
    · refine absent key 0 t ?_ ?_
      · rw [Fields.values_eq_nil.2 hn]; rfl
      · rw [Fields.values_eq_singleton hb.1 ht]; rfl

/-- With distinct keys, fields found by key are fields found by key and rank. -/
theorem Le.within {a b : Shape} (h : a ≤ b) (ha : a.DistinctKeys) (hb : b.DistinctKeys) :
    a.Within b := by
  induction h with
  | bottom => exact .bottom _
  | top h => exact .top h
  | bool => exact .bool
  | str => exact .str
  | int => exact .int
  | float => exact .float
  | widen => exact .widen
  | optional _ ih => exact .optional (ih ha.stripOptional hb)
  | list _ ih => exact .list (ih ha hb)
  | @record f g known _ absent ih =>
    rw [distinctKeys_record] at ha hb
    refine .record (fun key i hn => ?_) (fun key i s t hs ht => ?_) (fun key i t hn ht => ?_)
    · cases hs : (Fields.values f key)[i]? with
      | none => rfl
      | some s =>
        have hf := Fields.mem_of_getElem?_values hs
        obtain ⟨⟨_, t⟩, ht, rfl⟩ := List.mem_map.1 (known _ hf)
        rw [Fields.values_eq_singleton ha.1 hf, List.getElem?_singleton] at hs
        rw [Fields.values_eq_singleton hb.1 ht, List.getElem?_singleton] at hn
        split at hn
        · cases hn
        · next hi => rw [if_neg hi] at hs; cases hs
    · have hf := Fields.mem_of_getElem?_values hs
      have hg := Fields.mem_of_getElem?_values ht
      exact ih key s t hf hg (ha.2 key s hf) (hb.2 key t hg)
    · have hg := Fields.mem_of_getElem?_values ht
      refine absent key t hg fun hk => ?_
      obtain ⟨⟨_, s⟩, hf, rfl⟩ := List.mem_map.1 hk
      rw [Fields.values_eq_singleton hb.1 hg, List.getElem?_singleton] at ht
      rw [Fields.values_eq_singleton ha.1 hf, List.getElem?_singleton] at hn
      split at hn
      · cases hn
      · next hi => rw [if_neg hi] at ht; cases ht

end JsonShape.Shape
