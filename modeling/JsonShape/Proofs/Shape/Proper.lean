import JsonShape.Proofs.Shape.Join

/-!
# What all inferred shapes have in common

A `Shape.Proper` shape is constructible, its records have distinct keys, and it has bottom nowhere
but directly inside an optional or a list (`Shape.Grounded`). Joining keeps that, and so does adding
a member to an object or an element to an array, even though an array starts from bottom
(`Shape.Proper.join`, `Shape.Proper.list_join`, `Shape.Proper.observe`). None of these makes lists
and records nest deeper than they do already (`Shape.nesting_join_le`).
-/

namespace JsonShape.Shape

/-! ## Bottom -/

mutual

/-- Bottom stands nowhere but directly inside an optional or a list: it is neither the whole shape
nor that of a field, at any depth. -/
def Grounded : Shape → Prop
  | bottom => False
  | optional s => s = bottom ∨ s.Grounded
  | list s => s = bottom ∨ s.Grounded
  | record f => GroundedFields f
  | _ => True

/-- Bottom stands nowhere else in the shape of a field, and is not the shape. -/
def GroundedFields : List (String × Shape) → Prop
  | [] => True
  | (_, s) :: f => s.Grounded ∧ GroundedFields f

end

/-- A record is grounded exactly if the shapes of its fields are. -/
theorem grounded_record {f : Fields} :
    (record f).Grounded ↔ ∀ key s, (key, s) ∈ f → s.Grounded := by
  have hfields : GroundedFields f ↔ ∀ p ∈ f, p.2.Grounded := by
    induction f with
    | nil => simp [GroundedFields]
    | cons p f ih => simp [GroundedFields, ih]
  rw [Grounded, hfields]
  exact ⟨fun h key s hs => h _ hs, fun h p hp => h p.1 p.2 hp⟩

/-- What may stand inside an optional or a list. -/
def GroundedInside (s : Shape) : Prop :=
  s = bottom ∨ s.Grounded

/-- A mark may stand inside where the marked shape may. -/
theorem groundedInside_optional {s : Shape} :
    (optional s).GroundedInside ↔ s.GroundedInside :=
  or_iff_right nofun

/-- A list may stand inside where its element may. -/
theorem groundedInside_list {s : Shape} : (list s).GroundedInside ↔ s.GroundedInside :=
  or_iff_right nofun

/-- A record is not bottom, so it has to be grounded. -/
theorem groundedInside_record {f : Fields} :
    (record f).GroundedInside ↔ ∀ key s, (key, s) ∈ f → s.Grounded :=
  (or_iff_right nofun).trans grounded_record

/-- A shape that is marked as optional may have bottom inside. -/
theorem GroundedInside.makeOptional {s : Shape} (h : s.GroundedInside) :
    s.makeOptional.Grounded := by
  cases s with
  | optional s => exact groundedInside_optional.1 h
  | _ => exact h

/-- The inner shape of an optional one may stand inside it. -/
theorem GroundedInside.stripOptional {s : Shape} (h : s.GroundedInside) :
    s.stripOptional.GroundedInside := by
  cases s with
  | optional s => exact groundedInside_optional.1 h
  | _ => exact h

/-- Only bottom and bottom are joined to bottom. -/
theorem join_eq_bottom {a b : Shape} (ha : a.Constructible) (hb : b.Constructible)
    (h : a.join b = bottom) : a = bottom ∧ b = bottom := by
  obtain ⟨hla, hlb⟩ := within_join ha hb
  rw [h] at hla hlb
  cases hla
  cases hlb
  exact ⟨rfl, rfl⟩

/-- The join of what may stand inside an optional or a list may stand there. -/
theorem GroundedInside.join {a b : Shape} (ha : a.GroundedInside) (hb : b.GroundedInside)
    (ca : a.Constructible) (cb : b.Constructible) : (a.join b).GroundedInside := by
  induction a, b using join_induction with
  | same a => rwa [join_self]
  | bottomLeft b => rwa [join_bottom_left]
  | bottomRight a => rwa [join_bottom_right]
  | widenRight =>
    rw [join_int_float]
    exact .inr trivial
  | widenLeft =>
    rw [join_float_int]
    exact .inr trivial
  | optionalLeft a b ih =>
    rw [groundedInside_optional] at ha
    rw [join_optional_left ca.1]
    exact .inr (ih hb.stripOptional ha cb.stripOptional ca.2).makeOptional
  | optionalRight a b hn ih =>
    rw [groundedInside_optional] at hb
    rw [join_optional_right hn cb.1]
    exact .inr (ih ha hb ca cb.2).makeOptional
  | list a b ih =>
    rw [groundedInside_list] at ha hb
    rw [join_list, groundedInside_list]
    exact ih ha hb ca cb
  | record f g ih =>
    rw [groundedInside_record] at ha hb
    rw [constructible_record] at ca cb
    rw [join_record, groundedInside_record]
    refine forall_mem_joinFields (fun key i x y hx hy => ?_)
      (fun key x hx => GroundedInside.makeOptional (.inr (ha key x hx)))
      (fun key y hy => GroundedInside.makeOptional (.inr (hb key y hy)))
    have hf := Fields.mem_of_getElem?_values hx
    have hg := Fields.mem_of_getElem?_values hy
    have hjoin := ih key i x y hx hy (.inr (ha key x hf)) (.inr (hb key y hg)) (ca key x hf)
      (cb key y hg)
    -- Neither field is bottom, so the join is not.
    refine hjoin.resolve_left fun hbottom => ?_
    obtain ⟨rfl, -⟩ := join_eq_bottom (ca key x hf) (cb key y hg) hbottom
    exact ha key _ hf
  | clash a b hab hc =>
    rw [join_eq_top hab hc]
    exact .inr trivial

/-- What is joined to a grounded shape makes it no bottom. -/
theorem GroundedInside.grounded_join {a b : Shape} (ha : a.GroundedInside) (hb : b.Grounded)
    (ca : a.Constructible) (cb : b.Constructible) : (a.join b).Grounded := by
  refine (ha.join (.inr hb) ca cb).resolve_left fun hbottom => ?_
  obtain ⟨-, rfl⟩ := join_eq_bottom ca cb hbottom
  exact hb

/-! ## Nesting -/

mutual

/-- How deep lists and records nest in a shape. -/
def nesting : Shape → Nat
  | optional s => s.nesting
  | list s => s.nesting + 1
  | record f => nestingOfFields f + 1
  | _ => 0

/-- How deep lists and records nest in the shapes of some fields. -/
def nestingOfFields : List (String × Shape) → Nat
  | [] => 0
  | (_, s) :: f => max s.nesting (nestingOfFields f)

end

/-- A record nests one level deeper than its fields. -/
theorem nesting_record_le {f : Fields} {n : Nat} :
    (record f).nesting ≤ n + 1 ↔ ∀ key s, (key, s) ∈ f → s.nesting ≤ n := by
  have hfields : nestingOfFields f ≤ n ↔ ∀ p ∈ f, p.2.nesting ≤ n := by
    induction f with
    | nil => simp [nestingOfFields]
    | cons p f ih => rw [nestingOfFields, Nat.max_le, ih, List.forall_mem_cons]
  rw [nesting, Nat.add_le_add_iff_right, hfields]
  exact ⟨fun h key s hs => h _ hs, fun h p hp => h p.1 p.2 hp⟩

/-- A mark is no level. -/
@[simp] theorem nesting_makeOptional (s : Shape) : s.makeOptional.nesting = s.nesting := by
  cases s <;> rfl

/-- The shape inside a mark nests as deep as the marked one. -/
@[simp] theorem nesting_stripOptional (s : Shape) : s.stripOptional.nesting = s.nesting := by
  cases s <;> rfl

/-- The join of two shapes nests no deeper than both of them. -/
theorem nesting_join_le {a b : Shape} {n : Nat} (ha : a.nesting ≤ n) (hb : b.nesting ≤ n)
    (ca : a.Constructible) (cb : b.Constructible) : (a.join b).nesting ≤ n := by
  induction a, b using join_induction generalizing n with
  | same a => rwa [join_self]
  | bottomLeft b => rwa [join_bottom_left]
  | bottomRight a => rwa [join_bottom_right]
  | widenRight =>
    rw [join_int_float]
    exact Nat.zero_le n
  | widenLeft =>
    rw [join_float_int]
    exact Nat.zero_le n
  | optionalLeft a b ih =>
    rw [join_optional_left ca.1, nesting_makeOptional]
    exact ih ((nesting_stripOptional b).symm ▸ hb) ha cb.stripOptional ca.2
  | optionalRight a b hn ih =>
    rw [join_optional_right hn cb.1, nesting_makeOptional]
    exact ih ha hb ca cb.2
  | list a b ih =>
    rw [join_list]
    cases n with
    | zero => exact absurd ha (Nat.not_succ_le_zero _)
    | succ n =>
      exact Nat.succ_le_succ (ih (Nat.le_of_succ_le_succ ha) (Nat.le_of_succ_le_succ hb) ca cb)
  | record f g ih =>
    rw [join_record]
    cases n with
    | zero => exact absurd ha (Nat.not_succ_le_zero _)
    | succ n =>
      rw [nesting_record_le] at ha hb ⊢
      rw [constructible_record] at ca cb
      refine forall_mem_joinFields (fun key i x y hx hy => ?_)
        (fun key x hx => (nesting_makeOptional x).symm ▸ ha key x hx)
        (fun key y hy => (nesting_makeOptional y).symm ▸ hb key y hy)
      have hf := Fields.mem_of_getElem?_values hx
      have hg := Fields.mem_of_getElem?_values hy
      exact ih key i x y hx hy (ha key x hf) (hb key y hg) (ca key x hf) (cb key y hg)
  | clash a b hab hc =>
    rw [join_eq_top hab hc]
    exact Nat.zero_le n

/-! ## Proper shapes -/

/-- A shape of the form that inferred shapes have. -/
structure Proper (s : Shape) : Prop where
  /-- No optional is the inner shape of another. -/
  constructible : s.Constructible
  /-- No record has a key twice. -/
  distinctKeys : s.DistinctKeys
  /-- Bottom stands nowhere but directly inside an optional or a list. -/
  grounded : s.Grounded

/-- A record is proper exactly if its keys are distinct and the shapes of its fields are proper. -/
theorem proper_record {f : Fields} :
    (record f).Proper ↔ f.keys.Nodup ∧ ∀ key s, (key, s) ∈ f → s.Proper := by
  constructor
  · rintro ⟨hc, hd, hg⟩
    rw [constructible_record] at hc
    rw [distinctKeys_record] at hd
    rw [grounded_record] at hg
    exact ⟨hd.1, fun key s hs => ⟨hc key s hs, hd.2 key s hs, hg key s hs⟩⟩
  · rintro ⟨hkeys, h⟩
    exact ⟨constructible_record.2 fun key s hs => (h key s hs).constructible,
      distinctKeys_record.2 ⟨hkeys, fun key s hs => (h key s hs).distinctKeys⟩,
      grounded_record.2 fun key s hs => (h key s hs).grounded⟩

/-- The join of proper shapes is proper. -/
theorem Proper.join {a b : Shape} (ha : a.Proper) (hb : b.Proper) : (a.join b).Proper where
  constructible := ha.constructible.join hb.constructible
  distinctKeys := ha.distinctKeys.join hb.distinctKeys ha.constructible hb.constructible
  grounded :=
    GroundedInside.grounded_join (.inr ha.grounded) hb.grounded ha.constructible hb.constructible

/-- A list with one more element is proper, even if it had none. -/
theorem Proper.list_join {joined value : Shape} (hl : (list joined).Proper) (hv : value.Proper) :
    (list (joined.join value)).Proper := by
  obtain ⟨hc, hd, hg⟩ := hl
  exact ⟨Constructible.join hc hv.constructible,
    DistinctKeys.join hd hv.distinctKeys hc hv.constructible,
    .inr (GroundedInside.grounded_join hg hv.grounded hc hv.constructible)⟩

end JsonShape.Shape

namespace JsonShape.Fields

/-- Observing a key adds it behind the others if it is new. -/
theorem keys_observe (key : String) (value : Shape) (fields : Fields) :
    Fields.keys (observe key value fields) =
      if key ∈ fields.keys then fields.keys else fields.keys ++ [key] := by
  induction fields with
  | nil => rfl
  | cons p fields ih =>
    obtain ⟨k, s⟩ := p
    have hkeys : ∀ (t : Shape) (f : Fields), keys ((k, t) :: f) = k :: keys f := fun _ _ => rfl
    rw [observe]
    by_cases hk : k = key
    · rw [if_pos hk, hkeys, hkeys, if_pos (hk ▸ List.mem_cons_self)]
    · have hmem : key ∈ k :: keys fields ↔ key ∈ keys fields := by
        simp [List.mem_cons, Ne.symm hk]
      rw [if_neg hk, hkeys, hkeys, ih]
      by_cases hkey : key ∈ keys fields
      · rw [if_pos hkey, if_pos (hmem.2 hkey)]
      · rw [if_neg hkey, if_neg (mt hmem.1 hkey), List.cons_append]

/-- Distinct keys stay distinct. -/
theorem nodup_keys_observe {fields : Fields} (h : fields.keys.Nodup) (key : String)
    (value : Shape) : (keys (observe key value fields)).Nodup := by
  rw [keys_observe]
  split
  · exact h
  · next hkey =>
    refine List.nodup_append.2 ⟨h, List.pairwise_singleton _ key, fun k hk l hl e => hkey ?_⟩
    obtain rfl := List.mem_singleton.1 hl
    exact e ▸ hk

/-- What holds of the new value, and of every field with and without the value joined to it, holds
of all fields behind the new member. -/
theorem forall_mem_observe {P : Shape → Prop} {key : String} {value : Shape} {fields : Fields}
    (hvalue : P value) (hfields : ∀ k s, (k, s) ∈ fields → P s ∧ P (s.join value)) :
    ∀ k s, (k, s) ∈ observe key value fields → P s := by
  induction fields with
  | nil =>
    intro k s hs
    cases List.mem_singleton.1 hs
    exact hvalue
  | cons p fields ih =>
    obtain ⟨l, t⟩ := p
    have hrest : ∀ k s, (k, s) ∈ fields → P s ∧ P (s.join value) :=
      fun k s hs => hfields k s (List.mem_cons_of_mem _ hs)
    obtain ⟨ht, htjoin⟩ := hfields l t List.mem_cons_self
    intro k s hs
    rw [observe] at hs
    split at hs
    · cases hs with
      | head => exact htjoin
      | tail _ hs => exact (hrest k s hs).1
    · cases hs with
      | head => exact ht
      | tail _ hs => exact ih hrest k s hs

end JsonShape.Fields

namespace JsonShape.Shape

/-- A record with one more member is proper. -/
theorem Proper.observe {fields : Fields} {value : Shape} (hf : (record fields).Proper)
    (hv : value.Proper) (key : String) : (record (fields.observe key value)).Proper := by
  rw [proper_record] at hf ⊢
  exact ⟨Fields.nodup_keys_observe hf.1 key value,
    Fields.forall_mem_observe hv fun k s hs => ⟨hf.2 k s hs, (hf.2 k s hs).join hv⟩⟩

/-- A record with one more member nests no deeper than the record and the member. -/
theorem nesting_observe_le {fields : Fields} {value : Shape} {n : Nat}
    (hf : (record fields).nesting ≤ n + 1) (hv : value.nesting ≤ n)
    (cf : (record fields).Constructible) (cv : value.Constructible) (key : String) :
    (record (fields.observe key value)).nesting ≤ n + 1 := by
  rw [nesting_record_le] at hf ⊢
  rw [constructible_record] at cf
  exact Fields.forall_mem_observe hv fun k s hs =>
    ⟨hf k s hs, nesting_join_le (hf k s hs) hv (cf k s hs) cv⟩

end JsonShape.Shape
