/-!
# Aligned fields

Two sequences of named values are aligned by their names: the first occurrence of a name on the
left stands beside the first on the right, the second beside the second, and so on. `align` lists
the left sequence in its order, each value beside its partner or alone, and then what the right
sequence has left, alone.
-/

namespace JsonShape

/-- What an alignment holds for one place. -/
inductive Pairing (α : Type) where
  /-- Both sequences have a value there. -/
  | both (left right : α)
  /-- Only one of the two has. -/
  | alone (value : α)
  deriving Repr, DecidableEq

namespace Pairing

/-- One value for a place: two values are combined and a lone one is marked. -/
def resolve {α : Type} (combine : α → α → α) (mark : α → α) : Pairing α → α
  | both x y => combine x y
  | alone x => mark x

end Pairing

namespace Alignment

variable {α : Type}

/-- Takes the first value of a name out of a sequence. -/
def detach? (name : String) : List (String × α) → Option (α × List (String × α))
  | [] => none
  | (k, x) :: f =>
    if k = name then some (x, f)
    else (detach? name f).map fun (y, rest) => (y, (k, x) :: rest)

/-- The alignment of two sequences. -/
def align : List (String × α) → List (String × α) → List (String × Pairing α)
  | [], g => g.map fun (k, y) => (k, .alone y)
  | (k, x) :: f, g =>
    match detach? k g with
    | none => (k, .alone x) :: align f g
    | some (y, rest) => (k, .both x y) :: align f rest

theorem mem_of_detach? {name : String} {g rest : List (String × α)} {y : α}
    (h : detach? name g = some (y, rest)) : (name, y) ∈ g ∧ ∀ p ∈ rest, p ∈ g := by
  induction g generalizing rest with
  | nil => cases h
  | cons p g ih =>
    obtain ⟨k, x⟩ := p
    simp only [detach?] at h
    split at h
    · next hk =>
      cases h
      exact ⟨by simp [hk], fun p hp => List.mem_cons_of_mem _ hp⟩
    · obtain ⟨⟨z, tail⟩, hz, heq⟩ := Option.map_eq_some_iff.1 h
      cases heq
      obtain ⟨hy, hrest⟩ := ih hz
      refine ⟨List.mem_cons_of_mem _ hy, fun p hp => ?_⟩
      cases hp with
      | head => exact List.mem_cons_self
      | tail _ hp => exact List.mem_cons_of_mem _ (hrest p hp)

/-- Partners in an alignment come from the two sequences. -/
theorem mem_of_mem_align_both {k : String} {f g : List (String × α)} {x y : α}
    (h : (k, Pairing.both x y) ∈ align f g) : (k, x) ∈ f ∧ (k, y) ∈ g := by
  induction f generalizing g with
  | nil => simp [align] at h
  | cons p f ih =>
    obtain ⟨l, z⟩ := p
    simp only [align] at h
    split at h
    · cases h with
      | tail _ h =>
        obtain ⟨hx, hy⟩ := ih h
        exact ⟨List.mem_cons_of_mem _ hx, hy⟩
    · next hd =>
      obtain ⟨hw, hrest⟩ := mem_of_detach? hd
      cases h with
      | head => exact ⟨List.mem_cons_self, hw⟩
      | tail _ h =>
        obtain ⟨hx, hy⟩ := ih h
        exact ⟨List.mem_cons_of_mem _ hx, hrest _ hy⟩

end Alignment

end JsonShape
