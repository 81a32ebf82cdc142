import JsonShape.Proofs.Shape.Join

/-!
# Members gathered one by one

`Fields.gather` takes the members of an object together, `Fields.observe` adds one more to those
seen before. Adding the members one by one gathers them (`Fields.gather_append_singleton`): a key
seen before keeps its place and joins its shape to those it has, a new key comes last.
-/

namespace JsonShape

/-- Erasing repetitions leaves none. -/
theorem nodup_eraseDups {α : Type} [BEq α] [LawfulBEq α] (xs : List α) : xs.eraseDups.Nodup := by
  match xs with
  | [] => exact .nil
  | x :: xs =>
    have := List.length_filter_le (fun y => !y == x) xs
    rw [List.eraseDups_cons, List.nodup_cons]
    exact ⟨by simp, nodup_eraseDups _⟩
termination_by xs.length
decreasing_by
  simp only [List.length_cons]
  omega

namespace Fields

/-- Gathered fields have the keys of the members, each once. -/
theorem keys_gather (f : Fields) : f.gather.keys = f.keys.eraseDups := by
  simp [gather, keys, Function.comp_def]

/-- A gathered field holds the join of all shapes of its key. -/
theorem mem_gather {f : Fields} {key : String} {s : Shape} :
    (key, s) ∈ f.gather ↔ key ∈ f.keys ∧ s = Shape.fold (f.values key) := by
  simp only [gather, List.mem_map, List.mem_eraseDups, Prod.mk.injEq]
  constructor
  · rintro ⟨_, hk, rfl, rfl⟩
    exact ⟨hk, rfl⟩
  · rintro ⟨hk, rfl⟩
    exact ⟨key, hk, rfl, rfl⟩

/-- Observing a key among distinct keys joins the shape to that of the key, or adds the key. -/
theorem observe_map {keys : List String} (h : keys.Nodup) (φ : String → Shape) (key : String)
    (s : Shape) :
    observe key s (keys.map fun k => (k, φ k)) =
      if key ∈ keys then keys.map fun k => (k, if k = key then (φ k).join s else φ k)
      else (keys.map fun k => (k, φ k)) ++ [(key, s)] := by
  induction keys with
  | nil => rfl
  | cons k keys ih =>
    rw [List.nodup_cons] at h
    rw [List.map_cons, observe, ih h.2]
    by_cases hk : k = key
    · have hrest : ∀ l ∈ keys, (l, φ l) = (l, if l = key then (φ l).join s else φ l) := by
        intro l hl
        have hne : l ≠ key := fun e => h.1 (hk.trans e.symm ▸ hl)
        rw [if_neg hne]
      rw [if_pos hk, if_pos (hk ▸ List.mem_cons_self), List.map_cons, if_pos hk,
        List.map_congr_left hrest]
    · have hmem : key ∈ k :: keys ↔ key ∈ keys := by
        simp [List.mem_cons, Ne.symm hk]
      rw [if_neg hk]
      by_cases hkey : key ∈ keys
      · rw [if_pos hkey, if_pos (hmem.2 hkey), List.map_cons, if_neg hk]
      · rw [if_neg hkey, if_neg fun e => hkey (hmem.1 e), List.cons_append]

/-- Members that are gathered one by one are gathered together. -/
theorem gather_append_singleton (f : Fields) (key : String) (s : Shape) :
    gather (f ++ [(key, s)]) = observe key s f.gather := by
  have hkeys : keys (f ++ [(key, s)]) = f.keys ++ [key] := by simp [keys]
  have hvalues : ∀ k, values (f ++ [(key, s)]) k =
      f.values k ++ if key = k then [s] else [] := by
    intro k
    by_cases h : key = k <;> simp [values, h]
  have hfold : ∀ k, Shape.fold (values (f ++ [(key, s)]) k) =
      if k = key then (Shape.fold (f.values k)).join s else Shape.fold (f.values k) := by
    intro k
    rw [hvalues]
    by_cases h : key = k
    · simp [h, Shape.fold]
    · rw [if_neg h, if_neg (Ne.symm h), List.append_nil]
  rw [gather, hkeys, gather, observe_map (nodup_eraseDups f.keys), List.eraseDups_append]
  simp only [hfold, List.mem_eraseDups]
  by_cases h : key ∈ f.keys
  · simp [List.removeAll, h]
  · have hnew : (if key = key then (Shape.fold (f.values key)).join s
        else Shape.fold (f.values key)) = s := by
      rw [if_pos rfl, values_eq_nil.2 h]
      exact Shape.join_bottom_left s
    have hold : ∀ k ∈ f.keys.eraseDups, (k, if k = key then (Shape.fold (f.values k)).join s
        else Shape.fold (f.values k)) = (k, Shape.fold (f.values k)) := by
      intro k hk
      have hne : k ≠ key := fun e => h (e ▸ List.mem_eraseDups.1 hk)
      rw [if_neg hne]
    have hlast : [key].removeAll f.keys = [key] := by simp [List.removeAll, h]
    rw [if_neg h, List.map_append, List.map_congr_left hold, hlast, List.eraseDups_cons,
      List.filter_nil, List.eraseDups_nil, List.map_singleton, hnew]

/-- The fields after some more members. -/
def observeAll (f : Fields) (more : Fields) : Fields :=
  more.foldl (fun g (key, s) => g.observe key s) f

/-- Gathered members are observed one by one, behind those that are gathered already. -/
theorem gather_append (f more : Fields) : gather (f ++ more) = f.gather.observeAll more := by
  induction more generalizing f with
  | nil => rw [List.append_nil, observeAll, List.foldl_nil]
  | cons m more ih =>
    rw [List.append_cons, ih, gather_append_singleton, observeAll, observeAll, List.foldl_cons]

/-- To gather members, all of them are observed. -/
theorem gather_eq_observeAll (f : Fields) : gather f = observeAll [] f :=
  gather_append [] f

end Fields

end JsonShape
