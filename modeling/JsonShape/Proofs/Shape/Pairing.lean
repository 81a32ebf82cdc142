import JsonShape.Proofs.Shape.KeyOrder
import Mathlib.Data.List.Count

/-!
# Pairs of fields

The fields of two records are joined in pairs, by key and rank. A field on the right has a partner
as long as its rank among the fields of its key does not exceed the number of fields that the left
record has of the key; `Fields.unpaired` lists the keys of those that have none. Joined fields
have the keys on the left and then these, and at each key and rank the join of what the two records
have there (`Shape.joinFields_pairing`): no field is lost, comes twice or has two partners.
-/

namespace JsonShape

namespace Fields

/-- The keys of `g` that have no partner among those of `f`, in order: each occurrence whose rank
among the equal keys exceeds the number of times that `f` has the key. -/
def unpaired (f g : Fields) : List String :=
  (g.keys.zipIdx.filter fun p => f.keys.count p.1 < (g.keys.take (p.2 + 1)).count p.1).map Prod.fst

/-- Some keys each take the first equal one away, and those that come behind `seen` are left as far
as they exceed the others in number. -/
theorem diff_eq_filter_zipIdx (taken seen keys : List String) :
    keys.diff (taken.diff seen) =
      ((keys.zipIdx seen.length).filter fun p =>
        taken.count p.1 < ((seen ++ keys).take (p.2 + 1)).count p.1).map Prod.fst := by
  induction keys generalizing seen with
  | nil => simp
  | cons key keys ih =>
    have hrank : ((seen ++ key :: keys).take (seen.length + 1)).count key = seen.count key + 1 := by
      rw [List.take_length_add_append, List.count_append]
      simp
    have hleft : key ∈ taken.diff seen ↔ ¬taken.count key < seen.count key + 1 := by
      rw [← List.count_pos_iff, List.count_diff]
      omega
    have hrest := ih (seen ++ [key])
    rw [List.diff_append, List.diff_cons, List.diff_nil, List.append_assoc, List.singleton_append,
      List.length_append, List.length_singleton] at hrest
    rw [List.zipIdx_cons, List.filter_cons, hrank, List.cons_diff]
    by_cases h : key ∈ taken.diff seen
    · rw [if_pos h, if_neg (by simpa using hleft.1 h), hrest]
    · rw [if_neg h, if_pos (by simpa using mt hleft.2 h), List.map_cons, ← hrest,
        List.erase_of_not_mem h]

/-- The keys that are left when those of `f` have taken their partners away are the unpaired ones. -/
theorem diff_keys (f g : Fields) : g.keys.diff f.keys = f.unpaired g :=
  diff_eq_filter_zipIdx f.keys [] g.keys

end Fields

namespace Shape

/-- Joined fields have the keys on the left in order, and then the unpaired ones on the right. For
each key, the field of some rank joins those that the two records have of that rank, and is
optional if only one of them has one. Equal fields, which are given back at once, are no exception.
-/
theorem joinFields_pairing (f g : Fields) :
    Fields.keys (joinFields f g) = f.keys ++ f.unpaired g ∧
      ∀ key (i : Nat), (Fields.values (joinFields f g) key)[i]? =
        match (f.values key)[i]?, (g.values key)[i]? with
        | some a, some b => some (a.join b)
        | some a, none => some a.makeOptional
        | none, some b => some b.makeOptional
        | none, none => none := by
  refine ⟨?_, fun key i => ?_⟩
  · rw [keys_joinFields_eq_diff, Fields.diff_keys]
  · rw [getElem?_values_joinFields]
    cases (f.values key)[i]? <;> cases (g.values key)[i]? <;> rfl

/-- The second field of a key that the left record has once stands alone, behind all keys on the
left. -/
example :
    joinFields [("a", int), ("b", bool)] [("a", str), ("a", float), ("b", bool)] =
      [("a", top), ("b", bool), ("a", optional float)] := by decide +kernel

end Shape

end JsonShape
