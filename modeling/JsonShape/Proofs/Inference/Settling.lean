import JsonShape.Proofs.Inference.Reading
import JsonShape.Proofs.Inference.Step

/-!
# The tokens of a value settle its shape

From wherever a value may stand, the tokens of a value that fits into the levels left fill the hole
there with the shape of the value (`Inference.settles`). The proof is an induction over the value,
which the tokens follow.
-/

namespace JsonShape

open Value (furtherElements furtherMembers)

namespace Value

/-! ## Levels -/

/-- Elements fit into some levels if each of them does. -/
theorem levelsOfElements_le {vs : List Value} {n : Nat} :
    levelsOfElements vs ≤ n ↔ ∀ v ∈ vs, v.levels ≤ n := by
  induction vs with
  | nil => simp [levelsOfElements]
  | cons v vs ih => rw [levelsOfElements, Nat.max_le, ih, List.forall_mem_cons]

/-- Members fit into some levels if the value of each does. -/
theorem levelsOfMembers_le {ms : List (String × Value)} {n : Nat} :
    levelsOfMembers ms ≤ n ↔ ∀ m ∈ ms, m.2.levels ≤ n := by
  induction ms with
  | nil => simp [levelsOfMembers]
  | cons m ms ih => rw [levelsOfMembers, Nat.max_le, ih, List.forall_mem_cons]

/-- An array fits into some levels if one is there for it, and its elements fit into the others. -/
theorem levels_array_le {vs : List Value} {n room : Nat} :
    n + (array vs).levels ≤ room ↔ n < room ∧ ∀ v ∈ vs, n + 1 + v.levels ≤ room := by
  have hfit : n + (array vs).levels ≤ room ↔ n < room ∧ levelsOfElements vs ≤ room - (n + 1) := by
    rw [levels]
    omega
  rw [hfit, levelsOfElements_le]
  refine and_congr_right fun hn => forall₂_congr fun v _ => ?_
  omega

/-- An object fits into some levels if one is there for it, and its members fit into the others. -/
theorem levels_object_le {ms : List (String × Value)} {n room : Nat} :
    n + (object ms).levels ≤ room ↔ n < room ∧ ∀ m ∈ ms, n + 1 + m.2.levels ≤ room := by
  have hfit : n + (object ms).levels ≤ room ↔ n < room ∧ levelsOfMembers ms ≤ room - (n + 1) := by
    rw [levels]
    omega
  rw [hfit, levelsOfMembers_le]
  refine and_congr_right fun hn => forall₂_congr fun m _ => ?_
  omega

end Value

namespace Inference

/-- The tokens of the value settle its shape, wherever a value may stand. -/
def Settles (room : Nat) (v : Value) : Prop :=
  ∀ (holes : List Hole) (repeated : Option String) (ts : List Token), v.SpelledBy ts →
    holes.length + v.levels ≤ room →
    (Transition.onward ⟨holes, .value⟩ repeated).read room ts = settle holes v.shape

section

variable {room : Nat} {holes : List Hole} {repeated : Option String} {ts : List Token}

/-- Further elements are joined to those in front of them. -/
theorem read_furtherElements {vs : List Value} (hv : ∀ v ∈ vs, Settles room v)
    (hroom : ∀ v ∈ vs, holes.length + 1 + v.levels ≤ room) (joined : Shape)
    (hl : ts.map Token.lexeme = furtherElements vs) :
    (Transition.onward ⟨holes, .afterElement joined⟩ repeated).read room ts =
      settle holes (.list ((vs.map Value.shape).foldl Shape.join joined)) := by
  induction vs generalizing ts joined repeated with
  | nil =>
    obtain ⟨t, us, rfl, ht, hus⟩ := List.map_eq_cons_iff.1 hl
    cases List.map_eq_nil_iff.1 hus
    rw [Transition.read_cons, Transition.next, step_arrayEnd ht]
    rfl
  | cons v vs ih =>
    rw [List.forall_mem_cons] at hv hroom
    obtain ⟨t, us, rfl, ht, hus⟩ := List.map_eq_cons_iff.1 hl
    obtain ⟨us, rest, rfl, hus, hrest⟩ := List.map_eq_append_iff.1 hus
    rw [Transition.read_cons, Transition.next, step_elementComma ht, Transition.read_append,
      hv.1 _ _ us hus (by simpa using hroom.1)]
    exact ih hv.2 hroom.2 _ hrest

/-- A key, a colon and a value are a member. -/
theorem read_member {v : Value} (hv : Settles room v) (hroom : holes.length + 1 + v.levels ≤ room)
    (fields : Fields) (repeated : Option String) {key : String} {rest : List Value.Lexeme}
    (hl : ts.map Token.lexeme =
      (.string, some key) :: (.colon, none) :: (v.lexemes ++ rest)) :
    ∃ us, us.map Token.lexeme = rest ∧
      (Transition.onward ⟨holes, .key fields⟩ repeated).read room ts =
        (settle (.member fields key :: holes) v.shape).read room us := by
  obtain ⟨name, us, rfl, hname, hus⟩ := List.map_eq_cons_iff.1 hl
  obtain ⟨colon, us, rfl, hcolon, hus⟩ := List.map_eq_cons_iff.1 hus
  obtain ⟨us, rest, rfl, hus, hrest⟩ := List.map_eq_append_iff.1 hus
  refine ⟨rest, hrest, ?_⟩
  rw [Transition.read_cons, Transition.next, step_key hname, Transition.read_cons, Transition.next,
    step_colon hcolon, Transition.read_append, hv _ _ us hus (by simpa using hroom)]

/-- Further members are observed one by one. -/
theorem read_furtherMembers {ms : List (String × Value)} (hv : ∀ m ∈ ms, Settles room m.2)
    (hroom : ∀ m ∈ ms, holes.length + 1 + m.2.levels ≤ room) (fields : Fields)
    (hl : ts.map Token.lexeme = furtherMembers ms) :
    (Transition.onward ⟨holes, .afterMember fields⟩ repeated).read room ts =
      settle holes (.record (fields.observeAll (Value.memberShapes ms))) := by
  induction ms generalizing ts fields repeated with
  | nil =>
    obtain ⟨t, us, rfl, ht, hus⟩ := List.map_eq_cons_iff.1 hl
    cases List.map_eq_nil_iff.1 hus
    rw [Transition.read_cons, Transition.next, step_objectEnd ht]
    rfl
  | cons m ms ih =>
    rw [List.forall_mem_cons] at hv hroom
    obtain ⟨t, us, rfl, ht, hus⟩ := List.map_eq_cons_iff.1 hl
    obtain ⟨rest, hrest, hread⟩ :=
      read_member hv.1 hroom.1 fields none hus
    rw [Transition.read_cons, Transition.next, step_memberComma ht, hread]
    exact ih hv.2 hroom.2 _ hrest

/-- The first element is read as the value that its array waits for. -/
theorem read_firstElement {t : Token} (ht : t.kind ≠ .arrayEnd) :
    (Transition.onward ⟨holes, .firstElement⟩ repeated).read room (t :: ts) =
      (Transition.onward ⟨.element .bottom :: holes, .value⟩ repeated).read room (t :: ts) := by
  rw [Transition.read_cons, Transition.next, step_firstElement ht, Transition.read_cons,
    Transition.next]

/-- The first key is read as one behind no other members. -/
theorem read_firstMember {t : Token} (ht : t.kind ≠ .objectEnd) :
    (Transition.onward ⟨holes, .firstMember⟩ repeated).read room (t :: ts) =
      (Transition.onward ⟨holes, .key []⟩ repeated).read room (t :: ts) := by
  rw [Transition.read_cons, Transition.next, step_firstMember ht, Transition.read_cons,
    Transition.next]

end

/-- The tokens of an array settle its shape if those of its elements settle theirs. -/
theorem settles_array {room : Nat} {vs : List Value} (hv : ∀ v ∈ vs, Settles room v) :
    Settles room (.array vs) := by
  intro holes repeated ts hl hroom
  obtain ⟨hopen, hroom⟩ := Value.levels_array_le.1 hroom
  rw [Value.shape_array]
  cases vs with
  | nil =>
    obtain ⟨t, us, rfl, ht, hus⟩ := List.map_eq_cons_iff.1 hl
    obtain ⟨t', us, rfl, ht', hus⟩ := List.map_eq_cons_iff.1 hus
    cases List.map_eq_nil_iff.1 hus
    have hend : State.step room ⟨holes, .firstElement⟩ t' = settle holes (.list .bottom) :=
      if_pos (Token.kind_of_lexeme ht')
    rw [Transition.read_cons, Transition.next, State.step, stepValue_array ht hopen]
    exact hend
  | cons v vs =>
    rw [List.forall_mem_cons] at hv hroom
    obtain ⟨t, us, rfl, ht, hus⟩ := List.map_eq_cons_iff.1 hl
    obtain ⟨us, rest, rfl, hus, hrest⟩ := List.map_eq_append_iff.1 hus
    obtain ⟨tail, htail⟩ := v.lexemes_eq_cons
    obtain ⟨first, us, rfl, hfirst, -⟩ := List.map_eq_cons_iff.1 (hus.trans htail)
    have hne : first.kind ≠ .arrayEnd := Token.kind_of_lexeme hfirst ▸ v.opening_ne_arrayEnd
    rw [Transition.read_cons, Transition.next, State.step, stepValue_array ht hopen,
      Transition.read_append, read_firstElement hne, hv.1 _ _ _ hus (by simpa using hroom.1)]
    exact read_furtherElements hv.2 hroom.2 _ hrest

/-- The tokens of an object settle its shape if those of its values settle theirs. -/
theorem settles_object {room : Nat} {ms : List (String × Value)}
    (hv : ∀ m ∈ ms, Settles room m.2) : Settles room (.object ms) := by
  intro holes repeated ts hl hroom
  obtain ⟨hopen, hroom⟩ := Value.levels_object_le.1 hroom
  rw [Value.shape]
  cases ms with
  | nil =>
    obtain ⟨t, us, rfl, ht, hus⟩ := List.map_eq_cons_iff.1 hl
    obtain ⟨t', us, rfl, ht', hus⟩ := List.map_eq_cons_iff.1 hus
    cases List.map_eq_nil_iff.1 hus
    have hend : State.step room ⟨holes, .firstMember⟩ t' = settle holes (.record []) :=
      if_pos (Token.kind_of_lexeme ht')
    rw [Transition.read_cons, Transition.next, State.step, stepValue_object ht hopen]
    exact hend
  | cons m ms =>
    rw [List.forall_mem_cons] at hv hroom
    obtain ⟨t, us, rfl, ht, hus⟩ := List.map_eq_cons_iff.1 hl
    obtain ⟨first, us', rfl, hfirst, -⟩ := List.map_eq_cons_iff.1 hus
    have hne : first.kind ≠ .objectEnd := by simp [Token.kind_of_lexeme hfirst]
    obtain ⟨rest, hrest, hread⟩ := read_member hv.1 hroom.1 [] none hus
    rw [Transition.read_cons, Transition.next, State.step, stepValue_object ht hopen,
      read_firstMember hne, hread, Fields.gather_eq_observeAll]
    exact read_furtherMembers hv.2 hroom.2 (Fields.observe m.1 m.2.shape []) hrest

/-- The tokens of a value settle its shape. -/
theorem settles (room : Nat) (v : Value) : Settles room v := by
  induction v using Value.induction with
  | null | bool | number | string =>
    intro holes repeated ts hl hroom
    obtain ⟨t, us, rfl, ht, hus⟩ := List.map_eq_cons_iff.1 hl
    cases List.map_eq_nil_iff.1 hus
    exact stepValue_of_lexemes_eq (by rw [ht, Value.lexemes]) room holes
  | array vs ih => exact settles_array ih
  | object ms ih => exact settles_object fun m hm => ih m.1 m.2 hm

end Inference

end JsonShape
