import JsonShape.Proofs.Inference.Settling
import JsonShape.Proofs.Shape.Proper
import JsonShape.Proofs.Value.Repeats

/-!
# The repeated keys that an inference finds

Whenever a value settles behind a key that its object has already, the key is noted.
`Transition.noted` are the keys that a list of tokens has noted. From wherever a value may stand,
the tokens of a value that fits have noted its repeated keys, and then the key that the value
itself stands behind, if that is repeated (`Inference.notes`). A run hands over what its tokens have
noted (`Inference.run_of_done`).
-/

namespace JsonShape.Inference

open Value (furtherElements furtherMembers)

/-! ## The keys that tokens have noted -/

namespace Transition

/-- The key that was just found to stand in its object again. -/
def note : Transition → List String
  | .onward _ key => key.toList
  | .done _ | .refused _ => []

/-- The keys that some tokens are found to repeat, in order. -/
def noted (room : Nat) (tr : Transition) : List Token → List String
  | [] => []
  | t :: ts => (tr.next room t).note ++ (tr.next room t).noted room ts

@[simp] theorem noted_nil (room : Nat) (tr : Transition) : tr.noted room [] = [] := rfl

@[simp] theorem noted_cons (room : Nat) (tr : Transition) (t : Token) (ts : List Token) :
    tr.noted room (t :: ts) = (tr.next room t).note ++ (tr.next room t).noted room ts := rfl

/-- Keys are noted one list after the other. -/
theorem noted_append (room : Nat) (tr : Transition) (ts us : List Token) :
    tr.noted room (ts ++ us) = tr.noted room ts ++ (tr.read room ts).noted room us := by
  induction ts generalizing tr with
  | nil => rfl
  | cons t ts ih => rw [List.cons_append, noted_cons, noted_cons, ih, List.append_assoc, read_cons]

end Transition

/-- The key of a member is noted if its object has it already. -/
theorem note_settle_member (holes : List Hole) (fields : Fields) (key : String) (s : Shape) :
    (settle (.member fields key :: holes) s).note =
      if key ∈ fields.keys then [key] else [] := by
  by_cases h : key ∈ fields.keys
  · simp [settle, Transition.note, Fields.hasKey_iff.2 h, h]
  · have hnew : fields.hasKey key = false := by rwa [← Bool.not_eq_true, Fields.hasKey_iff]
    simp [settle, Transition.note, hnew, h]

/-- The tokens of the value note its repeated keys, wherever a value may stand. -/
def Notes (room : Nat) (v : Value) : Prop :=
  ∀ (holes : List Hole) (repeated : Option String) (ts : List Token), v.SpelledBy ts →
    holes.length + v.levels ≤ room →
    (Transition.onward ⟨holes, .value⟩ repeated).noted room ts =
      v.repeatedKeys ++ (settle holes v.shape).note

section

variable {room : Nat} {holes : List Hole} {repeated : Option String} {ts : List Token}

/-- Further elements note their repeated keys. -/
theorem noted_furtherElements {vs : List Value} (hv : ∀ v ∈ vs, Notes room v)
    (hroom : ∀ v ∈ vs, holes.length + 1 + v.levels ≤ room) (joined : Shape)
    (hl : ts.map Token.lexeme = furtherElements vs) :
    (Transition.onward ⟨holes, .afterElement joined⟩ repeated).noted room ts =
      Value.repeatedInElements vs ++
        (settle holes (.list ((vs.map Value.shape).foldl Shape.join joined))).note := by
  induction vs generalizing ts joined repeated with
  | nil =>
    obtain ⟨t, us, rfl, ht, hus⟩ := List.map_eq_cons_iff.1 hl
    cases List.map_eq_nil_iff.1 hus
    rw [Transition.noted_cons, Transition.next, step_arrayEnd ht, Transition.noted_nil,
      List.append_nil]
    rfl
  | cons v vs ih =>
    rw [List.forall_mem_cons] at hv hroom
    obtain ⟨t, us, rfl, ht, hus⟩ := List.map_eq_cons_iff.1 hl
    obtain ⟨us, rest, rfl, hus, hrest⟩ := List.map_eq_append_iff.1 hus
    have hfit : (Hole.element joined :: holes).length + v.levels ≤ room := hroom.1
    rw [Transition.noted_cons, Transition.next, step_elementComma ht, Transition.noted_append,
      hv.1 _ _ us hus hfit, settles room v _ _ us hus hfit, Value.repeatedInElements,
      List.append_assoc, List.append_assoc]
    exact congrArg (v.repeatedKeys ++ ·) (ih hv.2 hroom.2 _ hrest)

/-- A member notes the repeated keys of its value, and then its own key if that is repeated. -/
theorem noted_member {v : Value} (hv : Notes room v) (hroom : holes.length + 1 + v.levels ≤ room)
    (fields : Fields) {key : String} {rest : List Value.Lexeme}
    (hl : ts.map Token.lexeme =
      (.string, some key) :: (.colon, none) :: (v.lexemes ++ rest)) :
    ∃ us, us.map Token.lexeme = rest ∧
      (Transition.onward ⟨holes, .key fields⟩ repeated).noted room ts =
        v.repeatedKeys ++ ((if key ∈ fields.keys then [key] else []) ++
          (settle (.member fields key :: holes) v.shape).noted room us) := by
  obtain ⟨name, us, rfl, hname, hus⟩ := List.map_eq_cons_iff.1 hl
  obtain ⟨colon, us, rfl, hcolon, hus⟩ := List.map_eq_cons_iff.1 hus
  obtain ⟨us, rest, rfl, hus, hrest⟩ := List.map_eq_append_iff.1 hus
  have hfit : (Hole.member fields key :: holes).length + v.levels ≤ room := hroom
  refine ⟨rest, hrest, ?_⟩
  rw [Transition.noted_cons, Transition.next, step_key hname, Transition.noted_cons,
    Transition.next, step_colon hcolon, Transition.noted_append, hv _ _ us hus hfit,
    settles room v _ _ us hus hfit, note_settle_member, List.append_assoc]
  rfl

/-- A key is among those of an object that has observed it. -/
theorem mem_keys_observe {fields : Fields} {earlier : List String}
    (h : ∀ k, k ∈ fields.keys ↔ k ∈ earlier) (key : String) (s : Shape) (k : String) :
    k ∈ (fields.observe key s).keys ↔ k ∈ key :: earlier := by
  rw [Fields.keys_observe, List.mem_cons, ← h]
  split
  · next hkey => exact ⟨.inr, fun hk => hk.elim (· ▸ hkey) id⟩
  · rw [List.mem_append, List.mem_singleton, or_comm]

/-- Further members note their repeated keys, those of the members in front of them included. -/
theorem noted_furtherMembers {ms : List (String × Value)} (hv : ∀ m ∈ ms, Notes room m.2)
    (hroom : ∀ m ∈ ms, holes.length + 1 + m.2.levels ≤ room) (fields : Fields)
    {earlier : List String} (hearlier : ∀ key, key ∈ fields.keys ↔ key ∈ earlier)
    (hl : ts.map Token.lexeme = furtherMembers ms) :
    (Transition.onward ⟨holes, .afterMember fields⟩ repeated).noted room ts =
      Value.repeatedInMembers earlier ms ++
        (settle holes (.record (fields.observeAll (Value.memberShapes ms)))).note := by
  -- `fields` has every key in front once, `earlier` as often as it stands there: what the induction
  -- carries along is that both have the same keys
  induction ms generalizing ts fields repeated earlier with
  | nil =>
    obtain ⟨t, us, rfl, ht, hus⟩ := List.map_eq_cons_iff.1 hl
    cases List.map_eq_nil_iff.1 hus
    rw [Transition.noted_cons, Transition.next, step_objectEnd ht, Transition.noted_nil,
      List.append_nil]
    rfl
  | cons m ms ih =>
    obtain ⟨key, v⟩ := m
    rw [List.forall_mem_cons] at hv hroom
    obtain ⟨t, us, rfl, ht, hus⟩ := List.map_eq_cons_iff.1 hl
    obtain ⟨rest, hrest, hnoted⟩ := noted_member hv.1 hroom.1 fields hus
    have hnext := mem_keys_observe hearlier key v.shape
    rw [Transition.noted_cons, Transition.next, step_memberComma ht, hnoted,
      Value.repeatedInMembers, List.append_assoc, List.append_assoc]
    simp only [hearlier]
    exact congrArg (fun keys => v.repeatedKeys ++ (_ ++ keys)) (ih hv.2 hroom.2 _ hnext hrest)

/-- The first element notes what a value does that its array waits for. -/
theorem noted_firstElement {t : Token} (ht : t.kind ≠ .arrayEnd) :
    (Transition.onward ⟨holes, .firstElement⟩ repeated).noted room (t :: ts) =
      (Transition.onward ⟨.element .bottom :: holes, .value⟩ repeated).noted room (t :: ts) := by
  rw [Transition.noted_cons, Transition.next, step_firstElement ht, Transition.noted_cons,
    Transition.next]

/-- The first key is not repeated. -/
theorem noted_firstMember {t : Token} (ht : t.kind ≠ .objectEnd) :
    (Transition.onward ⟨holes, .firstMember⟩ repeated).noted room (t :: ts) =
      (Transition.onward ⟨holes, .key []⟩ repeated).noted room (t :: ts) := by
  rw [Transition.noted_cons, Transition.next, step_firstMember ht, Transition.noted_cons,
    Transition.next]

end

/-- The tokens of an array note the repeated keys of its elements. -/
theorem notes_array {room : Nat} {vs : List Value} (hv : ∀ v ∈ vs, Notes room v) :
    Notes room (.array vs) := by
  intro holes repeated ts hl hroom
  obtain ⟨hopen, hroom⟩ := Value.levels_array_le.1 hroom
  rw [Value.shape_array, Value.repeatedKeys]
  cases vs with
  | nil =>
    obtain ⟨t, us, rfl, ht, hus⟩ := List.map_eq_cons_iff.1 hl
    obtain ⟨t', us, rfl, ht', hus⟩ := List.map_eq_cons_iff.1 hus
    cases List.map_eq_nil_iff.1 hus
    have hend : State.step room ⟨holes, .firstElement⟩ t' = settle holes (.list .bottom) :=
      if_pos (Token.kind_of_lexeme ht')
    rw [Transition.noted_cons, Transition.next, State.step, stepValue_array ht hopen,
      Transition.noted_cons, Transition.next, hend, Transition.noted_nil, List.append_nil]
    rfl
  | cons v vs =>
    rw [List.forall_mem_cons] at hv hroom
    obtain ⟨t, us, rfl, ht, hus⟩ := List.map_eq_cons_iff.1 hl
    obtain ⟨us, rest, rfl, hus, hrest⟩ := List.map_eq_append_iff.1 hus
    obtain ⟨tail, htail⟩ := v.lexemes_eq_cons
    obtain ⟨first, us, rfl, hfirst, -⟩ := List.map_eq_cons_iff.1 (hus.trans htail)
    have hne : first.kind ≠ .arrayEnd := Token.kind_of_lexeme hfirst ▸ v.opening_ne_arrayEnd
    have hfit : (Hole.element .bottom :: holes).length + v.levels ≤ room := hroom.1
    rw [Transition.noted_cons, Transition.next, State.step, stepValue_array ht hopen,
      List.cons_append, noted_firstElement hne, ← List.cons_append, Transition.noted_append,
      hv.1 _ _ _ hus hfit, settles room v _ _ _ hus hfit, Value.repeatedInElements,
      List.append_assoc, List.append_assoc]
    exact congrArg (v.repeatedKeys ++ ·) (noted_furtherElements hv.2 hroom.2 _ hrest)

/-- The tokens of an object note the repeated keys of its members. -/
theorem notes_object {room : Nat} {ms : List (String × Value)}
    (hv : ∀ m ∈ ms, Notes room m.2) : Notes room (.object ms) := by
  intro holes repeated ts hl hroom
  obtain ⟨hopen, hroom⟩ := Value.levels_object_le.1 hroom
  rw [Value.shape, Value.repeatedKeys]
  cases ms with
  | nil =>
    obtain ⟨t, us, rfl, ht, hus⟩ := List.map_eq_cons_iff.1 hl
    obtain ⟨t', us, rfl, ht', hus⟩ := List.map_eq_cons_iff.1 hus
    cases List.map_eq_nil_iff.1 hus
    have hend : State.step room ⟨holes, .firstMember⟩ t' = settle holes (.record []) :=
      if_pos (Token.kind_of_lexeme ht')
    rw [Transition.noted_cons, Transition.next, State.step, stepValue_object ht hopen,
      Transition.noted_cons, Transition.next, hend, Transition.noted_nil, List.append_nil]
    rfl
  | cons m ms =>
    obtain ⟨key, v⟩ := m
    rw [List.forall_mem_cons] at hv hroom
    obtain ⟨t, us, rfl, ht, hus⟩ := List.map_eq_cons_iff.1 hl
    obtain ⟨first, us', rfl, hfirst, -⟩ := List.map_eq_cons_iff.1 hus
    have hne : first.kind ≠ .objectEnd := by simp [Token.kind_of_lexeme hfirst]
    obtain ⟨rest, hrest, hnoted⟩ := noted_member hv.1 hroom.1 [] hus
    have hnext : ∀ k, k ∈ (Fields.observe key v.shape []).keys ↔ k ∈ [key] :=
      mem_keys_observe (fun _ => Iff.rfl) key v.shape
    rw [Transition.noted_cons, Transition.next, State.step, stepValue_object ht hopen,
      noted_firstMember hne, hnoted, Fields.gather_eq_observeAll, Value.repeatedInMembers,
      List.append_assoc, List.append_assoc]
    exact congrArg (v.repeatedKeys ++ ·) (noted_furtherMembers hv.2 hroom.2 _ hnext hrest)

/-- A value of a single token has no keys, so it notes the one that it stands behind at most. -/
theorem notes_of_lexemes_eq {room : Nat} {v : Value} {x : Value.Lexeme} (h : v.lexemes = [x])
    (hnone : v.repeatedKeys = []) : Notes room v := by
  intro holes repeated ts hl hroom
  obtain ⟨t, us, rfl, ht, hus⟩ := List.map_eq_cons_iff.1 (hl.trans h)
  cases List.map_eq_nil_iff.1 hus
  have hstep : State.step room ⟨holes, .value⟩ t = settle holes v.shape :=
    stepValue_of_lexemes_eq (ht ▸ h) room holes
  rw [Transition.noted_cons, Transition.next, hstep, Transition.noted_nil, hnone,
    List.append_nil, List.nil_append]

/-- The tokens of a value note its repeated keys. -/
theorem notes (room : Nat) (v : Value) : Notes room v := by
  induction v using Value.induction with
  | null | bool | number | string => exact notes_of_lexemes_eq (by rw [Value.lexemes]) rfl
  | array vs ih => exact notes_array ih
  | object ms ih => exact notes_object fun m hm => ih m.1 m.2 hm

/-! ## Runs -/

/-- Tokens that complete a shape are all taken, and what they have noted is handed over, the latest
key first. -/
theorem run_of_done {room : Nat} {state : State} {key : Option String} {c : Cursor}
    {source' : TokenSource} {ts : List Token} {s : Shape} (he : c.Emits ts source')
    (h : (Transition.onward state key).read room ts = .done s) (repeated : List String) :
    run room state c repeated = (.ok s, ⟨source', .unseen⟩,
      ((Transition.onward state key).noted room ts).reverse ++ repeated) := by
  induction ts generalizing c state key repeated with
  | nil => cases h
  | cons t ts ih =>
    obtain ⟨next, ha, he⟩ := Cursor.emits_cons.1 he
    rw [Transition.read_cons, Transition.next] at h
    rw [run, ha, Transition.noted_cons, Transition.next]
    cases hs : state.step room t with
    | onward state' key' =>
      rw [hs] at h
      simp only [hs]
      rw [ih he h, List.reverse_append, List.append_assoc]
      cases key' <;> rfl
    | refused failure =>
      rw [hs] at h
      exact absurd h (Transition.read_refused_ne_done room failure ts s)
    | done s' =>
      rw [hs] at h
      obtain ⟨rfl, rfl⟩ := Transition.read_done h
      cases he
      simp only [hs]
      rfl

/-- Behind some tokens of a value that fits, the others complete its shape. They are all taken, and
the value's repeated keys are found, the latest first. -/
theorem run_of_spelledBy {room : Nat} {state : State} {c : Cursor} {source' : TokenSource}
    {front ts : List Token} {v : Value}
    (hfront : Transition.start.read room front = .onward state none)
    (hnone : Transition.start.noted room front = []) (hv : v.SpelledBy (front ++ ts))
    (hlevels : v.levels ≤ room) (he : c.Emits ts source') (repeated : List String) :
    run room state c repeated =
      (.ok v.shape, ⟨source', .unseen⟩, v.repeatedKeys.reverse ++ repeated) := by
  have hfit : ([] : List Hole).length + v.levels ≤ room := by simpa using hlevels
  have hread : Transition.start.read room (front ++ ts) = .done v.shape :=
    settles room v _ _ _ hv hfit
  have hnoted : Transition.start.noted room (front ++ ts) = v.repeatedKeys ++ [] :=
    notes room v _ _ _ hv hfit
  rw [Transition.read_append, hfront] at hread
  rw [Transition.noted_append, hfront, hnone, List.nil_append, List.append_nil] at hnoted
  rw [run_of_done he hread, hnoted]

end JsonShape.Inference
