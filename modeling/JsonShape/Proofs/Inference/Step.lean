import JsonShape.Inference.State
import JsonShape.Proofs.Value.Lexemes

/-!
# What a token does to an inference

For each place where an inference may be, the lemmas here say once what the next token can do there,
in terms of what the token is. `Inference.stepValue_cases` is the one for the place of a value: the
only token of a value settles the value's shape, an opening token opens a level if there is room for
it, and anything else is refused.
-/

namespace JsonShape.Inference

/-! ## The first token of a value -/

/-- The shape of a number is known from how it is written. -/
theorem ofNumeral_eq_shape (literal : String) :
    Shape.ofNumeral literal = (Value.number literal).shape := by
  have hmarks : Numeral.isFloat literal = true ↔
      '.' ∈ literal.toList ∨ 'e' ∈ literal.toList ∨ 'E' ∈ literal.toList := by
    rw [Numeral.isFloat, List.any_eq_true]
    simp only [Bool.or_eq_true, decide_eq_true_eq]
    constructor
    · rintro ⟨c, hc, (rfl | rfl) | rfl⟩
      · exact .inl hc
      · exact .inr (.inl hc)
      · exact .inr (.inr hc)
    · rintro (hc | hc | hc)
      · exact ⟨_, hc, .inl (.inl rfl)⟩
      · exact ⟨_, hc, .inl (.inr rfl)⟩
      · exact ⟨_, hc, .inr rfl⟩
  simp only [Shape.ofNumeral, Value.shape, hmarks]

/-- The only token of a value settles its shape. -/
theorem stepValue_of_lexemes_eq {v : Value} {t : Token} (h : v.lexemes = [t.lexeme]) (room : Nat)
    (holes : List Hole) : stepValue room holes t = settle holes v.shape := by
  cases v with
  | null => rw [stepValue, Token.kind_of_lexeme (List.singleton_inj.1 h).symm, Value.shape]
  | bool b =>
    rw [stepValue, Token.kind_of_lexeme (List.singleton_inj.1 h).symm, Value.shape]
    cases b <;> rfl
  | string text => rw [stepValue, Token.kind_of_lexeme (List.singleton_inj.1 h).symm, Value.shape]
  | number literal =>
    have ht := (List.singleton_inj.1 h).symm
    rw [stepValue, Token.kind_of_lexeme ht]
    simp only [Token.text?_of_lexeme ht, ofNumeral_eq_shape]
  | array vs =>
    cases vs with
    | nil => simp [Value.lexemes] at h
    | cons v vs =>
      obtain ⟨tail, hv⟩ := Value.lexemes_eq_cons v
      simp [Value.lexemes, hv] at h
  | object ms => cases ms <;> simp [Value.lexemes] at h

/-- What the first token of a value does. -/
theorem stepValue_cases (room : Nat) (holes : List Hole) (t : Token)
    (ht : t.lexeme ≠ (.string, none)) :
    (∃ v : Value, v.lexemes = [t.lexeme] ∧ v.levels = 0 ∧
      stepValue room holes t = settle holes v.shape) ∨
    (t.lexeme = (.arrayStart, none) ∧ holes.length < room ∧
      stepValue room holes t = .onward ⟨holes, .firstElement⟩ none) ∨
    (t.lexeme = (.objectStart, none) ∧ holes.length < room ∧
      stepValue room holes t = .onward ⟨holes, .firstMember⟩ none) ∨
    ∃ failure, stepValue room holes t = .refused failure := by
  obtain ⟨kind, text?, offset⟩ := t
  cases kind with
  | word w =>
    left
    cases w with
    | yes => exact ⟨.bool true, rfl, rfl, rfl⟩
    | no => exact ⟨.bool false, rfl, rfl, rfl⟩
    | null => exact ⟨.null, rfl, rfl, rfl⟩
  | string =>
    cases text? with
    | none => exact absurd rfl ht
    | some text => exact .inl ⟨.string text, rfl, rfl, rfl⟩
  | number =>
    cases text? with
    | none => exact .inr (.inr (.inr ⟨_, rfl⟩))
    | some literal =>
      have hv : (Value.number literal).lexemes =
          [Token.lexeme ⟨.number, some literal, offset⟩] := rfl
      exact .inl ⟨.number literal, hv, rfl, stepValue_of_lexemes_eq hv room holes⟩
  | arrayStart =>
    by_cases hroom : holes.length < room
    · exact .inr (.inl ⟨rfl, hroom, if_pos hroom⟩)
    · exact .inr (.inr (.inr ⟨_, if_neg hroom⟩))
  | objectStart =>
    by_cases hroom : holes.length < room
    · exact .inr (.inr (.inl ⟨rfl, hroom, if_pos hroom⟩))
    · exact .inr (.inr (.inr ⟨_, if_neg hroom⟩))
  | objectEnd | arrayEnd | colon | comma => exact .inr (.inr (.inr ⟨_, rfl⟩))

/-! ## The other places -/

section

variable {room : Nat} {holes : List Hole} {t : Token}

/-- An opening token is read if there is room for one more level. -/
theorem stepValue_array (ht : t.lexeme = (.arrayStart, none))
    (hroom : holes.length < room) :
    stepValue room holes t = .onward ⟨holes, .firstElement⟩ none := by
  rw [stepValue, Token.kind_of_lexeme ht]
  exact if_pos hroom

/-- An opening token is read if there is room for one more level. -/
theorem stepValue_object (ht : t.lexeme = (.objectStart, none))
    (hroom : holes.length < room) :
    stepValue room holes t = .onward ⟨holes, .firstMember⟩ none := by
  rw [stepValue, Token.kind_of_lexeme ht]
  exact if_pos hroom

/-- The first element is the value that its array waits for. -/
theorem step_firstElement (ht : t.kind ≠ .arrayEnd) :
    State.step room ⟨holes, .firstElement⟩ t =
      State.step room ⟨.element .bottom :: holes, .value⟩ t :=
  if_neg ht

/-- The first key is one behind no other members. -/
theorem step_firstMember (ht : t.kind ≠ .objectEnd) :
    State.step room ⟨holes, .firstMember⟩ t = State.step room ⟨holes, .key []⟩ t :=
  if_neg ht

/-- The end of an array settles the shape of its elements. -/
theorem step_arrayEnd (ht : t.lexeme = (.arrayEnd, none)) (joined : Shape) :
    State.step room ⟨holes, .afterElement joined⟩ t = settle holes (.list joined) :=
  if_pos (Token.kind_of_lexeme ht)

/-- Behind a comma, the array waits for another element. -/
theorem step_elementComma (ht : t.lexeme = (.comma, none)) (joined : Shape) :
    State.step room ⟨holes, .afterElement joined⟩ t =
      .onward ⟨.element joined :: holes, .value⟩ none := by
  simp [State.step, Token.kind_of_lexeme ht]

/-- The end of an object settles the shape of its members. -/
theorem step_objectEnd (ht : t.lexeme = (.objectEnd, none)) (fields : Fields) :
    State.step room ⟨holes, .afterMember fields⟩ t = settle holes (.record fields) :=
  if_pos (Token.kind_of_lexeme ht)

/-- Behind a comma, the object waits for another key. -/
theorem step_memberComma (ht : t.lexeme = (.comma, none)) (fields : Fields) :
    State.step room ⟨holes, .afterMember fields⟩ t = .onward ⟨holes, .key fields⟩ none := by
  simp [State.step, Token.kind_of_lexeme ht]

/-- A colon comes behind a key. -/
theorem step_key {key : String} (ht : t.lexeme = (.string, some key)) (fields : Fields) :
    State.step room ⟨holes, .key fields⟩ t = .onward ⟨holes, .colon fields key⟩ none := by
  simp [State.step, stepKey, Token.kind_of_lexeme ht, Token.text?_of_lexeme ht]

/-- Behind the colon, the object waits for the value of the key. -/
theorem step_colon (ht : t.lexeme = (.colon, none)) (fields : Fields) (key : String) :
    State.step room ⟨holes, .colon fields key⟩ t =
      .onward ⟨.member fields key :: holes, .value⟩ none :=
  if_pos (Token.kind_of_lexeme ht)

end

/-- What a token does in the place of a key. -/
theorem stepKey_cases (holes : List Hole) (fields : Fields) (t : Token) :
    (∃ key, t.lexeme = (.string, some key) ∧
      stepKey holes fields t = .onward ⟨holes, .colon fields key⟩ none) ∨
    ∃ failure, stepKey holes fields t = .refused failure := by
  obtain ⟨kind, text?, offset⟩ := t
  cases kind with
  | string =>
    cases text? with
    | none => exact .inr ⟨_, rfl⟩
    | some key => exact .inl ⟨key, rfl, rfl⟩
  | _ => exact .inr ⟨_, rfl⟩

/-- What a token does behind an element. -/
theorem step_afterElement_cases (room : Nat) (holes : List Hole) (joined : Shape) (t : Token) :
    (t.lexeme = (.arrayEnd, none) ∧
      State.step room ⟨holes, .afterElement joined⟩ t = settle holes (.list joined)) ∨
    (t.lexeme = (.comma, none) ∧ State.step room ⟨holes, .afterElement joined⟩ t =
      .onward ⟨.element joined :: holes, .value⟩ none) ∨
    ∃ failure, State.step room ⟨holes, .afterElement joined⟩ t = .refused failure := by
  by_cases hend : t.kind = .arrayEnd
  · exact .inl ⟨Token.lexeme_of_kind hend (by simp), if_pos hend⟩
  · by_cases hcomma : t.kind = .comma
    · exact .inr (.inl ⟨Token.lexeme_of_kind hcomma (by simp),
        (if_neg hend).trans (if_pos hcomma)⟩)
    · exact .inr (.inr ⟨_, (if_neg hend).trans (if_neg hcomma)⟩)

/-- What a token does behind a key. -/
theorem step_colon_cases (room : Nat) (holes : List Hole) (fields : Fields) (key : String)
    (t : Token) :
    (t.lexeme = (.colon, none) ∧ State.step room ⟨holes, .colon fields key⟩ t =
      .onward ⟨.member fields key :: holes, .value⟩ none) ∨
    ∃ failure, State.step room ⟨holes, .colon fields key⟩ t = .refused failure := by
  by_cases hcolon : t.kind = .colon
  · exact .inl ⟨Token.lexeme_of_kind hcolon (by simp), if_pos hcolon⟩
  · exact .inr ⟨_, if_neg hcolon⟩

/-- What a token does behind a member. -/
theorem step_afterMember_cases (room : Nat) (holes : List Hole) (fields : Fields) (t : Token) :
    (t.lexeme = (.objectEnd, none) ∧
      State.step room ⟨holes, .afterMember fields⟩ t = settle holes (.record fields)) ∨
    (t.lexeme = (.comma, none) ∧
      State.step room ⟨holes, .afterMember fields⟩ t = .onward ⟨holes, .key fields⟩ none) ∨
    ∃ failure, State.step room ⟨holes, .afterMember fields⟩ t = .refused failure := by
  by_cases hend : t.kind = .objectEnd
  · exact .inl ⟨Token.lexeme_of_kind hend (by simp), if_pos hend⟩
  · by_cases hcomma : t.kind = .comma
    · exact .inr (.inl ⟨Token.lexeme_of_kind hcomma (by simp),
        (if_neg hend).trans (if_pos hcomma)⟩)
    · exact .inr (.inr ⟨_, (if_neg hend).trans (if_neg hcomma)⟩)

end JsonShape.Inference
