import JsonShape.Grammar.Misplaced
import JsonShape.Proofs.Inference.Reading
import JsonShape.Proofs.Inference.Step

/-!
# The effect of one token

`Inference.Effect` lists what a token can do where it stands: be a value by itself, open a level,
close one, lead on inside the innermost array or object, or be refused for one of the reasons of
`Inference.Refuses`. A step has no other effect (`Inference.effect_step`), so what the steps of an
inference keep is seen from this list. Two things are read off it here: the first refused token of
a list tells what is wrong with the list (`Transition.cause_of_read_refused`), and the levels open
behind tokens none of which is refused are those that the tokens open and do not close
(`Inference.opened_read`).
-/

namespace JsonShape

/-- The token opens an array or an object. -/
def TokenKind.opens : TokenKind → Bool
  | objectStart | arrayStart => true
  | _ => false

/-- The token closes an array or an object. -/
def TokenKind.closes : TokenKind → Bool
  | objectEnd | arrayEnd => true
  | _ => false

/-- A token that needs a text has one. -/
def Token.HasText (t : Token) : Prop :=
  t.kind = .string ∨ t.kind = .number → t.text? ≠ none

/-- The kind of the token that stands where it may not. -/
def Defect.found? : Defect → Option TokenKind
  | expectedValue found | expectedKey found | expected _ found | trailing found => some found
  | _ => none

namespace Inference

/-! ## States -/

/-- A value may come next, and fills the innermost of the holes. -/
inductive State.Awaits : State → List Hole → Prop where
  | value (holes : List Hole) : Awaits ⟨holes, .value⟩ holes
  | firstElement (holes : List Hole) : Awaits ⟨holes, .firstElement⟩ (.element .bottom :: holes)

/-- The innermost array or object may be closed, and has the shape then. -/
inductive State.Closes : State → Shape → Prop where
  | firstElement (holes : List Hole) : Closes ⟨holes, .firstElement⟩ (.list .bottom)
  | afterElement (holes : List Hole) (joined : Shape) :
      Closes ⟨holes, .afterElement joined⟩ (.list joined)
  | firstMember (holes : List Hole) : Closes ⟨holes, .firstMember⟩ (.record [])
  | afterMember (holes : List Hole) (fields : Fields) :
      Closes ⟨holes, .afterMember fields⟩ (.record fields)

/-- A comma, a key or a colon leads on to the other state. -/
inductive State.LeadsTo : State → State → Prop where
  | element (holes : List Hole) (joined : Shape) :
      LeadsTo ⟨holes, .afterElement joined⟩ ⟨.element joined :: holes, .value⟩
  | member (holes : List Hole) (fields : Fields) :
      LeadsTo ⟨holes, .afterMember fields⟩ ⟨holes, .key fields⟩
  | firstKey (holes : List Hole) (key : String) :
      LeadsTo ⟨holes, .firstMember⟩ ⟨holes, .colon [] key⟩
  | key (holes : List Hole) (fields : Fields) (key : String) :
      LeadsTo ⟨holes, .key fields⟩ ⟨holes, .colon fields key⟩
  | colon (holes : List Hole) (fields : Fields) (key : String) :
      LeadsTo ⟨holes, .colon fields key⟩ ⟨.member fields key :: holes, .value⟩

/-- The number of arrays and objects that are open. Where a value must stand, one of them is open
for each hole; everywhere else, the innermost one has no hole at the moment. -/
def State.opened (state : State) : Nat :=
  match state.place with
  | .value => state.holes.length
  | _ => state.holes.length + 1

/-- Every open array or object has a hole for the value that may come next. -/
theorem State.Awaits.opened {state : State} {holes : List Hole} (h : state.Awaits holes) :
    state.opened = holes.length := by
  cases h <;> rfl

/-- The innermost of the open arrays and objects is the one without a hole. -/
theorem State.Closes.opened {state : State} {s : Shape} (h : state.Closes s) :
    state.opened = state.holes.length + 1 := by
  cases h <;> rfl

/-- No levels are opened or closed on the way. -/
theorem State.LeadsTo.opened {state state' : State} (h : state.LeadsTo state') :
    state'.opened = state.opened := by
  cases h <;> rfl

/-! ## Effects -/

/-- The reasons why a token is refused in a state. -/
inductive Refuses (room : Nat) (state : State) (t : Token) : Failure → Prop where
  /-- A value may stand there, but not one that opens a level. -/
  | tooDeep {holes : List Hole} (hv : state.Awaits holes) (ho : t.kind.opens = true)
      (hr : room ≤ holes.length) :
      Refuses room state t (.input ⟨.nestingTooDeep limit, some t.offset⟩)
  /-- The token may not stand there, however many levels are open. -/
  | misplaced {defect : Defect} (hv : ∀ holes, state.Awaits holes → t.kind.opens = false)
      (hd : defect.found? = some t.kind) :
      Refuses room state t (.input ⟨.invalidJson defect, some t.offset⟩)
  | textMissing (h : ¬t.HasText) : Refuses room state t .textMissing

/-- The shapes of the values that are one token. -/
def scalars : List Shape :=
  [.optional .bottom, .bool, .str, .int, .float]

/-- What a token may do in a state. -/
inductive Effect (room : Nat) (state : State) (t : Token) : Transition → Prop where
  /-- The token is a value. -/
  | scalar {holes : List Hole} {s : Shape} (hv : state.Awaits holes) (hs : s ∈ scalars)
      (ho : t.kind.opens = false) (hc : t.kind.closes = false) :
      Effect room state t (settle holes s)
  | opening {holes : List Hole} {place : Place} (hv : state.Awaits holes)
      (ho : t.kind.opens = true) (hr : holes.length < room)
      (hp : place = .firstMember ∨ place = .firstElement) :
      Effect room state t (.onward ⟨holes, place⟩ none)
  | closing {s : Shape} (hs : state.Closes s) (hc : t.kind.closes = true) :
      Effect room state t (settle state.holes s)
  | leading {state' : State} (hl : state.LeadsTo state') (ho : t.kind.opens = false)
      (hc : t.kind.closes = false) : Effect room state t (.onward state' none)
  | refused {failure : Failure} (h : Refuses room state t failure) :
      Effect room state t (.refused failure)

section

variable {room : Nat} {state : State} {holes : List Hole} {t : Token}

/-- No token both opens a level and closes one. -/
theorem opens_of_closes (h : t.kind.closes = true) : t.kind.opens = false := by
  revert h
  cases t.kind <;> simp [TokenKind.opens, TokenKind.closes]

/-- No token both closes a level and opens one. -/
theorem closes_of_opens (h : t.kind.opens = true) : t.kind.closes = false := by
  rw [Bool.eq_false_iff]
  exact fun hc => Bool.false_ne_true ((opens_of_closes hc).symm.trans h)

/-- The effect of a token where a value may stand. -/
theorem effect_stepValue (hv : state.Awaits holes) :
    Effect room state t (stepValue room holes t) := by
  obtain ⟨kind, text?, offset⟩ := t
  cases kind with
  | word w => cases w <;> exact .scalar hv (by simp [scalars]) rfl rfl
  | string => exact .scalar hv (by simp [scalars]) rfl rfl
  | number =>
    cases text? with
    | none => exact .refused (.textMissing fun htext => htext (.inr rfl) rfl)
    | some literal =>
      refine .scalar hv ?_ rfl rfl
      unfold Shape.ofNumeral
      split <;> simp [scalars]
  | objectStart | arrayStart =>
    simp only [stepValue, nest]
    split
    · next hroom => exact .opening hv rfl hroom (by simp)
    · next hroom => exact .refused (.tooDeep hv rfl (Nat.not_lt.1 hroom))
  | objectEnd | arrayEnd | colon | comma => exact .refused (.misplaced (fun _ _ => rfl) rfl)

/-- The effect of a token where a key must stand. -/
theorem effect_stepKey {fields : Fields} (hv : ∀ holes, ¬state.Awaits holes)
    (hl : ∀ key, state.LeadsTo ⟨holes, .colon fields key⟩) :
    Effect room state t (stepKey holes fields t) := by
  unfold stepKey
  split
  · next hkind =>
    split
    · next key _ => exact .leading (hl key) (by rw [hkind]; rfl) (by rw [hkind]; rfl)
    · next htext => exact .refused (.textMissing fun ht => ht (.inl hkind) htext)
  · exact .refused (.misplaced (fun holes h => absurd h (hv holes)) rfl)

end

/-- Every step has one of the effects. -/
theorem effect_step (room : Nat) (state : State) (t : Token) :
    Effect room state t (state.step room t) := by
  obtain ⟨holes, place⟩ := state
  rw [State.step.eq_def]
  cases place with
  | value => exact effect_stepValue (.value holes)
  | firstElement =>
    simp only
    split
    · next hend => exact .closing (.firstElement holes) (by rw [hend]; rfl)
    · exact effect_stepValue (.firstElement holes)
  | afterElement joined =>
    simp only
    split
    · next hend => exact .closing (.afterElement holes joined) (by rw [hend]; rfl)
    · split
      · next hcomma =>
        exact .leading (.element holes joined) (by rw [hcomma]; rfl) (by rw [hcomma]; rfl)
      · exact .refused (.misplaced nofun rfl)
  | firstMember =>
    simp only
    split
    · next hend => exact .closing (.firstMember holes) (by rw [hend]; rfl)
    · exact effect_stepKey nofun (.firstKey holes)
  | key fields => exact effect_stepKey nofun (.key holes fields)
  | colon fields key =>
    simp only
    split
    · next hcolon =>
      exact .leading (.colon holes fields key) (by rw [hcolon]; rfl) (by rw [hcolon]; rfl)
    · exact .refused (.misplaced nofun rfl)
  | afterMember fields =>
    simp only
    split
    · next hend => exact .closing (.afterMember holes fields) (by rw [hend]; rfl)
    · split
      · next hcomma =>
        exact .leading (.member holes fields) (by rw [hcomma]; rfl) (by rw [hcomma]; rfl)
      · exact .refused (.misplaced nofun rfl)

/-! ## Refused tokens -/

/-- A value may stand where there is a hole for it. -/
theorem settle_ne_refused (holes : List Hole) (value : Shape) (failure : Failure) :
    settle holes value ≠ .refused failure := by
  cases holes with
  | nil => exact nofun
  | cons hole holes => cases hole <;> exact nofun

/-- A token that a state refuses is refused for one of the reasons. -/
theorem refuses_of_step {room : Nat} {state : State} {t : Token} {failure : Failure}
    (h : state.step room t = .refused failure) : Refuses room state t failure := by
  have heffect := effect_step room state t
  rw [h] at heffect
  generalize htr : Transition.refused failure = tr at heffect
  cases heffect with
  | scalar | closing => exact absurd htr.symm (settle_ne_refused _ _ _)
  | opening | leading => cases htr
  | refused hr =>
    cases htr
    exact hr

namespace Transition

/-- The token is refused behind others. -/
inductive RefusedNext (room : Nat) (t : Token) : Transition → Failure → Prop where
  | state {state : State} {repeated : Option String} {failure : Failure}
      (h : Refuses room state t failure) : RefusedNext room t (.onward state repeated) failure
  /-- Behind a complete shape every token is refused. -/
  | done (shape : Shape) :
      RefusedNext room t (.done shape) (.input ⟨.invalidJson (.trailing t.kind), some t.offset⟩)

/-- A token that is refused is refused for one of the reasons. -/
theorem refusedNext_of_next {room : Nat} {tr : Transition} {t : Token} {failure : Failure}
    (htr : ∀ f, tr ≠ .refused f) (h : tr.next room t = .refused failure) :
    RefusedNext room t tr failure := by
  cases tr with
  | onward state repeated => exact .state (refuses_of_step h)
  | done shape =>
    cases h
    exact .done shape
  | refused f => exact absurd rfl (htr f)

/-- A list of tokens is refused for the first of them that is. -/
theorem exists_of_read_refused {room : Nat} {tr : Transition} {ts : List Token}
    {failure : Failure} (htr : ∀ f, tr ≠ .refused f) (h : tr.read room ts = .refused failure) :
    ∃ front t rest, ts = front ++ t :: rest ∧ (∀ f, tr.read room front ≠ .refused f) ∧
      (tr.read room front).next room t = .refused failure := by
  induction ts generalizing tr with
  | nil => exact absurd h (htr failure)
  | cons t ts ih =>
    by_cases ht : ∃ f, tr.next room t = .refused f
    · obtain ⟨f, ht⟩ := ht
      rw [read_cons, ht, read_refused] at h
      cases h
      exact ⟨[], t, ts, rfl, htr, ht⟩
    · obtain ⟨front, u, rest, rfl, hfront, hu⟩ := ih (not_exists.1 ht) h
      exact ⟨t :: front, u, rest, rfl, hfront, hu⟩

/-- Tokens with the texts that they need are refused for one that opens a level too many, or for
one that may not stand where it does. -/
theorem cause_of_read_refused {room : Nat} {ts : List Token} {failure : Failure}
    (htext : ∀ t ∈ ts, t.HasText) (h : start.read room ts = .refused failure) :
    ∃ front t rest, ts = front ++ t :: rest ∧ (∀ f, start.read room front ≠ .refused f) ∧
      (start.read room front).next room t = .refused failure ∧
      (t.kind.opens = true ∧ failure = .input ⟨.nestingTooDeep limit, some t.offset⟩ ∨
        ∃ defect, defect.found? = some t.kind ∧
          failure = .input ⟨.invalidJson defect, some t.offset⟩) := by
  have hstart : ∀ f, start ≠ .refused f := fun _ => nofun
  obtain ⟨front, t, rest, rfl, hfront, ht⟩ := exists_of_read_refused hstart h
  refine ⟨front, t, rest, rfl, hfront, ht, ?_⟩
  have hnext := refusedNext_of_next hfront ht
  generalize start.read room front = tr at hnext
  cases hnext with
  | done => exact .inr ⟨_, rfl, rfl⟩
  | state hr =>
    cases hr with
    | tooDeep _ ho _ => exact .inl ⟨ho, rfl⟩
    | misplaced _ hd => exact .inr ⟨_, hd, rfl⟩
    | textMissing hnone =>
      exact absurd (htext t (List.mem_append_right _ List.mem_cons_self)) hnone

end Transition

/-! ## Open levels -/

/-- The number of arrays and objects that are open. Behind a complete shape there are none. -/
def Transition.opened : Transition → Nat
  | .onward state _ => state.opened
  | _ => 0

/-- A value leaves the levels open that it stands in. -/
theorem opened_settle (holes : List Hole) (value : Shape) :
    (settle holes value).opened = holes.length := by
  cases holes with
  | nil => rfl
  | cons hole holes => cases hole <;> rfl

/-- A token that is not refused opens a level if it is an opening one and closes one if it is a
closing one. There is room for a level that is opened. -/
theorem opened_step {room : Nat} {state : State} {t : Token}
    (h : ∀ f, state.step room t ≠ .refused f) :
    (state.step room t).opened + (if t.kind.closes then 1 else 0) =
        state.opened + (if t.kind.opens then 1 else 0) ∧
      (state.opened ≤ room → (state.step room t).opened ≤ room) := by
  have heffect := effect_step room state t
  generalize state.step room t = tr at h heffect
  cases heffect with
  | scalar hv hs ho hc =>
    rw [opened_settle, hv.opened, ho, hc]
    exact ⟨rfl, id⟩
  | @opening holes place hv ho hr hp =>
    have hopened : (Transition.onward ⟨holes, place⟩ none).opened = holes.length + 1 := by
      rcases hp with rfl | rfl <;> rfl
    rw [hopened, hv.opened, ho, closes_of_opens ho]
    exact ⟨rfl, fun _ => hr⟩
  | closing hs hc =>
    rw [opened_settle, hs.opened, opens_of_closes hc, hc]
    exact ⟨rfl, Nat.le_of_succ_le⟩
  | @leading state' hl ho hc =>
    have hopened : (Transition.onward state' none).opened = state.opened := hl.opened
    rw [hopened, ho, hc]
    exact ⟨rfl, id⟩
  | refused => exact absurd rfl (h _)

/-- The levels that are open behind some tokens, none of which is refused: those in front of them,
and those that they open and do not close. There is room for all. -/
theorem opened_read {room : Nat} {tr : Transition} {ts : List Token} (htr : tr.opened ≤ room)
    (h : ∀ f, tr.read room ts ≠ .refused f) :
    (tr.read room ts).opened + ts.countP (·.kind.closes) =
        tr.opened + ts.countP (·.kind.opens) ∧ (tr.read room ts).opened ≤ room := by
  induction ts generalizing tr with
  | nil => exact ⟨rfl, htr⟩
  | cons t ts ih =>
    rw [Transition.read_cons] at h ⊢
    have hnext : ∀ f, tr.next room t ≠ .refused f := by
      intro f hf
      rw [hf, Transition.read_refused] at h
      exact h f rfl
    cases tr with
    | refused f => exact absurd rfl (hnext f)
    | done shape => exact absurd rfl (hnext _)
    | onward state repeated =>
      have hstep : (Transition.onward state repeated).next room t = state.step room t := rfl
      have hopened : (Transition.onward state repeated).opened = state.opened := rfl
      rw [hstep] at h hnext ⊢
      obtain ⟨hcount, hroom⟩ := opened_step hnext
      obtain ⟨hrest, hlast⟩ := ih (hroom htr) h
      rw [hopened, List.countP_cons, List.countP_cons]
      exact ⟨by omega, hlast⟩

end Inference

end JsonShape
