import JsonShape.Proofs.Inference.Effect
import JsonShape.Proofs.Shape.Rename

/-!
# What a shape does not depend on

A shape depends on the kinds of tokens, on the form of numbers and on the keys, but not on the
digits of a number, on the text of a string that is a value, or on the offsets; and keys count only
as far as they are the same or not. So if the tokens of one list are those of another under other
names (`Relabeled`), the two lists have the same shape under these names, or the same is wrong with
both (`Inference.ofDocument_relabeled`). A key is known to be one by the colon behind it: a string
that stands where a key must, and has no colon behind it, is wrong whatever its text is.
-/

namespace JsonShape

/-- A colon comes next. -/
def ColonAhead (ts : List Token) : Prop :=
  ts.head?.map Token.kind = some .colon

/-- The second token may stand for the first in front of the others: it is of the same kind, a
number of the same form, and a string with a colon behind it is the other name of the first. -/
structure Token.Relabels (naming : String → String) (rest : List Token) (t u : Token) : Prop where
  kind : u.kind = t.kind
  number : t.kind = .number → u.text?.map Shape.ofNumeral = t.text?.map Shape.ofNumeral
  key : t.kind = .string → ColonAhead rest → u.text? = t.text?.map naming

/-- The tokens of the second list may stand for those of the first, one by one. -/
inductive Relabeled (naming : String → String) : List Token → List Token → Prop where
  | nil : Relabeled naming [] []
  | cons {t u : Token} {ts us : List Token} (h : t.Relabels naming ts u)
      (hs : Relabeled naming ts us) : Relabeled naming (t :: ts) (u :: us)

namespace Inference

/-! ## Renamed states -/

/-- A hole under other names. -/
def Hole.rename (naming : String → String) : Hole → Hole
  | element joined => element (joined.rename naming)
  | member fields key => member (Shape.renameFields naming fields) (naming key)

/-- A place under other names. -/
def Place.rename (naming : String → String) : Place → Place
  | afterElement joined => afterElement (joined.rename naming)
  | key fields => key (Shape.renameFields naming fields)
  | colon fields name => colon (Shape.renameFields naming fields) (naming name)
  | afterMember fields => afterMember (Shape.renameFields naming fields)
  | place => place

/-- A place under other names. Where a colon must come next and another token does, the key behind
which it must come may be any other. -/
inductive Place.Renamed (naming : String → String) (ts : List Token) : Place → Place → Prop where
  | same (place : Place) : Renamed naming ts place (place.rename naming)
  | lost (h : ¬ColonAhead ts) (fields : Fields) (name name' : String) :
      Renamed naming ts (.colon fields name) (.colon (Shape.renameFields naming fields) name')

/-- What is left of the tokens is read under other names from then on, or the same token is refused
for the same reason, in whatever places the two stand. -/
inductive Transition.Renamed (naming : String → String) (ts : List Token) :
    Transition → Transition → Prop where
  | onward {holes : List Hole} {place place' : Place} (hp : place.Renamed naming ts place')
      (repeated repeated' : Option String) :
      Renamed naming ts (.onward ⟨holes, place⟩ repeated)
        (.onward ⟨holes.map (Hole.rename naming), place'⟩ repeated')
  | done (s : Shape) : Renamed naming ts (.done s) (.done (s.rename naming))
  | refused (cause : Cause) (offset offset' : Option Int) :
      Renamed naming ts (.refused (.input ⟨cause, offset⟩)) (.refused (.input ⟨cause, offset'⟩))

section

variable {naming : String → String} {room : Nat} {holes : List Hole} {t u : Token}
  {ts : List Token}

/-- Where the one token may not stand, the other may not either. -/
theorem renamed_refuse (h : t.Relabels naming ts u) (defect : TokenKind → Defect) :
    Transition.Renamed naming ts (refuse t (defect t.kind)) (refuse u (defect u.kind)) := by
  rw [h.kind]
  exact .refused _ _ _

/-- A value is put into renamed holes under other names. -/
theorem renamed_settle (hn : Function.Injective naming) (holes : List Hole) (value : Shape) :
    Transition.Renamed naming ts (settle holes value)
      (settle (holes.map (Hole.rename naming)) (value.rename naming)) := by
  cases holes with
  | nil => exact .done value
  | cons hole holes =>
    cases hole with
    | element joined =>
      have hplace : Place.Renamed naming ts (.afterElement (joined.join value)) _ := .same _
      rw [Place.rename, Shape.rename_join hn] at hplace
      exact .onward hplace _ _
    | member fields key =>
      have hplace : Place.Renamed naming ts (.afterMember (fields.observe key value)) _ := .same _
      rw [Place.rename, Shape.renameFields_observe hn] at hplace
      exact .onward hplace _ _

/-- A value that is one token without keys is put there as it is. -/
theorem renamed_settle_scalar (hn : Function.Injective naming) (holes : List Hole) {value : Shape}
    (hv : value.rename naming = value) :
    Transition.Renamed naming ts (settle holes value)
      (settle (holes.map (Hole.rename naming)) value) := by
  have h : Transition.Renamed naming ts _ _ := renamed_settle hn holes value
  rwa [hv] at h

/-- A value starts under other names as it does under its own. -/
theorem renamed_stepValue (hn : Function.Injective naming) (h : t.Relabels naming ts u)
    (htext : t.HasText) (holes : List Hole) :
    Transition.Renamed naming ts (stepValue room holes t)
      (stepValue room (holes.map (Hole.rename naming)) u) := by
  have hnest : ∀ place : Place, place.rename naming = place →
      Transition.Renamed naming ts (nest room holes place t)
        (nest room (holes.map (Hole.rename naming)) place u) := by
    intro place hplace
    rw [nest, nest, List.length_map]
    split
    · have hsame : place.Renamed naming ts _ := .same place
      rw [hplace] at hsame
      exact .onward hsame _ _
    · exact .refused _ _ _
  rw [stepValue, stepValue, h.kind]
  cases hk : t.kind with
  | word w => cases w <;> exact renamed_settle_scalar hn holes rfl
  | string => exact renamed_settle_scalar hn holes rfl
  | number =>
    cases ht : t.text? with
    | none => exact absurd ht (htext (.inr hk))
    | some literal =>
      have hform := h.number hk
      rw [ht] at hform
      obtain ⟨literal', hu, hform⟩ := Option.map_eq_some_iff.1 hform
      simp only [hu, hform]
      refine renamed_settle_scalar hn holes ?_
      unfold Shape.ofNumeral
      split <;> rfl
  | objectStart => exact hnest _ rfl
  | arrayStart => exact hnest _ rfl
  | objectEnd | arrayEnd | colon | comma =>
    have hrefuse := renamed_refuse h .expectedValue
    rw [h.kind, hk] at hrefuse
    exact hrefuse

/-- A key stands under another name where it stands under its own. Without a colon behind it, it may
have any text. -/
theorem renamed_stepKey (h : t.Relabels naming ts u) (htext : t.HasText) (hutext : u.HasText)
    (holes : List Hole) (fields : Fields) :
    Transition.Renamed naming ts (stepKey holes fields t)
      (stepKey (holes.map (Hole.rename naming)) (Shape.renameFields naming fields) u) := by
  rw [stepKey, stepKey, h.kind]
  cases hk : t.kind with
  | string =>
    cases ht : t.text? with
    | none => exact absurd ht (htext (.inl hk))
    | some name =>
      cases hu : u.text? with
      | none => exact absurd hu (hutext (.inl (h.kind.trans hk)))
      | some name' =>
        by_cases hcolon : ColonAhead ts
        · have hname := h.key hk hcolon
          rw [ht, hu] at hname
          obtain rfl := Option.some.inj hname
          exact .onward (.same (.colon fields name)) _ _
        · exact .onward (.lost hcolon fields name name') _ _
  | _ =>
    have hrefuse := renamed_refuse h .expectedKey
    rw [h.kind, hk] at hrefuse
    exact hrefuse

/-- A state under other names reads a token under another name as the state reads the token. -/
theorem renamed_step (hn : Function.Injective naming) (h : t.Relabels naming ts u)
    (htext : t.HasText) (hutext : u.HasText) (holes : List Hole) (place : Place) :
    Transition.Renamed naming ts (State.step room ⟨holes, place⟩ t)
      (State.step room ⟨holes.map (Hole.rename naming), place.rename naming⟩ u) := by
  have hend : ∀ kind (value : Shape) (tr tr' : Transition),
      Transition.Renamed naming ts tr tr' →
      Transition.Renamed naming ts (if t.kind = kind then settle holes value else tr)
        (if u.kind = kind then
          settle (holes.map (Hole.rename naming)) (value.rename naming) else tr') := by
    intro kind value tr tr' htr
    rw [h.kind]
    split
    · exact renamed_settle hn holes value
    · exact htr
  have hlead : ∀ kind holes' place' (defect : TokenKind → Defect),
      Transition.Renamed naming ts
        (if t.kind = kind then .onward ⟨holes', place'⟩ none else refuse t (defect t.kind))
        (if u.kind = kind then
          .onward ⟨holes'.map (Hole.rename naming), place'.rename naming⟩ none
          else refuse u (defect u.kind)) := by
    intro kind holes' place' defect
    by_cases hk : t.kind = kind
    · rw [if_pos hk, if_pos (h.kind.trans hk)]
      exact .onward (.same place') _ _
    · rw [if_neg hk, if_neg fun e => hk (h.kind.symm.trans e)]
      exact renamed_refuse h defect
  cases place with
  | value => exact renamed_stepValue hn h htext holes
  | firstElement =>
    exact hend .arrayEnd (.list .bottom) _ _
      (renamed_stepValue hn h htext (.element .bottom :: holes))
  | afterElement joined =>
    exact hend .arrayEnd (.list joined) _ _
      (hlead .comma (.element joined :: holes) .value (.expected .comma))
  | firstMember =>
    exact hend .objectEnd (.record []) _ _ (renamed_stepKey h htext hutext holes [])
  | key fields => exact renamed_stepKey h htext hutext holes fields
  | colon fields name =>
    exact hlead .colon (.member fields name :: holes) .value (.expected .colon)
  | afterMember fields =>
    exact hend .objectEnd (.record fields) _ _
      (hlead .comma holes (.key fields) (.expected .comma))

/-- So does whatever some tokens have led to. -/
theorem renamed_next (hn : Function.Injective naming) (h : t.Relabels naming ts u)
    (htext : t.HasText) (hutext : u.HasText) {tr tr' : Transition}
    (htr : tr.Renamed naming (t :: ts) tr') :
    Transition.Renamed naming ts (tr.next room t) (tr'.next room u) := by
  cases htr with
  | done s => exact renamed_refuse h .trailing
  | refused cause offset offset' => exact .refused cause offset offset'
  | @onward holes place place' hp repeated repeated' =>
    cases hp with
    | same => exact renamed_step hn h htext hutext holes place
    | lost hcolon fields name name' =>
      have hne : t.kind ≠ .colon := fun e => hcolon (congrArg some e)
      have hstep : State.step room ⟨holes, .colon fields name⟩ t =
          refuse t (.expected .colon t.kind) := if_neg hne
      have hstep' : State.step room ⟨holes.map (Hole.rename naming),
          .colon (Shape.renameFields naming fields) name'⟩ u =
          refuse u (.expected .colon u.kind) := if_neg fun e => hne (h.kind.symm.trans e)
      rw [Transition.next, Transition.next, hstep, hstep']
      exact renamed_refuse h (.expected .colon)

end

/-- Tokens under other names lead from what is renamed to what is renamed. -/
theorem renamed_read {naming : String → String} (hn : Function.Injective naming) {room : Nat}
    {ts us : List Token} (h : Relabeled naming ts us) (htext : ∀ t ∈ ts, t.HasText)
    (hutext : ∀ u ∈ us, u.HasText) {tr tr' : Transition} (htr : tr.Renamed naming ts tr') :
    Transition.Renamed naming [] (tr.read room ts) (tr'.read room us) := by
  induction h generalizing tr tr' with
  | nil => exact htr
  | cons h _ ih =>
    obtain ⟨ht, htext⟩ := List.forall_mem_cons.1 htext
    obtain ⟨hu, hutext⟩ := List.forall_mem_cons.1 hutext
    exact ih htext hutext (renamed_next hn h ht hu htr)

/-- If the tokens of two lists are of the same kinds, and the numbers among them of the same form,
and if the keys of the second list are those of the first under other names, different ones for
different keys, then the two have the same shape under these names, or the same is wrong with both
in whatever places. No other texts and no offsets count. -/
theorem ofDocument_relabeled {naming : String → String} (hn : Function.Injective naming)
    {ts us : List Token} (h : Relabeled naming ts us) (htext : ∀ t ∈ ts, t.HasText)
    (hutext : ∀ u ∈ us, u.HasText) :
    (∃ s, (ofDocument (.tokens ts)).1 = .ok s ∧
      (ofDocument (.tokens us)).1 = .ok (s.rename naming)) ∨
    ∃ cause offset offset', (ofDocument (.tokens ts)).1 = .error (.input ⟨cause, offset⟩) ∧
      (ofDocument (.tokens us)).1 = .error (.input ⟨cause, offset'⟩) := by
  have hstart : Transition.start.Renamed naming ts .start := .onward (.same .value) none none
  have hread : Transition.Renamed naming [] (Transition.start.read limit ts) _ :=
    renamed_read hn h htext hutext hstart
  rw [ofDocument_tokens, ofDocument_tokens]
  generalize Transition.start.read limit ts = tr at hread
  generalize Transition.start.read limit us = tr' at hread
  cases hread with
  | done s => exact .inl ⟨s, rfl, rfl⟩
  | refused cause offset offset' => exact .inr ⟨cause, offset, offset', rfl, rfl⟩
  | onward => exact .inr ⟨.unexpectedEnd, none, none, rfl, rfl⟩

/-- A key that stands in its object again, and values and offsets that differ: the shapes differ in
the names of the keys alone. -/
theorem ofDocument_relabeled_repeated :
    let naming := fun key => "a " ++ key
    let ts : List Token :=
      [⟨.objectStart, none, 0⟩, ⟨.string, some "id", 1⟩, ⟨.colon, none, 5⟩, ⟨.number, some "1", 6⟩,
        ⟨.comma, none, 7⟩, ⟨.string, some "id", 8⟩, ⟨.colon, none, 12⟩, ⟨.string, some "x", 13⟩,
        ⟨.objectEnd, none, 16⟩]
    let us : List Token :=
      [⟨.objectStart, none, 0⟩, ⟨.string, some "a id", 2⟩, ⟨.colon, none, 8⟩,
        ⟨.number, some "-20", 9⟩, ⟨.comma, none, 12⟩, ⟨.string, some "a id", 13⟩,
        ⟨.colon, none, 19⟩, ⟨.string, some "id", 20⟩, ⟨.objectEnd, none, 24⟩]
    Function.Injective naming ∧ Relabeled naming ts us ∧ (∀ t ∈ ts, t.HasText) ∧
      (∀ u ∈ us, u.HasText) ∧ (ofDocument (.tokens ts)).1 = .ok (.record [("id", .top)]) ∧
      (ofDocument (.tokens us)).1 = .ok (.record [("a id", .top)]) := by
  intro naming ts us
  have hn : Function.Injective naming := fun _ _ h => String.append_right_inj "a " |>.1 h
  have hkey : ∀ rest start start',
      Token.Relabels naming rest ⟨.string, some "id", start⟩ ⟨.string, some "a id", start'⟩ :=
    fun _ _ _ => ⟨rfl, nofun, fun _ _ => rfl⟩
  have hvalue : ∀ start start', Token.Relabels naming [⟨.objectEnd, none, 16⟩]
      ⟨.string, some "x", start⟩ ⟨.string, some "id", start'⟩ :=
    fun _ _ => ⟨rfl, nofun, fun _ h => by cases h⟩
  have hform : (some "-20").map Shape.ofNumeral = (some "1").map Shape.ofNumeral := by
    decide +kernel
  have hnumber : ∀ rest start start',
      Token.Relabels naming rest ⟨.number, some "1", start⟩ ⟨.number, some "-20", start'⟩ :=
    fun _ _ _ => ⟨rfl, fun _ => hform, nofun⟩
  have h : Relabeled naming ts us :=
    .cons ⟨rfl, nofun, nofun⟩ <| .cons (hkey _ _ _) <| .cons ⟨rfl, nofun, nofun⟩ <|
      .cons (hnumber _ _ _) <| .cons ⟨rfl, nofun, nofun⟩ <| .cons (hkey _ _ _) <|
      .cons ⟨rfl, nofun, nofun⟩ <| .cons (hvalue _ _) <| .cons ⟨rfl, nofun, nofun⟩ .nil
  have htext : ∀ t ∈ ts, t.HasText := by simp [ts, Token.HasText]
  have hutext : ∀ u ∈ us, u.HasText := by simp [us, Token.HasText]
  have hread : Transition.start.read limit ts = .done (.record [("id", .top)]) := by
    decide +kernel
  have hts : (ofDocument (.tokens ts)).1 = .ok (.record [("id", .top)]) := by
    rw [ofDocument_tokens, hread]
    rfl
  refine ⟨hn, h, htext, hutext, hts, ?_⟩
  rcases ofDocument_relabeled hn h htext hutext with ⟨s, hs, hus⟩ | ⟨_, _, _, hs, -⟩
  · cases hts.symm.trans hs
    exact hus
  · cases hts.symm.trans hs

end Inference

end JsonShape
