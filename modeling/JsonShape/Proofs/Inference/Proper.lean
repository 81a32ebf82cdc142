import JsonShape.Inference.Step
import JsonShape.Proofs.Inference.Effect
import JsonShape.Proofs.Shape.Proper

/-!
# What inferred shapes look like

While an inference reads, every array and object that is open has a shape already, that of what is
read of it so far. All of these are proper, and none nests deeper than the room that is left where
it stands (`Inference.State.Fits`). One token keeps that (`Inference.fits_step`), so whatever tokens
there are, a run that comes to a shape comes to a proper one (`Inference.fits_run`). So does every
step of an inference, in whatever state it is (`Inference.answers_proper`).
-/

namespace JsonShape.Inference

/-- A shape is proper, and there is room for the levels of it and of what is open around it. -/
structure Fits (room outer : Nat) (s : Shape) : Prop where
  proper : s.Proper
  nesting : s.nesting + outer ≤ room

/-- The shape that the array or object around a hole has so far. -/
def Hole.soFar : Hole → Shape
  | element joined => .list joined
  | member fields _ => .record fields

/-- The shape that the innermost array or object has so far, if it is not waiting for a value. -/
def Place.soFar? : Place → Option Shape
  | value => none
  | firstElement => some (.list .bottom)
  | afterElement joined => some (.list joined)
  | firstMember => some (.record [])
  | key fields | colon fields _ | afterMember fields => some (.record fields)

/-- The arrays and objects that wait for values fit, each inside those around it. -/
def HolesFit (room : Nat) : List Hole → Prop
  | [] => True
  | hole :: holes => Fits room holes.length hole.soFar ∧ HolesFit room holes

/-- All arrays and objects that are open fit. -/
def State.Fits (room : Nat) (state : State) : Prop :=
  HolesFit room state.holes ∧
    ∀ s, state.place.soFar? = some s → Inference.Fits room state.holes.length s

/-- What is open fits, or the shape does if nothing is. -/
def Transition.Fits (room : Nat) : Transition → Prop
  | onward state _ => state.Fits room
  | done s => Inference.Fits room 0 s
  | refused _ => True

section

variable {room : Nat} {state state' : State} {holes : List Hole} {s : Shape}

/-- There is room for every level that waits for a value. -/
theorem HolesFit.length_le (h : HolesFit room holes) : holes.length ≤ room := by
  cases holes with
  | nil => exact Nat.zero_le room
  | cons hole holes =>
    have hlevel : 1 ≤ hole.soFar.nesting := by cases hole <;> exact Nat.succ_pos _
    have hfits := h.1.nesting
    rw [List.length_cons]
    omega

/-- An array without elements fits where there is room for it, and so does an object. -/
theorem fits_empty {outer : Nat} (h : outer < room) :
    Fits room outer (.list .bottom) ∧ Fits room outer (.record []) := by
  have hlist : (Shape.list .bottom).Proper := ⟨trivial, trivial, .inl rfl⟩
  have hrecord : (Shape.record []).Proper := Shape.proper_record.2 ⟨.nil, nofun⟩
  refine ⟨⟨hlist, ?_⟩, hrecord, ?_⟩ <;>
    simp only [Shape.nesting, Shape.nestingOfFields] <;> omega

/-- A value that is one token fits wherever a value may stand. -/
theorem fits_scalar (hs : s ∈ scalars) {outer : Nat} (h : outer ≤ room) : Fits room outer s := by
  simp only [scalars, List.mem_cons, List.not_mem_nil, or_false] at hs
  rcases hs with rfl | rfl | rfl | rfl | rfl
  · exact ⟨⟨⟨rfl, trivial⟩, trivial, .inl rfl⟩, by simpa [Shape.nesting] using h⟩
  all_goals exact ⟨⟨trivial, trivial, trivial⟩, by simpa [Shape.nesting] using h⟩

/-- An array with one more element fits where it did, if there is room for the element in it. -/
theorem Fits.list_join {outer : Nat} {joined value : Shape} (hl : Fits room outer (.list joined))
    (hv : Fits room (outer + 1) value) : Fits room outer (.list (joined.join value)) := by
  obtain ⟨hproper, hlist⟩ := hl
  obtain ⟨hvalue, hdeep⟩ := hv
  rw [Shape.nesting] at hlist
  have hjoined_le : joined.nesting ≤ room - (outer + 1) := by omega
  have hvalue_le : value.nesting ≤ room - (outer + 1) := by omega
  have hjoin := Shape.nesting_join_le hjoined_le hvalue_le hproper.constructible
    hvalue.constructible
  refine ⟨hproper.list_join hvalue, ?_⟩
  rw [Shape.nesting]
  omega

/-- An object with one more member fits where it did, if there is room for the value in it. -/
theorem Fits.observe {outer : Nat} {fields : Fields} {value : Shape}
    (hf : Fits room outer (.record fields)) (hv : Fits room (outer + 1) value) (key : String) :
    Fits room outer (.record (fields.observe key value)) := by
  obtain ⟨hproper, hrecord⟩ := hf
  obtain ⟨hvalue, hdeep⟩ := hv
  have hfields_le : (Shape.record fields).nesting ≤ room - (outer + 1) + 1 := by omega
  have hvalue_le : value.nesting ≤ room - (outer + 1) := by omega
  have hobserve := Shape.nesting_observe_le hfields_le hvalue_le hproper.constructible
    hvalue.constructible key
  exact ⟨hproper.observe hvalue key, by omega⟩

/-- The array or object that a value is put into fits with the value. -/
theorem fits_settle (h : HolesFit room holes) (hs : Fits room holes.length s) :
    (settle holes s).Fits room := by
  cases holes with
  | nil => exact hs
  | cons hole holes =>
    obtain ⟨hhole, hholes⟩ := h
    cases hole with
    | element joined =>
      refine ⟨hholes, ?_⟩
      rintro _ ⟨⟩
      exact hhole.list_join hs
    | member fields key =>
      refine ⟨hholes, ?_⟩
      rintro _ ⟨⟩
      exact hhole.observe hs key

/-- Where a value may stand, all that waits for one fits. -/
theorem State.Awaits.holesFit (hv : state.Awaits holes) (h : state.Fits room) :
    HolesFit room holes := by
  cases hv with
  | value => exact h.1
  | firstElement => exact ⟨h.2 _ rfl, h.1⟩

/-- What may be closed is what is read so far. -/
theorem State.Closes.soFar? (hs : state.Closes s) : state.place.soFar? = some s := by
  cases hs <;> rfl

/-- What leads on leaves what is read so far. -/
theorem State.LeadsTo.fits (hl : state.LeadsTo state') (h : state.Fits room) :
    state'.Fits room := by
  obtain ⟨hholes, hplace⟩ := h
  cases hl with
  | element | colon => exact ⟨⟨hplace _ rfl, hholes⟩, nofun⟩
  | member | firstKey | key => exact ⟨hholes, hplace⟩

/-- Whatever token comes next, all that is open fits, and so does the shape if it is complete. -/
theorem fits_step (h : state.Fits room) (t : Token) : (state.step room t).Fits room := by
  have heffect := effect_step room state t
  generalize state.step room t = tr at heffect
  cases heffect with
  | scalar hv hs =>
    have hholes := hv.holesFit h
    exact fits_settle hholes (fits_scalar hs hholes.length_le)
  | opening hv _ hr hp =>
    obtain ⟨hlist, hrecord⟩ := fits_empty hr
    refine ⟨hv.holesFit h, ?_⟩
    rcases hp with rfl | rfl <;> rintro _ ⟨⟩
    · exact hrecord
    · exact hlist
  | closing hs => exact fits_settle h.1 (h.2 _ hs.soFar?)
  | leading hl => exact hl.fits h
  | refused => trivial

/-- A run that comes to a shape comes to one that fits. -/
theorem fits_run {cursor : Cursor} {repeated : List String} (h : state.Fits room)
    (hs : (run room state cursor repeated).1 = .ok s) : Fits room 0 s := by
  fun_induction run room state cursor repeated with
  | case1 => cases hs
  | case2 state cursor repeated t cursor' _ shape hstep =>
    have hfits := fits_step h t
    rw [hstep] at hfits
    cases hs
    exact hfits
  | case3 => cases hs
  | case4 state cursor repeated t cursor' _ state' key hstep ih =>
    have hfits := fits_step h t
    rw [hstep] at hfits
    exact ih hfits hs

/-- A reading that comes to a shape comes to one that fits. -/
theorem fits_readFrom {i : Inference} (h : state.Fits room)
    (hs : (i.readFrom room state).1 = .ok s) : Fits room 0 s :=
  fits_run h hs

end

/-- Nothing is open at the start of a value. -/
theorem fits_start (room : Nat) : State.Fits room ⟨[], .value⟩ :=
  ⟨trivial, nofun⟩

/-- Behind its opening token, an array or an object is open and fits where there is room for it. -/
theorem fits_opened {room : Nat} (h : 0 < room) :
    State.Fits room ⟨[], .firstElement⟩ ∧ State.Fits room ⟨[], .firstMember⟩ := by
  obtain ⟨hlist, hrecord⟩ := fits_empty h
  refine ⟨⟨trivial, ?_⟩, trivial, ?_⟩ <;> rintro _ ⟨⟩
  · exact hlist
  · exact hrecord

/-- A result that is mapped to an answer is one. -/
theorem exists_of_map_eq_ok {α β : Type} {f : α → β} {result : Except Failure α} {b : β}
    (h : result.map f = .ok b) : ∃ a, result = .ok a ∧ f a = b := by
  cases result with
  | error => cases h
  | ok a => exact ⟨a, rfl, Except.ok.inj h⟩

/-- A step that answers with a shape answers with a proper one. -/
theorem proper_of_perform {i : Inference} {step : Step} {s : Shape}
    (h : (step.perform i).1 = .ok (.shape s)) : s.Proper := by
  cases step with
  | value =>
    obtain ⟨_, hs, ⟨⟩⟩ := exists_of_map_eq_ok h
    exact (fits_readFrom (fits_start _) hs).proper
  | object =>
    obtain ⟨_, hs, ⟨⟩⟩ := exists_of_map_eq_ok h
    exact (fits_readFrom (fits_opened (Nat.succ_pos _)).2 hs).proper
  | array =>
    obtain ⟨_, hs, ⟨⟩⟩ := exists_of_map_eq_ok h
    exact (fits_readFrom (fits_opened (Nat.succ_pos _)).1 hs).proper
  | accept | expect | skip | peek =>
    obtain ⟨_, -, hanswer⟩ := exists_of_map_eq_ok h
    cases hanswer

/-- The shape of a source is proper, and there is room for its levels. -/
theorem fits_ofDocument {source : TokenSource} {s : Shape} (h : (ofDocument source).1 = .ok s) :
    Fits limit 0 s := by
  rw [ofDocument] at h
  split at h
  · cases h
  · next shape i hvalue =>
    have hread : ((ofSource source).readFrom limit ⟨[], .value⟩).1 = .ok shape :=
      congrArg Prod.fst hvalue
    have hfits := fits_readFrom (fits_start limit) hread
    split at h
    · cases h
    · cases h
      exact hfits
    · cases h

/-- Whatever an inference has been told to do before, and wherever its tokens come from, a shape
that it answers with is proper: no optional is the inner shape of another, no record has a key
twice, and bottom stands nowhere but directly inside an optional or a list. In the shape of a whole
source, lists and records nest at most 128 deep. -/
theorem answers_proper {s : Shape} :
    (∀ (i : Inference) (step : Step), (step.perform i).1 = .ok (.shape s) → s.Proper) ∧
      ∀ source : TokenSource, (ofDocument source).1 = .ok s → s.Proper ∧ s.nesting ≤ 128 :=
  ⟨fun _ _ h => proper_of_perform h,
    fun _ h => ⟨(fits_ofDocument h).proper, (fits_ofDocument h).nesting⟩⟩

/-- Behind a first record, null makes the elements of an array optional, and an empty array among
the values of the one key is a list of bottom. -/
theorem answers_proper_bottom :
    let ts : List Token :=
      [⟨.objectStart, none, 0⟩, ⟨.string, some "a", 1⟩, ⟨.colon, none, 2⟩, ⟨.arrayStart, none, 3⟩,
        ⟨.arrayEnd, none, 4⟩, ⟨.objectEnd, none, 5⟩, ⟨.comma, none, 6⟩, ⟨.word .null, none, 7⟩,
        ⟨.arrayEnd, none, 8⟩]
    let s : Shape := .list (.optional (.record [("a", .list .bottom)]))
    (Step.array.perform (ofSource (.tokens ts))).1 = .ok (.shape s) ∧ s.Proper ∧
      (ofDocument (.tokens (⟨.arrayStart, none, 0⟩ :: ts))).1 = .ok s ∧ s.nesting ≤ 128 := by
  intro ts s
  have hread : (Transition.onward ⟨[], .firstElement⟩ none).read (limit + 1) ts = .done s := by
    decide +kernel
  have harray : (Step.array.perform (ofSource (.tokens ts))).1 = .ok (.shape s) :=
    congrArg (Except.map Answer.shape) (run_tokens hread [])
  have hdocument : (ofDocument (.tokens (⟨.arrayStart, none, 0⟩ :: ts))).1 = .ok s := by
    have hall : Transition.start.read limit (⟨.arrayStart, none, 0⟩ :: ts) = .done s := by
      decide +kernel
    rw [ofDocument_tokens, hall]
    rfl
  exact ⟨harray, answers_proper.1 _ _ harray, hdocument, (answers_proper.2 _ hdocument).2⟩

end JsonShape.Inference
