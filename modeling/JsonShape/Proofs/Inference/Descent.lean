import JsonShape.Inference.Descent
import JsonShape.Proofs.Inference.Step
import JsonShape.Proofs.Token.Flat

/-!
# An inference descends recursively

An inference reads in one loop over a state, and learns from the result whether a level was refused.
This comes to the same as procedures that call each other and count each level where it is opened
(`Inference.perform_eq_body`). What is open in a state are the calls that are not over: inside outer
holes, a value is read as it is alone, and then fills the innermost of them
(`Inference.readFrom_append`). And where a call looks ahead for an end, nothing but the end is taken
(`Inference.readFrom_accept`). All of this is about sources that are `Flat`, because an error of the
source about levels could not be told from a level that is refused.
-/

namespace JsonShape.Inference

variable {i : Inference}

/-! ## One token -/

/-- An error that is not about levels refuses none. -/
theorem isTooDeep_of_flat {α : Type} {e : InputError} (h : e.Flat) :
    isTooDeep (.error (.input e) : Except Failure α) = false := by
  obtain ⟨cause, offset⟩ := e
  cases cause with
  | nestingTooDeep limit => cases h
  | _ => rfl

/-- Goes on from what a token did. -/
def Transition.goOn (room : Nat) (tr : Transition) (i : Inference) :
    Except Failure Shape × Inference :=
  match tr with
  | .onward state key => (noting key i).readFrom room state
  | .done s => (.ok s, i)
  | .refused failure =>
    (.error failure,
      { i with depth := if isTooDeep (.error failure : Except Failure Shape) then i.depth + 1
        else i.depth })

/-- Reading on is taking a token and going on from what it does. -/
theorem readFrom_eq_goOn (h : i.cursor.source.Flat) (room : Nat) (state : State) :
    i.readFrom room state = andThen i.skip fun t i => (state.step room t).goOn room i := by
  have hflat := (Cursor.flat_advance h).1
  rw [readFrom, run, skip]
  generalize i.cursor.advance = taken at hflat
  obtain ⟨_ | t, c⟩ := taken
  · simp only [isTooDeep_of_flat (hflat _ rfl)]
    rfl
  · show _ = (state.step room t).goOn room { i with cursor := c }
    simp only
    cases state.step room t <;> rfl

/-- Going on twice is going on with what goes on. -/
theorem andThen_assoc {α β γ : Type} (result : Except Failure α × Inference)
    (next : α → Inference → Except Failure β × Inference)
    (last : β → Inference → Except Failure γ × Inference) :
    andThen (andThen result next) last = andThen result fun a i => andThen (next a i) last := by
  obtain ⟨_ | a, i⟩ := result <;> rfl

/-! ## Sources -/

/-- What is taken leaves a source that knows nothing of levels. -/
theorem flat_skip (h : i.cursor.source.Flat) : i.skip.2.cursor.source.Flat :=
  (Cursor.flat_advance h).2

/-- A token that is taken brings the end nearer. -/
theorem unread_lt_of_skip {i' : Inference} {t : Token} (h : i.skip = (.ok t, i')) :
    i'.cursor.unread < i.cursor.unread := by
  rw [skip] at h
  generalize ha : i.cursor.advance = taken at h
  obtain ⟨_ | u, c⟩ := taken
  · cases h
  · cases h
    exact Cursor.unread_lt_of_advance ha

/-- Reading leaves a source that knows nothing of levels. -/
theorem flat_readFrom (h : i.cursor.source.Flat) (room : Nat) (state : State) :
    (i.readFrom room state).2.cursor.source.Flat := by
  induction hn : i.cursor.unread using Nat.strongRecOn generalizing i state with
  | ind n ih =>
    rw [readFrom_eq_goOn h]
    have hflat := flat_skip h
    generalize hskip : i.skip = taken at hflat
    obtain ⟨_ | t, i'⟩ := taken
    · exact hflat
    · have hlt : i'.cursor.unread < n := hn ▸ unread_lt_of_skip hskip
      simp only [andThen]
      cases state.step room t with
      | onward next key => exact ih (i := noting key i') _ hlt hflat next rfl
      | done s => exact hflat
      | refused failure => exact hflat

/-! ## Outer holes -/

/-- The same inside other holes, which get the value when it is complete. -/
def Transition.within (outer : List Hole) : Transition → Transition
  | .onward ⟨holes, place⟩ key => .onward ⟨holes ++ outer, place⟩ key
  | .done s => settle outer s
  | .refused failure => .refused failure

/-- A value fills the innermost hole, and outer holes when there is none. -/
theorem settle_append (inner outer : List Hole) (s : Shape) :
    settle (inner ++ outer) s = (settle inner s).within outer := by
  cases inner with
  | nil => rfl
  | cons hole inner => cases hole <;> rfl

/-- Outer holes take the room that they take from inner ones. -/
theorem nest_append (room : Nat) (inner outer : List Hole) (place : Place) (t : Token) :
    nest room (inner ++ outer) place t =
      (nest (room - outer.length) inner place t).within outer := by
  have hroom : (inner ++ outer).length < room ↔ inner.length < room - outer.length := by
    rw [List.length_append]
    omega
  simp only [nest, hroom]
  split <;> rfl

/-- The first token of a value does not depend on outer holes. -/
theorem stepValue_append (room : Nat) (inner outer : List Hole) (t : Token) :
    stepValue room (inner ++ outer) t =
      (stepValue (room - outer.length) inner t).within outer := by
  simp only [stepValue, settle_append, nest_append]
  split <;> try rfl
  split <;> rfl

/-- Nor does the key of a member. -/
theorem stepKey_append (inner outer : List Hole) (fields : Fields) (t : Token) :
    stepKey (inner ++ outer) fields t = (stepKey inner fields t).within outer := by
  simp only [stepKey]
  split <;> try rfl
  split <;> rfl

/-- No token depends on outer holes until the value is complete. -/
theorem step_append (room : Nat) (inner outer : List Hole) (place : Place) (t : Token) :
    State.step room ⟨inner ++ outer, place⟩ t =
      (State.step (room - outer.length) ⟨inner, place⟩ t).within outer := by
  cases place with
  | value => exact stepValue_append room inner outer t
  | firstElement =>
    simp only [State.step, settle_append, ← List.cons_append, stepValue_append]
    split <;> rfl
  | afterElement joined =>
    simp only [State.step, settle_append]
    repeat' split
    all_goals rfl
  | firstMember =>
    simp only [State.step, settle_append, stepKey_append]
    split <;> rfl
  | key fields => exact stepKey_append inner outer fields t
  | colon fields key =>
    simp only [State.step]
    split <;> rfl
  | afterMember fields =>
    simp only [State.step, settle_append]
    repeat' split
    all_goals rfl

/-- Inside outer holes, a value is read as it is alone, and then fills them. -/
theorem readFrom_append (h : i.cursor.source.Flat) (room : Nat) (inner outer : List Hole)
    (place : Place) :
    i.readFrom room ⟨inner ++ outer, place⟩ =
      andThen (i.readFrom (room - outer.length) ⟨inner, place⟩) fun s i =>
        (settle outer s).goOn room i := by
  induction hn : i.cursor.unread using Nat.strongRecOn generalizing i inner place with
  | ind n ih =>
    rw [readFrom_eq_goOn h, readFrom_eq_goOn h, andThen_assoc]
    have hflat := flat_skip h
    generalize hskip : i.skip = taken at hflat
    obtain ⟨_ | t, i'⟩ := taken
    · rfl
    · have hlt := hn ▸ unread_lt_of_skip hskip
      simp only [andThen, step_append]
      cases State.step (room - outer.length) ⟨inner, place⟩ t with
      | onward next key =>
        exact ih (i := noting key i') _ hlt hflat next.holes next.place rfl
      | done s => rfl
      | refused failure => rfl

/-! ## Expected tokens -/

/-- What a cursor takes, an inference takes. -/
theorem skip_of_advance {t : Token} {c : Cursor} (h : i.cursor.advance = (.ok t, c)) :
    i.skip = (.ok t, { i with cursor := c }) := by
  rw [skip, h]
  rfl

/-- What is seen ahead is seen again. -/
theorem peek_of_peek {c c' : Cursor} {seen : Option Token} (h : c.peek = (.ok seen, c')) :
    c'.peek = c.peek := by
  rw [h]
  obtain ⟨source, ahead⟩ := c
  cases ahead with
  | token | stop =>
    cases h
    rfl
  | unseen =>
    simp only [Cursor.peek] at h
    generalize source.next = r at h
    obtain ⟨answer, source'⟩ := r
    cases answer <;> cases h <;> rfl

/-- A cursor that has looked ahead takes what it would have taken. -/
theorem advance_of_peek {c c' : Cursor} {seen : Option Token} (h : c.peek = (.ok seen, c')) :
    c'.advance = c.advance := by
  rw [Cursor.advance, Cursor.advance, peek_of_peek h]

/-- Reading on where one kind of token completes the shape: any other token is not taken yet. -/
theorem readFrom_accept (h : i.cursor.source.Flat) {room : Nat} {state : State} {kind : TokenKind}
    {s : Shape} {next : Inference → Except Failure Shape × Inference}
    (hkind : ∀ t, t.kind = kind → state.step room t = .done s)
    (hnext : ∀ c, c.source.Flat → c.advance = i.cursor.advance →
      (∀ t, c.advance.1 = .ok t → t.kind ≠ kind) →
      i.readFrom room state = next { i with cursor := c }) :
    i.readFrom room state =
      andThen (i.accept kind) fun taken i => if taken then (.ok s, i) else next i := by
  have hflat := (Cursor.flat_peek h).2
  generalize hc : i.cursor.peek = r at hflat
  obtain ⟨_ | seen, c⟩ := r
  · rw [readFrom_eq_goOn h, skip, Cursor.advance, accept, peek, hc]
    rfl
  · have hsame := advance_of_peek hc
    have hpeek : i.peek = (.ok seen, { i with cursor := c }) := by
      rw [peek, hc]
      rfl
    rw [accept, hpeek]
    cases seen with
    | none =>
      refine hnext c hflat hsame fun t ht => ?_
      rw [hsame, Cursor.advance, hc] at ht
      cases ht
    | some t =>
      have htake : c.advance = (.ok t, { c with ahead := .unseen }) := by
        rw [hsame, Cursor.advance, hc]
      dsimp only
      by_cases ht : t.kind = kind
      · rw [if_pos ht, readFrom_eq_goOn h, skip_of_advance (hsame ▸ htake),
          skip_of_advance (i := { i with cursor := c }) htake]
        exact congrArg (Transition.goOn room · _) (hkind t ht)
      · rw [if_neg ht]
        refine hnext c hflat hsame fun u hu => ?_
        rw [htake] at hu
        cases hu
        exact ht

/-- Reading on depends on what is taken next, not on how far ahead it is seen. -/
theorem readFrom_of_advance {c : Cursor} (h : c.advance = i.cursor.advance) (room : Nat)
    (state : State) : i.readFrom room state = { i with cursor := c }.readFrom room state := by
  rw [readFrom, readFrom, run, run, h]

/-- Reading on where one kind of token is expected. -/
theorem readFrom_expect (h : i.cursor.source.Flat) {room : Nat} {state state' : State}
    {kind : TokenKind}
    (hkind : ∀ t, t.kind = kind → state.step room t = .onward state' none)
    (hother : ∀ t, i.cursor.advance.1 = .ok t → t.kind ≠ kind →
      state.step room t = refuse t (.expected kind t.kind)) :
    i.readFrom room state = andThen (i.expect kind) fun _ i => i.readFrom room state' := by
  generalize hc : i.cursor.advance = taken at hother
  obtain ⟨_ | t, c⟩ := taken
  · rw [readFrom_eq_goOn h, expect, skip, hc]
    rfl
  · rw [readFrom_eq_goOn h, expect, skip_of_advance hc]
    dsimp only [andThen]
    by_cases ht : t.kind = kind
    · rw [hkind t ht, if_pos ht]
      rfl
    · rw [hother t rfl ht, if_neg ht]
      rfl

/-! ## Levels -/

/-- A result leaves a source that knows nothing of levels, and one more level counts exactly if one
was refused. -/
structure Accounts {α : Type} (i : Inference) (result : Except Failure α × Inference) :
    Prop where
  flat : result.2.cursor.source.Flat
  depth : result.2.depth = i.depth + if isTooDeep result.1 then 1 else 0

/-- An account starts from any inference of that depth. -/
theorem Accounts.of_depth_eq {α : Type} {i' : Inference} {result : Except Failure α × Inference}
    (h : Accounts i' result) (hdepth : i'.depth = i.depth) : Accounts i result :=
  ⟨h.flat, hdepth ▸ h.depth⟩

/-- Whether a level was refused does not depend on what there would have been otherwise. -/
theorem isTooDeep_error {α β : Type} (failure : Failure) :
    isTooDeep (.error failure : Except Failure α) =
      isTooDeep (.error failure : Except Failure β) := by
  cases failure with
  | input e =>
    obtain ⟨cause, offset⟩ := e
    cases cause <;> rfl
  | _ => rfl

/-- No level is refused where only tokens are read. -/
theorem isTooDeep_mapError {α : Type} {result : Except InputError α}
    (h : ∀ e, result = .error e → e.Flat) : isTooDeep (result.mapError .input) = false := by
  cases result with
  | error e => exact isTooDeep_of_flat (h e rfl)
  | ok a => rfl

/-- A token is taken at any depth. -/
theorem accounts_skip (h : i.cursor.source.Flat) : Accounts i i.skip := by
  obtain ⟨herror, hflat⟩ := Cursor.flat_advance h
  exact ⟨hflat, by rw [skip, isTooDeep_mapError herror]; rfl⟩

/-- So is one that is only looked at. -/
theorem accounts_peek (h : i.cursor.source.Flat) : Accounts i i.peek := by
  obtain ⟨herror, hflat⟩ := Cursor.flat_peek h
  exact ⟨hflat, by rw [peek, isTooDeep_mapError herror]; rfl⟩

/-- What goes on with an account gives one. -/
theorem accounts_andThen {α β : Type} {result : Except Failure α × Inference}
    {next : α → Inference → Except Failure β × Inference} (h : Accounts i result)
    (hnext : ∀ a i', i'.cursor.source.Flat → i'.depth = i.depth → Accounts i (next a i')) :
    Accounts i (andThen result next) := by
  obtain ⟨_ | a, i'⟩ := result
  · exact ⟨h.flat, by rw [andThen, isTooDeep_error]; exact h.depth⟩
  · exact hnext a i' h.flat h.depth

/-- What is true of results that give an account is true of all. -/
theorem andThen_congr {α β : Type} {result : Except Failure α × Inference}
    {next next' : α → Inference → Except Failure β × Inference} (h : Accounts i result)
    (hnext : ∀ a i', i'.cursor.source.Flat → i'.depth = i.depth → next a i' = next' a i') :
    andThen result next = andThen result next' := by
  obtain ⟨_ | a, i'⟩ := result
  · rfl
  · exact hnext a i' h.flat h.depth

/-- Accepting a token is looking at it, and then taking it or not. -/
theorem accept_eq_andThen (kind : TokenKind) (i : Inference) :
    i.accept kind = andThen i.peek fun seen i =>
      match seen with
      | none => (.ok false, i)
      | some t =>
        if t.kind = kind then andThen i.skip fun _ i => (.ok true, i) else (.ok false, i) := by
  rw [accept]
  obtain ⟨_ | _ | t, i'⟩ := i.peek
  · rfl
  · rfl
  · simp only [andThen]
    obtain ⟨_ | u, i''⟩ := i'.skip <;> rfl

/-- Expecting a token is taking it and complaining if it is another one. -/
theorem expect_eq_andThen (kind : TokenKind) (i : Inference) :
    i.expect kind = andThen i.skip fun t i =>
      if t.kind = kind then (.ok (), i) else (misplaced t (.expected kind t.kind), i) := by
  rw [expect]
  obtain ⟨_ | t, i'⟩ := i.skip <;> rfl

/-- A token that is accepted or not leaves the depth as it is. -/
theorem accounts_accept (h : i.cursor.source.Flat) (kind : TokenKind) :
    Accounts i (i.accept kind) := by
  rw [accept_eq_andThen]
  refine accounts_andThen (accounts_peek h) fun seen i' hflat hdepth => ?_
  cases seen with
  | none => exact ⟨hflat, hdepth⟩
  | some t =>
    dsimp only
    split
    · exact (accounts_andThen (accounts_skip hflat) fun _ _ hflat hdepth =>
        ⟨hflat, hdepth⟩).of_depth_eq hdepth
    · exact ⟨hflat, hdepth⟩

/-- A token that is expected leaves the depth as it is, also if another one comes. -/
theorem accounts_expect (h : i.cursor.source.Flat) (kind : TokenKind) :
    Accounts i (i.expect kind) := by
  rw [expect_eq_andThen]
  refine accounts_andThen (accounts_skip h) fun t i' hflat hdepth => ?_
  split <;> exact ⟨hflat, hdepth⟩

/-- Reading on counts one more level exactly if it refuses one, in whatever state it starts. -/
theorem accounts_readFrom (h : i.cursor.source.Flat) (room : Nat) (state : State) :
    Accounts i (i.readFrom room state) := by
  refine ⟨flat_readFrom h room state, ?_⟩
  rw [readFrom]
  dsimp only
  split <;> rfl

/-! ## Procedures -/

/-- Where there is room for a level, what is in it is read one level deeper, and the level is given
back; where there is none, it is refused and not given back. -/
theorem goOn_nest (t : Token) (place : Place)
    {call : Inference → Except Failure Shape × Inference}
    (hcall : ∀ j, call j = j.readFrom (limit - j.depth + 1) ⟨[], place⟩) :
    (nest (limit - i.depth) [] place t).goOn (limit - i.depth) i = nested t call i := by
  rw [nest, nested]
  by_cases hroom : i.depth < limit
  · have hone : ([] : List Hole).length < limit - i.depth := Nat.sub_pos_of_lt hroom
    have hdeeper : limit - (i.depth + 1) + 1 = limit - i.depth := by omega
    have hback : ∀ deep : Bool, (if deep then i.depth + 1 + 1 else i.depth + 1) - 1 =
        if deep then i.depth + 1 else i.depth := by
      intro deep
      cases deep <;> rfl
    rw [if_pos hone, if_neg (Nat.not_lt.2 hroom), hcall]
    show i.readFrom (limit - i.depth) ⟨[], place⟩ = _
    simp only [readFrom, hdeeper, hback]
  · have hone : ¬([] : List Hole).length < limit - i.depth := by
      rw [List.length_nil]
      omega
    rw [if_neg hone, if_pos (by show limit < i.depth + 1; omega)]
    rfl

section

variable {room : Nat} {state state' : State} {kind : TokenKind} {s : Shape}
  {next : Inference → Except Failure Shape × Inference}

/-- The first element of an array or the first key of an object, or the end in place of it. -/
theorem readFrom_first (h : i.cursor.source.Flat)
    (hkind : ∀ t, t.kind = kind → state.step room t = .done s)
    (hother : ∀ t, t.kind ≠ kind → state.step room t = state'.step room t)
    (hnext : ∀ j : Inference, j.depth = i.depth → j.readFrom room state' = next j) :
    i.readFrom room state =
      andThen (i.accept kind) fun ended i => if ended then (.ok s, i) else next i := by
  refine readFrom_accept h hkind fun c hflat hsame hne => ?_
  have hflat' : { i with cursor := c }.cursor.source.Flat := hflat
  rw [← hnext { i with cursor := c } rfl, readFrom_of_advance hsame, readFrom_eq_goOn hflat',
    readFrom_eq_goOn hflat']
  generalize hc : c.advance = taken at hne
  obtain ⟨_ | t, c'⟩ := taken
  · rw [skip, hc]
    rfl
  · rw [skip_of_advance (i := { i with cursor := c }) hc]
    exact congrArg (Transition.goOn room · _) (hother t (hne t rfl))

/-- Further elements of an array or further keys of an object, or the end in place of them. -/
theorem readFrom_further (h : i.cursor.source.Flat)
    (hkind : ∀ t, t.kind = kind → state.step room t = .done s)
    (hcomma : ∀ t, t.kind = .comma → state.step room t = .onward state' none)
    (hother : ∀ t, t.kind ≠ kind → t.kind ≠ .comma →
      state.step room t = refuse t (.expected .comma t.kind))
    (hnext : ∀ j : Inference, j.depth = i.depth → j.readFrom room state' = next j) :
    i.readFrom room state =
      andThen (i.accept kind) fun ended i =>
        if ended then (.ok s, i) else andThen (i.expect .comma) fun _ i => next i := by
  refine readFrom_accept h hkind fun c hflat hsame hne => ?_
  have hflat' : { i with cursor := c }.cursor.source.Flat := hflat
  rw [readFrom_of_advance hsame,
    readFrom_expect hflat' hcomma fun t ht hc => hother t (hne t ht) hc]
  exact andThen_congr (accounts_expect hflat' _) fun _ j _ hdepth => hnext j hdepth

end

/-- A value in a hole is read as one that stands alone, and then fills the hole. -/
theorem readFrom_hole (h : i.cursor.source.Flat) (hole : Hole) :
    i.readFrom (limit - i.depth + 1) ⟨[hole], .value⟩ =
      andThen i.value fun s i' => (settle [hole] s).goOn (limit - i.depth + 1) i' :=
  readFrom_append h (limit - i.depth + 1) [] [hole] .value

/-- A value is one token, or an array or an object one level deeper. -/
theorem value_eq_body (h : i.cursor.source.Flat) :
    i.value = Call.value.body Call.perform i := by
  rw [value, Call.body, readFrom_eq_goOn h]
  refine andThen_congr (accounts_skip h) fun t i' hflat hdepth => ?_
  rw [State.step, ← hdepth]
  obtain ⟨kind, text?, offset⟩ := t
  cases kind with
  | word w => cases w <;> rfl
  | number => cases text? <;> rfl
  | objectStart => exact goOn_nest _ _ fun _ => rfl
  | arrayStart => exact goOn_nest _ _ fun _ => rfl
  | _ => rfl

/-- An object is empty, or it has members. -/
theorem object_eq_body (h : i.cursor.source.Flat) :
    i.object = Call.object.body Call.perform i :=
  readFrom_first h (fun _ ht => if_pos ht) (fun _ ht => step_firstMember ht)
    fun j hdepth => by rw [Call.perform, hdepth]

/-- An array is empty, or it has elements. -/
theorem array_eq_body (h : i.cursor.source.Flat) :
    i.array = Call.array.body Call.perform i :=
  readFrom_first h (fun _ ht => if_pos ht) (fun _ ht => step_firstElement ht)
    fun j hdepth => by rw [Call.perform, hdepth]

/-- Behind an element comes the end of the array, or a comma and further elements. -/
theorem elements_eq_body (h : i.cursor.source.Flat) (joined : Shape) :
    (Call.elements joined).perform i = (Call.elements joined).body Call.perform i := by
  rw [Call.perform, readFrom_hole h, Call.body]
  refine andThen_congr (accounts_readFrom h _ _) fun s i' hflat hdepth => ?_
  have hcomma : ∀ t : Token, t.kind = .comma →
      State.step (limit - i.depth + 1) ⟨[], .afterElement (joined.join s)⟩ t =
        .onward ⟨[.element (joined.join s)], .value⟩ none :=
    fun t ht => step_elementComma (Token.lexeme_of_kind ht (by simp)) _
  refine readFrom_further hflat (fun _ ht => if_pos ht) hcomma
    (fun _ hend hcomma => (if_neg hend).trans (if_neg hcomma)) fun j hj => ?_
  rw [Call.perform, hj.trans hdepth]

/-- Behind a key, a colon and its value comes the end of the object, or a comma and further
members. -/
theorem members_eq_body (h : i.cursor.source.Flat) (fields : Fields) :
    (Call.members fields).perform i = (Call.members fields).body Call.perform i := by
  rw [Call.perform, Call.body, readFrom_eq_goOn h]
  refine andThen_congr (accounts_skip h) fun t i' hflat hdepth => ?_
  obtain ⟨kind, text?, offset⟩ := t
  cases kind with
  | string =>
    cases text? with
    | none => rfl
    | some key =>
      have hcolon : ∀ t : Token, t.kind = .colon →
          State.step (limit - i.depth + 1) ⟨[], .colon fields key⟩ t =
            .onward ⟨[.member fields key], .value⟩ none :=
        fun t ht => if_pos ht
      refine (readFrom_expect hflat hcolon fun _ _ ht => if_neg ht).trans ?_
      refine andThen_congr (accounts_expect hflat _) fun _ i' hflat hdepth' => ?_
      rw [← hdepth, ← hdepth', readFrom_hole hflat]
      refine andThen_congr (accounts_readFrom hflat _ _) fun s j hflat hdepth => ?_
      have hcomma : ∀ t : Token, t.kind = .comma →
          State.step (limit - i'.depth + 1) ⟨[], .afterMember (fields.observe key s)⟩ t =
            .onward ⟨[], .key (fields.observe key s)⟩ none :=
        fun t ht => step_memberComma (Token.lexeme_of_kind ht (by simp)) _
      refine readFrom_further hflat (fun _ ht => if_pos ht) hcomma
        (fun _ hend hcomma => (if_neg hend).trans (if_neg hcomma)) fun k hk => ?_
      have hdepth : k.depth = i'.depth := hk.trans hdepth
      rw [Call.perform, hdepth]
  | _ => rfl

/-- What an inference does for a call is what the procedure of the call does. -/
theorem perform_eq_body (h : i.cursor.source.Flat) (call : Call) :
    call.perform i = call.body Call.perform i := by
  cases call with
  | value => exact value_eq_body h
  | object => exact object_eq_body h
  | members fields => exact members_eq_body h fields
  | array => exact array_eq_body h
  | elements joined => exact elements_eq_body h joined

end JsonShape.Inference
