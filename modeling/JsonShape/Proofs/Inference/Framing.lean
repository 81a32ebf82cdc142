import JsonShape.Proofs.Inference.Repeats
import JsonShape.Proofs.Inference.Viable

/-!
# Framing

An inference in any state that has the tokens of a value in front of it reads exactly these,
whatever comes behind them, as long as the levels of the value fit on top of those that count as
open. If they do not, the first opening token that opens a level too many is refused, and nothing
behind it is touched (`Inference.frames`). That the limit decides about nothing else is seen one
step at a time: with less room, a token has the same effect, or it opens a level where a value may
stand and the room is used up (`Inference.step_of_room_le`).
-/

namespace JsonShape.Inference

/-! ## Less room -/

/-- The token opens a level where a value may stand, and is refused because so many are open. -/
structure Overfull (room : Nat) (state : State) (t : Token) : Prop where
  opens : t.kind.opens = true
  awaits : ∃ holes, state.Awaits holes ∧ room ≤ holes.length
  refused : state.step room t = .refused (.input ⟨.nestingTooDeep limit, some t.offset⟩)

section

variable {room room' : Nat}

/-- With less room, the first token of a value has the same effect, or the room is used up. -/
theorem stepValue_of_room_le (hroom : room ≤ room') (holes : List Hole) (t : Token) :
    stepValue room holes t = stepValue room' holes t ∨ t.kind.opens = true ∧ room ≤ holes.length ∧
      stepValue room holes t = .refused (.input ⟨.nestingTooDeep limit, some t.offset⟩) := by
  obtain ⟨kind, text?, offset⟩ := t
  cases kind with
  | objectStart | arrayStart =>
    by_cases hopen : holes.length < room
    · left
      simp only [stepValue, nest, if_pos hopen, if_pos (Nat.lt_of_lt_of_le hopen hroom)]
    · exact .inr ⟨rfl, Nat.not_lt.1 hopen, if_neg hopen⟩
  | word w => cases w <;> exact .inl rfl
  | _ => exact .inl rfl

/-- With less room, a token has the same effect, or the room is used up. -/
theorem step_of_room_le (hroom : room ≤ room') (state : State) (t : Token) :
    state.step room t = state.step room' t ∨ Overfull room state t := by
  obtain ⟨holes, place⟩ := state
  cases place with
  | value =>
    rcases stepValue_of_room_le hroom holes t with h | ⟨ho, hfull, h⟩
    · exact .inl h
    · exact .inr ⟨ho, ⟨holes, .value holes, hfull⟩, h⟩
  | firstElement =>
    by_cases hend : t.kind = .arrayEnd
    · left
      simp only [State.step, if_pos hend]
    · rw [step_firstElement hend, step_firstElement hend]
      rcases stepValue_of_room_le hroom (.element .bottom :: holes) t with h | ⟨ho, hfull, h⟩
      · exact .inl h
      · exact .inr ⟨ho, ⟨_, .firstElement holes, hfull⟩, (step_firstElement hend).trans h⟩
  | _ => exact .inl rfl

/-- Tokens that complete a shape do so with less room too, or the room is used up at one of them. -/
theorem read_of_room_le (hroom : room ≤ room') {tr : Transition} {ts : List Token} {s : Shape}
    (h : tr.read room' ts = .done s) :
    tr.read room ts = .done s ∨ ∃ front t back state key, ts = front ++ t :: back ∧
      tr.read room front = .onward state key ∧ Overfull room state t := by
  induction ts generalizing tr with
  | nil => exact .inl h
  | cons t ts ih =>
    cases tr with
    | refused failure => exact absurd h (Transition.read_refused_ne_done room' failure _ s)
    | done s' => exact absurd (Transition.read_done h).1 nofun
    | onward state key =>
      rcases step_of_room_le hroom state t with hstep | hfull
      · rw [Transition.read_cons, Transition.next, ← hstep] at h
        rcases ih h with hdone | ⟨front, u, back, state', key', rfl, hfront, hfull⟩
        · exact .inl hdone
        · exact .inr ⟨t :: front, u, back, state', key', rfl, hfront, hfull⟩
      · exact .inr ⟨[], t, ts, state, key, rfl, rfl, hfull⟩

end

/-! ## The first level too many -/

/-- The token opens a level, and more than `limit` are open then: `depth` of them count as open in
front of all tokens, and others are opened by the tokens in front of this one. -/
structure Exceeds (depth : Nat) (front : List Token) (t : Token) : Prop where
  opens : t.kind.opens = true
  excess : limit < depth + (openLevels front + 1)

/-- The token opens a level too many, and none in front of it does. -/
structure ExceedsFirst (depth : Nat) (front : List Token) (t : Token) : Prop
    extends Exceeds depth front t where
  first : ∀ earlier u, earlier ++ [u] <+: front → ¬Exceeds depth earlier u

section

variable {room : Nat} {state state' : State} {key key' : Option String} {ts : List Token}

/-- Where a value is not the last of all, something is open behind it. -/
theorem opened_pos_of_settle {holes : List Hole} {s : Shape}
    (h : settle holes s = .onward state key) : 0 < state.opened := by
  have hopened := opened_settle holes s
  rw [h, Transition.opened] at hopened
  cases holes with
  | nil => cases h
  | cons hole holes =>
    rw [hopened]
    exact Nat.succ_pos holes.length

/-- Behind a token that leads on, something is open. -/
theorem opened_pos_of_step {t : Token} (h : state.step room t = .onward state' key) :
    0 < state'.opened := by
  have heffect := effect_step room state t
  rw [h] at heffect
  generalize htr : Transition.onward state' key = tr at heffect
  cases heffect with
  | scalar | closing => exact opened_pos_of_settle htr.symm
  | @opening holes place _ _ _ hp =>
    cases htr
    rcases hp with rfl | rfl <;> exact Nat.succ_pos holes.length
  | leading hl =>
    cases htr
    cases hl <;> exact Nat.succ_pos _
  | refused => cases htr

/-- Tokens lead on from where they lead on for a start. -/
theorem exists_onward_of_read {tr : Transition} (h : tr.read room ts = .onward state key) :
    ∃ start key', tr = .onward start key' := by
  cases tr with
  | onward start key' => exact ⟨start, key', rfl⟩
  | refused failure =>
    rw [Transition.read_refused] at h
    cases h
  | done s =>
    cases ts with
    | nil => cases h
    | cons t ts =>
      rw [Transition.read_cons, Transition.next, refuse, Transition.read_refused] at h
      cases h

/-- What is open does not close before the end. -/
theorem opened_pos_of_read (hpos : 0 < state.opened)
    (h : (Transition.onward state key).read room ts = .onward state' key') :
    0 < state'.opened := by
  induction ts generalizing state key with
  | nil =>
    cases h
    exact hpos
  | cons t ts ih =>
    rw [Transition.read_cons, Transition.next] at h
    obtain ⟨next, nextKey, hnext⟩ := exists_onward_of_read h
    rw [hnext] at h
    exact ih (opened_pos_of_step hnext) h

/-- Where the room is used up, the token opens a level too many, and it is the first to do so. A
level that is open in front of the tokens does not count, but there is room for it. -/
theorem exceedsFirst_of_overfull {depth : Nat} {t : Token} (hopened : state.opened ≤ 1)
    (hroom : room = limit - depth + state.opened)
    (h : (Transition.onward state key).read room ts = .onward state' key')
    (hfull : Overfull room state' t) : ExceedsFirst depth ts t := by
  have hstart : (Transition.onward state key).opened = state.opened := rfl
  have hle : (Transition.onward state key).opened ≤ room := hroom ▸ Nat.le_add_left _ _
  obtain ⟨ho, ⟨holes, hv, hholes⟩, -⟩ := hfull
  refine ⟨⟨ho, ?_⟩, ?_⟩
  · obtain ⟨hcount, -⟩ := opened_read hle fun f hf => nomatch h.symm.trans hf
    rw [h, hstart, Transition.opened, hv.opened] at hcount
    rw [openLevels]
    omega
  · rintro earlier u ⟨rest, rfl⟩ ⟨hu, hover⟩
    rw [Transition.read_append, Transition.read_append] at h
    obtain ⟨next, nextKey, hnext⟩ := exists_onward_of_read h
    obtain ⟨before, beforeKey, hbefore⟩ := exists_onward_of_read hnext
    obtain ⟨hcount, hbeforeRoom⟩ := opened_read hle fun f hf => nomatch hbefore.symm.trans hf
    rw [hbefore, Transition.opened] at hcount hbeforeRoom
    rw [hbefore] at hnext
    have hstep : before.step room u = .onward next nextKey := hnext
    obtain ⟨hone, hnextRoom⟩ := opened_step fun f hf => nomatch hstep.symm.trans hf
    simp only [hu, closes_of_opens hu, Bool.false_eq_true, if_true, if_false] at hone
    -- were more closed than opened in front of the token, `openLevels` would not say how many
    have hmore : state.opened ≤ before.opened := by
      rcases Nat.eq_zero_or_pos state.opened with hzero | hpos
      · exact hzero ▸ Nat.zero_le _
      · exact Nat.le_trans hopened (opened_pos_of_read hpos hbefore)
    have hnextLe := hnextRoom hbeforeRoom
    rw [openLevels] at hover
    omega

end

/-! ## Reading one value -/

/-- Tokens up to one that is refused are taken, and no others. -/
theorem run_of_refused {room : Nat} {state state' : State} {key key' : Option String} {c : Cursor}
    {front back : List Token} {t : Token} {rest : TokenSource} {failure : Failure}
    (he : c.Emits (front ++ t :: back) rest)
    (h : (Transition.onward state key).read room front = .onward state' key')
    (ht : state'.step room t = .refused failure) (repeated : List String) :
    ∃ next keys, c.Emits (front ++ [t]) next ∧ next.Emits back rest ∧
      run room state c repeated = (.error failure, ⟨next, .unseen⟩, keys) := by
  induction front generalizing state key c repeated with
  | nil =>
    cases h
    obtain ⟨next, ha, he⟩ := Cursor.emits_cons.1 he
    refine ⟨next, repeated, Cursor.emits_cons.2 ⟨next, ha, rfl⟩, he, ?_⟩
    rw [run, ha]
    simp only [ht]
  | cons u front ih =>
    obtain ⟨between, ha, he⟩ := Cursor.emits_cons.1 he
    rw [Transition.read_cons, Transition.next] at h
    obtain ⟨state₁, key₁, hstep⟩ := exists_onward_of_read h
    rw [hstep] at h
    obtain ⟨next, keys, hnext, hback, hrun⟩ := ih he h (key₁.toList ++ repeated)
    refine ⟨next, keys, Cursor.emits_cons.2 ⟨between, ha, hnext⟩, hback, ?_⟩
    rw [run, ha]
    simp only [hstep]
    exact hrun

/-- What comes of reading a value, `counted` of whose levels are still to be opened, if its tokens
that are not taken yet are the first of those to come, and `rest` is what comes behind them. -/
structure Framed (i : Inference) (v : Value) (counted : Nat) (ts : List Token) (rest : TokenSource)
    (result : Except Failure Shape × Inference) : Prop where
  /-- The levels fit: the result is the shape of the value, exactly the tokens behind the value are
  to come, none of them is seen ahead, and as many levels count as open as before. -/
  fits : counted = 0 ∨ i.depth + counted ≤ limit → result = (.ok v.shape,
    { cursor := ⟨rest, .unseen⟩, depth := i.depth,
      repeated := v.repeatedKeys.reverse ++ i.repeated })
  /-- The levels do not fit: the first opening token that opens one too many is refused, and exactly
  the tokens behind this token are to come. -/
  exceeds : ¬(counted = 0 ∨ i.depth + counted ≤ limit) →
    ∃ front t back next, ts = front ++ t :: back ∧ ExceedsFirst i.depth front t ∧
      i.cursor.Emits (front ++ [t]) next ∧ next.Emits back rest ∧
      result.1 = .error (.input ⟨.nestingTooDeep limit, some t.offset⟩) ∧
      result.2.cursor = ⟨next, .unseen⟩ ∧ result.2.depth = i.depth + 1

/-- Where a value has more levels than there is room for, the room is used up at one of its
tokens. -/
theorem exists_overfull_of_lt {room : Nat} {v : Value} {front ts : List Token} {state : State}
    (hfront : ∀ room, state.opened ≤ room → Transition.start.read room front = .onward state none)
    (hroom : state.opened ≤ room) (hlt : room < v.levels) (hv : v.SpelledBy (front ++ ts)) :
    ∃ earlier t back state' key, ts = earlier ++ t :: back ∧
      (Transition.onward state none).read room earlier = .onward state' key ∧
      Overfull room state' t := by
  have hdone : Transition.start.read v.levels (front ++ ts) = .done v.shape :=
    (read_eq_done_iff (texted_of_spelledBy hv)).2 ⟨v, hv, Nat.le_refl _, rfl⟩
  rw [Transition.read_append, hfront _ (Nat.le_of_lt (Nat.lt_of_le_of_lt hroom hlt))] at hdone
  refine (read_of_room_le (Nat.le_of_lt hlt) hdone).resolve_left fun hdone => ?_
  rw [← hfront _ hroom, ← Transition.read_append,
    read_eq_done_iff (texted_of_spelledBy hv)] at hdone
  obtain ⟨w, hw, hle, -⟩ := hdone
  cases hv.unique hw
  exact absurd hle (Nat.not_le.2 hlt)

/-- A value is read from where its first tokens lead, which may be none or only its opening one. -/
theorem framed_readFrom {i : Inference} {v : Value} (front : List Token) {ts : List Token}
    {rest : TokenSource} {state : State} (hopened : state.opened ≤ 1)
    (hlevels : state.opened ≤ v.levels)
    (hfront : ∀ room, state.opened ≤ room → Transition.start.read room front = .onward state none)
    (hnone : ∀ room, state.opened ≤ room → Transition.start.noted room front = [])
    (hv : v.SpelledBy (front ++ ts)) (he : i.cursor.Emits ts rest) :
    Framed i v (v.levels - state.opened) ts rest
      (i.readFrom (limit - i.depth + state.opened) state) := by
  have hroom : state.opened ≤ limit - i.depth + state.opened := Nat.le_add_left _ _
  refine ⟨fun hfits => ?_, fun hnot => ?_⟩
  · have hle : v.levels ≤ limit - i.depth + state.opened := by omega
    rw [readFrom, run_of_spelledBy (hfront _ hroom) (hnone _ hroom) hv hle he]
    rfl
  · have hlt : limit - i.depth + state.opened < v.levels := by omega
    obtain ⟨earlier, t, back, state', key, rfl, hearlier, hfull⟩ :=
      exists_overfull_of_lt hfront hroom hlt hv
    obtain ⟨next, keys, hnext, hback, hrun⟩ :=
      run_of_refused he hearlier hfull.refused i.repeated
    have hfirst := exceedsFirst_of_overfull hopened rfl hearlier hfull
    refine ⟨earlier, t, back, next, rfl, hfirst, hnext, hback, ?_⟩
    rw [readFrom, hrun]
    exact ⟨rfl, rfl, rfl⟩

/-- Behind its opening token, a value has all levels but one still to be opened. -/
theorem framed_behind {i : Inference} {v : Value} {t : Token} {ts : List Token}
    {rest : TokenSource} {state : State} (hopened : state.opened = 1) (hlevels : 1 ≤ v.levels)
    (hstep : ∀ room, 0 < room → stepValue room [] t = .onward state none)
    (hv : v.SpelledBy (t :: ts)) (he : i.cursor.Emits ts rest) :
    Framed i v (v.levels - 1) ts rest (i.readFrom (limit - i.depth + 1) state) := by
  rw [← hopened]
  refine framed_readFrom [t] (Nat.le_of_eq hopened) (hopened ▸ hlevels) ?_ ?_ hv he
  · exact fun room hroom => hstep room (by omega)
  · intro room hroom
    rw [Transition.noted_cons, Transition.noted_nil, List.append_nil]
    exact congrArg Transition.note (hstep room (by omega))

/-- In every state, an inference that has the tokens of a value in front of it reads exactly this
value, also where the opening token of an object or an array is taken already and does not count. -/
theorem frames (i : Inference) {ts : List Token} {rest : TokenSource}
    (he : i.cursor.Emits ts rest) :
    (∀ v : Value, v.SpelledBy ts → Framed i v v.levels ts rest i.value) ∧
    (∀ members t, (Value.object members).SpelledBy (t :: ts) →
      Framed i (.object members) ((Value.object members).levels - 1) ts rest i.object) ∧
    (∀ elements t, (Value.array elements).SpelledBy (t :: ts) →
      Framed i (.array elements) ((Value.array elements).levels - 1) ts rest i.array) := by
  have hopening : ∀ {v : Value} {t : Token}, v.SpelledBy (t :: ts) → t.lexeme = v.opening := by
    intro v t hv
    obtain ⟨tail, htail⟩ := v.lexemes_eq_cons
    exact (List.cons.inj (hv.trans htail)).1
  refine ⟨fun v hv => ?_, fun members t hv => ?_, fun elements t hv => ?_⟩
  · exact framed_readFrom [] (Nat.zero_le _) (Nat.zero_le _) (fun _ _ => rfl) (fun _ _ => rfl) hv he
  · refine framed_behind rfl ?_ (fun _ hroom => stepValue_object (hopening hv) hroom) hv he
    exact Nat.le_add_right 1 _
  · refine framed_behind rfl ?_ (fun _ hroom => stepValue_array (hopening hv) hroom) hv he
    exact Nat.le_add_right 1 _

/-- With 127 levels open there is room for an array and with 128 there is none, also not for one in
an object whose brace is taken. The rest of an array does not need any room. -/
theorem frames_at_limit :
    let bracket : Token := ⟨.arrayStart, none, 7⟩
    let close : Token := ⟨.arrayEnd, none, 8⟩
    let member : List Token := [⟨.string, some "a", 1⟩, ⟨.colon, none, 4⟩, bracket, close,
      ⟨.objectEnd, none, 9⟩]
    let behind : List Token := [⟨.comma, none, 10⟩]
    let front : Inference := { cursor := ⟨.tokens (close :: behind), .token bracket⟩ }
    let inside : Inference := { cursor := ⟨.tokens (member ++ behind), .unseen⟩ }
    { front with depth := 127 }.value =
        (.ok (.list .bottom), { cursor := ⟨.tokens behind, .unseen⟩, depth := 127 }) ∧
      { front with depth := 128 }.value.1 = .error (.input ⟨.nestingTooDeep 128, some 7⟩) ∧
      { inside with depth := 128 }.object.1 = .error (.input ⟨.nestingTooDeep 128, some 7⟩) ∧
      { cursor := ⟨.tokens (close :: behind), .unseen⟩, depth := 128 : Inference }.array =
        (.ok (.list .bottom), { cursor := ⟨.tokens behind, .unseen⟩, depth := 128 }) := by
  intro bracket close member behind front inside
  have hempty : (Value.array []).SpelledBy [bracket, close] := rfl
  have hobject : (Value.object [("a", .array [])]).SpelledBy (⟨.objectStart, none, 0⟩ :: member) :=
    rfl
  have hfront : ∀ depth, { front with depth }.cursor.Emits [bracket, close] (.tokens behind) :=
    fun _ => ⟨[close], rfl, .tokens behind, rfl, rfl⟩
  have hinside : { inside with depth := 128 }.cursor.Emits member (.tokens behind) := by
    simp [Cursor.Emits, TokenSource.Emits, TokenSource.next, inside, member]
  have hrest : Cursor.Emits ⟨.tokens (close :: behind), .unseen⟩ [close] (.tokens behind) :=
    ⟨.tokens behind, rfl, rfl⟩
  -- none but the one bracket is an opening token, so it is the one that is refused
  have hbracket : ∀ {t : Token}, t ∈ member → t.kind.opens = true → t = bracket := by
    simp [member, bracket, close, TokenKind.opens]
  have hsub : ∀ t ∈ [bracket, close], t ∈ member := by simp [member]
  refine ⟨((frames _ (hfront 127)).1 _ hempty).fits (by decide), ?_, ?_,
    ((frames _ hrest).2.2 [] bracket hempty).fits (by decide)⟩
  · obtain ⟨earlier, t, back, next, hsplit, hfirst, -, -, hresult, -⟩ :=
      ((frames _ (hfront 128)).1 _ hempty).exceeds (by decide)
    have ht : t ∈ [bracket, close] := hsplit ▸ List.mem_append_right _ List.mem_cons_self
    cases hbracket (hsub t ht) hfirst.opens
    exact hresult
  · obtain ⟨earlier, t, back, next, hsplit, hfirst, -, -, hresult, -⟩ :=
      ((frames _ hinside).2.1 _ _ hobject).exceeds (by decide)
    have ht : t ∈ member := hsplit ▸ List.mem_append_right _ List.mem_cons_self
    cases hbracket ht hfirst.opens
    exact hresult

end JsonShape.Inference
