import JsonShape.Proofs.Lexed
import JsonShape.Proofs.Token.Permanent

/-!
# Nothing is lost ahead

A cursor takes a token from its source to look at it, and others may be taken from the source past
that one. Whatever is done in between, every token that the source has given was given on once, by
an advance or past the cursor, or is the one that is held ahead (`Cursor.Passes`): the advances give
theirs in the order of the source, and so does the source itself. A token seen ahead is the one that
the next advance takes, and an end seen ahead stays there (`Cursor.moves_conserve`).
-/

namespace JsonShape

/-! ## Interleaved lists -/

/-- The third list consists of the elements of the first two, those of each in their order. -/
inductive Interleaves {α : Type} : List α → List α → List α → Prop where
  | nil : Interleaves [] [] []
  | left {x : α} {xs ys zs : List α} (h : Interleaves xs ys zs) :
      Interleaves (x :: xs) ys (x :: zs)
  | right {y : α} {xs ys zs : List α} (h : Interleaves xs ys zs) :
      Interleaves xs (y :: ys) (y :: zs)

namespace Interleaves

variable {α : Type}

/-- All elements may come from the first list. -/
theorem all_left (xs : List α) : Interleaves xs [] xs := by
  induction xs with
  | nil => exact .nil
  | cons x xs ih => exact .left ih

/-- All elements may come from the second list. -/
theorem all_right (ys : List α) : Interleaves [] ys ys := by
  induction ys with
  | nil => exact .nil
  | cons y ys ih => exact .right ih

/-- Lists may be interleaved one part after the other. -/
theorem append {xs ys zs xs' ys' zs' : List α} (h : Interleaves xs ys zs)
    (h' : Interleaves xs' ys' zs') : Interleaves (xs ++ xs') (ys ++ ys') (zs ++ zs') := by
  induction h with
  | nil => exact h'
  | left _ ih => exact .left ih
  | right _ ih => exact .right ih

end Interleaves

/-! ## The tokens still to come -/

/-- The token that an answer gives, if it gives one. -/
def Pull.tokens : Pull → List Token
  | token t => [t]
  | stop | fault _ => []

namespace TokenSource

/-- Behind its last token a source gives the same answer again and again. -/
theorem next_next {source : TokenSource} (h : ∀ t, source.next.1 ≠ .token t) :
    source.next.2.next = source.next := by
  cases source with
  | tokens ts =>
    cases ts with
    | nil => rfl
    | cons t ts => exact absurd rfl (h t)
  | lexer l =>
    have hover : l.next.2.Over l.next.1 := Lexer.over_next h
    simp only [next, hover.next]

/-- A source that gives no token next gives none at all. -/
theorem drain_of_ne_token {source : TokenSource} (h : ∀ t, source.next.1 ≠ .token t) :
    source.drain.1 = [] := by
  have he : source.Emits [] source := rfl
  rw [drain_eq_of_emits he h]

/-- The tokens of a source are the one that it gives next, and those that come then. -/
theorem drain_next (source : TokenSource) :
    source.drain.1 = source.next.1.tokens ++ source.next.2.drain.1 := by
  by_cases h : ∃ t, source.next.1 = .token t
  · obtain ⟨t, ht⟩ := h
    rw [drain]
    split
    · next hn => rw [hn]; rfl
    · next hn => rw [hn] at ht; cases ht
    · next hn => rw [hn] at ht; cases ht
  · have hnone := not_exists.1 h
    have hagain : ∀ t, source.next.2.next.1 ≠ .token t := by rwa [next_next hnone]
    rw [drain_of_ne_token hnone, drain_of_ne_token hagain]
    cases hp : source.next.1 with
    | token t => exact absurd hp (hnone t)
    | stop | fault => rfl

end TokenSource

/-! ## Moves of a cursor -/

namespace Cursor

/-- The token that is held ahead, if there is one. -/
def held (c : Cursor) : List Token :=
  match c.ahead with
  | .token t => [t]
  | .unseen | .stop => []

/-- What some moves give, each with its answer, and the cursor behind them. -/
def performAll (c : Cursor) :
    List Move → List (Move × Except InputError (Option Token)) × Cursor
  | [] => ([], c)
  | move :: moves =>
    let (answer, c) := move.perform c
    let (answers, c) := performAll c moves
    ((move, answer) :: answers, c)

/-- The token that a move gave, if it gave one. -/
def given : Except InputError (Option Token) → List Token
  | .ok (some t) => [t]
  | .ok none | .error _ => []

/-- The tokens that one kind of move gave, in order. -/
def tokensOf (move : Move) (log : List (Move × Except InputError (Option Token))) : List Token :=
  log.flatMap fun p => if p.1 = move then given p.2 else []

/-- A token taken past the cursor is the next one of the source. -/
theorem perform_bypass (c : Cursor) :
    given (Move.bypass.perform c).1 = c.source.next.1.tokens ∧
      (Move.bypass.perform c).2 = { c with source := c.source.next.2 } := by
  simp only [Move.perform, bypass]
  cases c.source.next.1 <;> exact ⟨rfl, rfl⟩

/-! ## What is seen ahead -/

/-- A look ahead leaves the token that it shows there, and the end, but no fault. -/
theorem ahead_peek (c : Cursor) :
    c.peek.2.ahead =
      match c.peek.1 with
      | .ok (some t) => .token t
      | .ok none => .stop
      | .error _ => .unseen := by
  obtain ⟨source, ahead⟩ := c
  cases ahead with
  | token | stop => rfl
  | unseen =>
    simp only [peek]
    obtain ⟨answer, next⟩ := source.next
    cases answer <;> rfl

/-- A move leaves what is seen ahead where it is, unless it is an advance that takes a token. -/
theorem ahead_perform {c : Cursor} {move : Move} (h : c.ahead ≠ .unseen)
    (hmove : move = .advance → c.ahead = .stop) : (move.perform c).2.ahead = c.ahead := by
  cases move with
  | bypass => rw [(perform_bypass c).2]
  | peek =>
    obtain ⟨source, _ | _ | _⟩ := c
    · exact absurd rfl h
    · rfl
    · rfl
  | advance =>
    obtain ⟨source, ahead⟩ := c
    cases hmove rfl
    rfl

/-- So do all moves together. -/
theorem ahead_performAll {c : Cursor} {moves : List Move} (h : c.ahead ≠ .unseen)
    (hmoves : .advance ∈ moves → c.ahead = .stop) : (c.performAll moves).2.ahead = c.ahead := by
  induction moves generalizing c with
  | nil => rfl
  | cons move moves ih =>
    have hfirst : (move.perform c).2.ahead = c.ahead :=
      ahead_perform h fun e => hmoves (e ▸ List.mem_cons_self)
    have hrest : ((move.perform c).2.performAll moves).2.ahead = (move.perform c).2.ahead :=
      ih (hfirst ▸ h) fun hm => hfirst.trans (hmoves (List.mem_cons_of_mem _ hm))
    exact hrest.trans hfirst

/-- A token seen ahead is the one that an advance takes. -/
theorem advance_of_token {c : Cursor} {t : Token} (h : c.ahead = .token t) :
    c.advance.1 = .ok t := by
  obtain ⟨source, ahead⟩ := c
  cases h
  rfl

/-- Behind an end seen ahead there is nothing to look at, and nothing to take. The advance fails
where a lexer is; a list of tokens has no such place. -/
theorem answers_of_stop {c : Cursor} (h : c.ahead = .stop) :
    c.peek.1 = .ok none ∧
      (∀ ts, c.source = .tokens ts → c.advance.1 = .error ⟨.unexpectedEnd, none⟩) ∧
      ∀ l, c.source = .lexer l → c.advance.1 = .error ⟨.unexpectedEnd, some l.offset⟩ := by
  obtain ⟨source, ahead⟩ := c
  cases h
  refine ⟨rfl, ?_, ?_⟩
  · rintro ts rfl
    rfl
  · rintro l rfl
    rfl

/-- Between a look that shows a token and the advance that takes it, there may be any moves that
take none from the cursor. -/
theorem advance_performAll_peek {c : Cursor} {t : Token} {between : List Move}
    (hpeek : c.peek.1 = .ok (some t)) (hbetween : .advance ∉ between) :
    (c.peek.2.performAll between).2.advance.1 = .ok t := by
  have hahead : c.peek.2.ahead = .token t := by rw [ahead_peek, hpeek]
  have hkept : (c.peek.2.performAll between).2.ahead = c.peek.2.ahead :=
    ahead_performAll (by simp [hahead]) fun h => absurd h hbetween
  exact advance_of_token (hkept.trans hahead)

/-- Once a look has shown the end, no move leads away from it. -/
theorem answers_performAll_peek {c : Cursor} (hpeek : c.peek.1 = .ok none) (later : List Move) :
    let c' := (c.peek.2.performAll later).2
    c'.peek.1 = .ok none ∧
      (∀ ts, c'.source = .tokens ts → c'.advance.1 = .error ⟨.unexpectedEnd, none⟩) ∧
      ∀ l, c'.source = .lexer l → c'.advance.1 = .error ⟨.unexpectedEnd, some l.offset⟩ := by
  have hahead : c.peek.2.ahead = .stop := by rw [ahead_peek, hpeek]
  have hkept : (c.peek.2.performAll later).2.ahead = c.peek.2.ahead :=
    ahead_performAll (by simp [hahead]) fun _ => hahead
  exact answers_of_stop (hkept.trans hahead)

/-- A fault is not held ahead, and an advance in place of the look leads to the same one. -/
theorem ahead_of_peek_error {c : Cursor} {e : InputError} (hpeek : c.peek.1 = .error e) :
    c.peek.2.ahead = .unseen ∧ c.advance = (.error e, c.peek.2) := by
  refine ⟨by rw [ahead_peek, hpeek], ?_⟩
  rw [advance]
  generalize c.peek = r at hpeek
  obtain ⟨answer, c'⟩ := r
  cases hpeek
  rfl

/-! ## What is given on -/

/-- Between two cursors some tokens were given by advances, and others past the cursor. Those that
went through the cursor, the one held at first among them, came out of it in order, or one is still
held; those that the source gave are these and the others, and all that the source had to give are
they and those it has now. -/
def Passes (c c' : Cursor) (advanced bypassed : List Token) : Prop :=
  ∃ onward taken, advanced ++ c'.held = c.held ++ onward ∧ Interleaves onward bypassed taken ∧
    c.source.drain.1 = taken ++ c'.source.drain.1

/-- What happens between two cursors, and then between the second and a third. -/
theorem Passes.trans {c c' c'' : Cursor} {advanced bypassed advanced' bypassed' : List Token}
    (h : c.Passes c' advanced bypassed) (h' : c'.Passes c'' advanced' bypassed') :
    c.Passes c'' (advanced ++ advanced') (bypassed ++ bypassed') := by
  obtain ⟨onward, taken, hheld, hmerge, hsource⟩ := h
  obtain ⟨onward', taken', hheld', hmerge', hsource'⟩ := h'
  refine ⟨onward ++ onward', taken ++ taken', ?_, hmerge.append hmerge', ?_⟩
  · rw [List.append_assoc, hheld', ← List.append_assoc, hheld, List.append_assoc]
  · rw [hsource, hsource', List.append_assoc]

/-- A look ahead gives no token on: what it takes from the source is held. -/
theorem passes_peek (c : Cursor) : c.Passes c.peek.2 [] [] := by
  obtain ⟨source, ahead⟩ := c
  cases ahead with
  | token | stop => exact ⟨[], [], (List.append_nil _).symm, .nil, rfl⟩
  | unseen =>
    have hsource := source.drain_next
    simp only [peek]
    generalize source.next = r at hsource
    obtain ⟨answer, next⟩ := r
    refine ⟨answer.tokens, answer.tokens, ?_, .all_left _, ?_⟩
    · cases answer <;> rfl
    · cases answer <;> exact hsource

/-- An advance gives on what a look ahead would hold. -/
theorem held_advance (c : Cursor) :
    given (c.advance.1.map some) ++ c.advance.2.held = c.peek.2.held ∧
      c.advance.2.source = c.peek.2.source := by
  have hahead := c.ahead_peek
  rw [advance]
  generalize c.peek = r at hahead
  obtain ⟨_ | _ | t, c'⟩ := r
  · exact ⟨rfl, rfl⟩
  · exact ⟨rfl, rfl⟩
  · have ht : c'.ahead = .token t := hahead
    refine ⟨?_, rfl⟩
    show [t] = c'.held
    rw [held, ht]

/-- An advance gives the first token on that went through the cursor. -/
theorem passes_advance (c : Cursor) :
    c.Passes c.advance.2 (given (c.advance.1.map some)) [] := by
  obtain ⟨onward, taken, hheld, hmerge, hsource⟩ := c.passes_peek
  obtain ⟨hgiven, hsame⟩ := c.held_advance
  exact ⟨onward, taken, hgiven.trans hheld, hmerge, hsame ▸ hsource⟩

/-- A token taken from the source itself leaves the one ahead where it is. -/
theorem passes_bypass (c : Cursor) :
    c.Passes (Move.bypass.perform c).2 [] (given (Move.bypass.perform c).1) := by
  obtain ⟨hgiven, hc⟩ := c.perform_bypass
  rw [hgiven, hc]
  exact ⟨[], _, (List.append_nil _).symm, .all_right _, c.source.drain_next⟩

/-- A move gives on what its kind says. -/
theorem passes_perform (move : Move) (c : Cursor) :
    c.Passes (move.perform c).2 (tokensOf .advance [(move, (move.perform c).1)])
      (tokensOf .bypass [(move, (move.perform c).1)]) := by
  cases move with
  | peek => exact c.passes_peek
  | advance => simpa [tokensOf, Move.perform] using c.passes_advance
  | bypass => simpa [tokensOf] using c.passes_bypass

/-- So do all moves together. -/
theorem passes_performAll (c : Cursor) (moves : List Move) :
    c.Passes (c.performAll moves).2 (tokensOf .advance (c.performAll moves).1)
      (tokensOf .bypass (c.performAll moves).1) := by
  induction moves generalizing c with
  | nil => exact ⟨[], [], (List.append_nil _).symm, .nil, rfl⟩
  | cons move moves ih =>
    simpa [performAll, tokensOf] using (passes_perform move c).trans (ih _)

/-! ## Every order of moves -/

/-- Whatever is looked at, taken, and taken past a new cursor, in any order: the tokens that the
advances gave, the one held ahead behind them, and those given past the cursor are together the
tokens that the source gave, each once and each kind in order of the source, and what it has left
comes behind them. Of any cursor that looks ahead: if it sees a token, then the next advance takes
that one, whatever else is done in between; if it sees the end, then it sees it ever after, and all
advances fail, where the lexer is if there is one; a fault is not held, and an advance in place of
the look leads to the same one. -/
theorem moves_conserve (source : TokenSource) (moves : List Move) :
    let done := (Cursor.mk source .unseen).performAll moves
    (∃ taken,
      Interleaves (tokensOf .advance done.1 ++ done.2.held) (tokensOf .bypass done.1) taken ∧
      source.drain.1 = taken ++ done.2.source.drain.1) ∧
    ∀ c : Cursor,
      (∀ t between, c.peek.1 = .ok (some t) → .advance ∉ between →
        (c.peek.2.performAll between).2.advance.1 = .ok t) ∧
      (∀ later, c.peek.1 = .ok none →
        let c' := (c.peek.2.performAll later).2
        c'.peek.1 = .ok none ∧
          (∀ ts, c'.source = .tokens ts → c'.advance.1 = .error ⟨.unexpectedEnd, none⟩) ∧
          ∀ l, c'.source = .lexer l → c'.advance.1 = .error ⟨.unexpectedEnd, some l.offset⟩) ∧
      ∀ e, c.peek.1 = .error e → c.peek.2.ahead = .unseen ∧ c.advance = (.error e, c.peek.2) := by
  intro done
  obtain ⟨onward, taken, hheld, hmerge, hsource⟩ := passes_performAll ⟨source, .unseen⟩ moves
  have honward : tokensOf .advance done.1 ++ done.2.held = onward := hheld
  exact ⟨⟨taken, honward ▸ hmerge, hsource⟩, fun c =>
    ⟨fun _ _ => advance_performAll_peek, fun later hpeek => answers_performAll_peek hpeek later,
      fun _ => ahead_of_peek_error⟩⟩

/-- One token goes past the cursor while the one before it is held, and then the source is at fault.
Two others are at their end, a list and a lexer. -/
theorem moves_conserve_mixed :
    let lexer : TokenSource := .lexer (.ofSource (.ofBytes (some 2) [0x5b, 0x31, 0x2c, 0x3f]))
    let opening : Token := ⟨.arrayStart, none, 0⟩
    let one : Token := ⟨.number, some "1", 1⟩
    let comma : Token := ⟨.comma, none, 2⟩
    let e : InputError := ⟨.invalidJson (.unexpectedCharacter 0x3f), some 3⟩
    let done := (Cursor.mk lexer .unseen).performAll [.peek, .bypass, .advance, .peek]
    let faulty := (done.2.performAll [.advance]).2
    let ended : Cursor := ⟨.tokens [], .unseen⟩
    let later := (ended.peek.2.performAll [.bypass, .advance, .peek]).2
    let blank : Cursor := ⟨.lexer (.ofSource (.ofBytes none [0x20, 0x0a])), .unseen⟩
    let last := (blank.peek.2.performAll [.advance, .bypass]).2
    (∃ taken, Interleaves [opening, comma] [one] taken ∧
      lexer.drain.1 = taken ++ done.2.source.drain.1) ∧
    (done.2.peek.1 = .ok (some comma) ∧
      (done.2.peek.2.performAll [.bypass, .peek]).2.advance.1 = .ok comma) ∧
    (faulty.peek.1 = .error e ∧
      faulty.peek.2.ahead = .unseen ∧ faulty.advance = (.error e, faulty.peek.2)) ∧
    (ended.peek.1 = .ok none ∧ later.peek.1 = .ok none ∧
      later.advance.1 = .error ⟨.unexpectedEnd, none⟩) ∧
    blank.peek.1 = .ok none ∧ last.peek.1 = .ok none ∧
      last.advance.1 = .error ⟨.unexpectedEnd, some 2⟩ := by
  intro lexer opening one comma e done faulty ended later blank last
  obtain ⟨hgiven, hseen⟩ := moves_conserve lexer [.peek, .bypass, .advance, .peek]
  have hadvanced : tokensOf .advance done.1 ++ done.2.held = [opening, comma] := by decide +kernel
  have hbypassed : tokensOf .bypass done.1 = [one] := by decide +kernel
  have hahead : done.2.ahead = .token comma := by decide +kernel
  have hcomma : done.2.peek.1 = .ok (some comma) := by rw [peek, hahead]
  have hempty : faulty.ahead = .unseen := by decide +kernel
  have hnext : faulty.source.next = (.fault e, faulty.source.next.2) :=
    Prod.ext (by decide +kernel) rfl
  have hfault : faulty.peek.1 = .error e := by rw [peek, hempty, hnext]
  obtain ⟨hended, htokens, -⟩ := (hseen ended).2.1 [.bypass, .advance, .peek] rfl
  have hblank : blank.peek.1 = .ok none := rfl
  obtain ⟨hlast, -, hlexer⟩ := (hseen blank).2.1 [.advance, .bypass] hblank
  have hsource : ∃ l, last.source = .lexer l ∧ l.offset = 2 := ⟨_, rfl, by decide +kernel⟩
  obtain ⟨l, hl, hoffset⟩ := hsource
  refine ⟨?_, ⟨hcomma, (hseen _).1 _ [.bypass, .peek] hcomma (by decide)⟩,
    ⟨hfault, (hseen _).2.2 _ hfault⟩, ⟨rfl, hended, htokens [] rfl⟩, hblank, hlast, ?_⟩
  · rwa [hadvanced, hbypassed] at hgiven
  · rw [hlexer l hl, hoffset]
    rfl

end Cursor

end JsonShape
