import JsonShape.Inference.Basic

/-!
# Inference as reading a list of tokens

An inference takes its tokens from a source one by one, when it needs them. `TokenSource.Emits` says
which tokens a source gives before it becomes another one, `TokenSource.Yields` which it gives
before it ends, and `Cursor.Emits` those of a cursor, which may have one of them ahead.
`Transition.read` is what a list of tokens does to a state, and `ofDocument_eq_conclude` ties the
two: the shape of a source, or what is wrong with it, follows from what all tokens that it gives do
together, and from what it gives instead of a further one. In particular it has a shape exactly if
it yields tokens that complete the shape (`ofDocument_eq_ok_iff`).
-/

namespace JsonShape

/-! ## The tokens of a source -/

namespace TokenSource

/-- Having given the tokens, the source has become another one. -/
def Emits : TokenSource → List Token → TokenSource → Prop
  | source, [], source' => source = source'
  | source, t :: ts, source' => ∃ next, source.next = (.token t, next) ∧ next.Emits ts source'

/-- The source gives the tokens and ends. -/
def Yields (source : TokenSource) (ts : List Token) : Prop :=
  ∃ source', source.Emits ts source' ∧ source'.next.1 = .stop

/-- A source that yields tokens gives the first and yields the rest. -/
theorem yields_cons {source : TokenSource} {t : Token} {ts : List Token} :
    source.Yields (t :: ts) ↔ ∃ next, source.next = (.token t, next) ∧ next.Yields ts := by
  constructor
  · rintro ⟨source', ⟨next, hn, he⟩, hs⟩
    exact ⟨next, hn, source', he, hs⟩
  · rintro ⟨next, hn, source', he, hs⟩
    exact ⟨source', ⟨next, hn, he⟩, hs⟩

/-- A source that yields nothing is at its end. -/
theorem yields_nil {source : TokenSource} : source.Yields [] ↔ source.next.1 = .stop := by
  constructor
  · rintro ⟨_, rfl, hs⟩
    exact hs
  · exact fun hs => ⟨source, rfl, hs⟩

/-- A list that is at hand gives its tokens and is empty then. -/
theorem emits_tokens (ts : List Token) : (tokens ts).Emits ts (tokens []) := by
  induction ts with
  | nil => rfl
  | cons t ts ih => exact ⟨tokens ts, rfl, ih⟩

/-- A source yields one list of tokens at most. -/
theorem Yields.unique {source : TokenSource} {ts us : List Token} (ht : source.Yields ts)
    (hu : source.Yields us) : ts = us := by
  induction ts generalizing source us with
  | nil =>
    cases us with
    | nil => rfl
    | cons u us =>
      obtain ⟨next, hn, -⟩ := yields_cons.1 hu
      rw [yields_nil, hn] at ht
      cases ht
  | cons t ts ih =>
    obtain ⟨next, hn, ht⟩ := yields_cons.1 ht
    cases us with
    | nil =>
      rw [yields_nil, hn] at hu
      cases hu
    | cons u us =>
      obtain ⟨next', hn', hu⟩ := yields_cons.1 hu
      cases hn.symm.trans hn'
      rw [ih ht hu]

/-- Every source gives some tokens and then no further one. -/
theorem exists_emits (source : TokenSource) :
    ∃ ts source', source.Emits ts source' ∧ ∀ t, source'.next.1 ≠ .token t := by
  induction hn : source.unread using Nat.strongRecOn generalizing source with
  | ind n ih =>
    by_cases h : ∃ t next, source.next = (.token t, next)
    · obtain ⟨t, next, ht⟩ := h
      obtain ⟨ts, source', he, hl⟩ := ih _ (hn ▸ unread_lt_of_next ht) next rfl
      exact ⟨t :: ts, source', ⟨next, ht, he⟩, hl⟩
    · exact ⟨[], source, rfl, fun t ht => h ⟨t, _, Prod.ext ht rfl⟩⟩

end TokenSource

namespace Cursor

/-- An advance past an unseen place takes the next token of the source. -/
theorem advance_unseen (source : TokenSource) :
    advance ⟨source, .unseen⟩ =
      match source.next with
      | (.token t, next) => (.ok t, ⟨next, .unseen⟩)
      | (.stop, next) => (.error ⟨.unexpectedEnd, next.offset?.map Int.ofNat⟩, ⟨next, .stop⟩)
      | (.fault e, next) => (.error e, ⟨next, .unseen⟩) := by
  simp only [advance, peek]
  obtain ⟨p, next⟩ := source.next
  cases p <;> rfl

/-- Having given the tokens, the one seen ahead first, the cursor sees nothing ahead, and its source
has become another one. An end that is seen ahead stays there, so such a cursor gives nothing. -/
def Emits (c : Cursor) (ts : List Token) (source' : TokenSource) : Prop :=
  match c.ahead with
  | .unseen => c.source.Emits ts source'
  | .token t => ∃ us, ts = t :: us ∧ c.source.Emits us source'
  | .stop => False

/-- The first token that a cursor gives is the one that an advance takes. -/
theorem emits_cons {c : Cursor} {t : Token} {ts : List Token} {source' : TokenSource} :
    c.Emits (t :: ts) source' ↔
      ∃ next, c.advance = (.ok t, ⟨next, .unseen⟩) ∧ Emits ⟨next, .unseen⟩ ts source' := by
  obtain ⟨source, ahead⟩ := c
  cases ahead with
  | token u =>
    constructor
    · rintro ⟨us, hus, he⟩
      cases hus
      exact ⟨source, rfl, he⟩
    · rintro ⟨next, ha, he⟩
      cases ha
      exact ⟨ts, rfl, he⟩
  | stop =>
    refine ⟨False.elim, ?_⟩
    rintro ⟨next, ha, -⟩
    cases ha
  | unseen =>
    rw [advance_unseen]
    refine exists_congr fun next => and_congr_left fun _ => ?_
    obtain ⟨p, next'⟩ := source.next
    cases p <;> simp

end Cursor

/-! ## The effect of tokens -/

namespace Inference

/-- One more token: behind a complete shape, it is one too many. -/
def Transition.next (room : Nat) (tr : Transition) (t : Token) : Transition :=
  match tr with
  | .onward state _ => state.step room t
  | .done _ => refuse t (.trailing t.kind)
  | .refused failure => .refused failure

/-- What some tokens do, one after the other. -/
def Transition.read (room : Nat) (tr : Transition) (ts : List Token) : Transition :=
  ts.foldl (Transition.next room) tr

/-- Nothing of a value is read yet. -/
def Transition.start : Transition :=
  .onward ⟨[], .value⟩ none

namespace Transition

@[simp] theorem read_nil (room : Nat) (tr : Transition) : tr.read room [] = tr := rfl

@[simp] theorem read_cons (room : Nat) (tr : Transition) (t : Token) (ts : List Token) :
    tr.read room (t :: ts) = (tr.next room t).read room ts := rfl

/-- Tokens are read one list after the other. -/
theorem read_append (room : Nat) (tr : Transition) (ts us : List Token) :
    tr.read room (ts ++ us) = (tr.read room ts).read room us :=
  List.foldl_append

/-- What is refused stays refused. -/
theorem read_refused (room : Nat) (failure : Failure) (ts : List Token) :
    (refused failure).read room ts = refused failure := by
  induction ts with
  | nil => rfl
  | cons t ts ih => exact ih

/-- What is refused is never completed. -/
theorem read_refused_ne_done (room : Nat) (failure : Failure) (ts : List Token) (s : Shape) :
    (refused failure).read room ts ≠ done s := by
  rw [read_refused]
  exact nofun

/-- A complete shape bears no more tokens. -/
theorem read_done {room : Nat} {s s' : Shape} {ts : List Token}
    (h : (done s).read room ts = done s') : ts = [] ∧ s = s' := by
  cases ts with
  | nil => cases h; exact ⟨rfl, rfl⟩
  | cons t ts =>
    rw [read_cons, next, refuse, read_refused] at h
    cases h

end Transition

/-! ## The inference -/

/-- What all tokens of a source come to, together with what the source gives behind them and the
offset that it has then. -/
def Transition.conclude (tr : Transition) (last : Pull) (offset? : Option Nat) :
    Except Failure Shape :=
  match tr, last with
  | .refused failure, _ => .error failure
  | _, .fault e => .error (.input e)
  | .done shape, _ => .ok shape
  | .onward _ _, _ => .error (.input ⟨.unexpectedEnd, offset?.map Int.ofNat⟩)

/-- A value is the whole text if nothing is seen ahead behind it. -/
def closeDocument : Except Failure Shape × Cursor × List String → Except Failure Shape
  | (.error failure, _) => .error failure
  | (.ok shape, cursor, _) =>
    match cursor.peek.1 with
    | .error e => .error (.input e)
    | .ok none => .ok shape
    | .ok (some t) => .error (.input ⟨.invalidJson (.trailing t.kind), some t.offset⟩)

/-- The shape of a source is that of its first value, if the value is the whole text. -/
theorem ofDocument_eq_closeDocument (source : TokenSource) :
    (ofDocument source).1 = closeDocument (run limit ⟨[], .value⟩ ⟨source, .unseen⟩ []) := by
  have hvalue : (ofSource source).value = (ofSource source).readFrom limit ⟨[], .value⟩ := rfl
  have hcursor : (ofSource source).cursor = ⟨source, .unseen⟩ := rfl
  have hrepeated : (ofSource source).repeated = [] := rfl
  rw [ofDocument, hvalue, readFrom, hcursor, hrepeated]
  obtain ⟨result, cursor, repeated⟩ := run limit ⟨[], .value⟩ ⟨source, .unseen⟩ []
  cases result with
  | error failure => rfl
  | ok shape =>
    simp only [peek, closeDocument]
    obtain ⟨_ | _ | t, cursor'⟩ := cursor.peek <;> rfl

/-- Behind a complete shape, the next token of the source is one too many. -/
theorem closeDocument_unseen (shape : Shape) (source : TokenSource) (repeated : List String) :
    closeDocument (.ok shape, ⟨source, .unseen⟩, repeated) =
      match source.next.1 with
      | .token t => .error (.input ⟨.invalidJson (.trailing t.kind), some t.offset⟩)
      | .stop => .ok shape
      | .fault e => .error (.input e) := by
  simp only [closeDocument, Cursor.peek]
  obtain ⟨p, next⟩ := source.next
  cases p <;> rfl

/-- A run comes to what all tokens of the source do to the state, also if it does not take all of
them: those behind a complete shape and behind a refused token change nothing. -/
theorem closeDocument_run {room : Nat} {state : State} {source source' : TokenSource}
    {ts : List Token} (he : source.Emits ts source') (hl : ∀ t, source'.next.1 ≠ .token t)
    (repeated : List String) (k : Option String) :
    closeDocument (run room state ⟨source, .unseen⟩ repeated) =
      ((Transition.onward state k).read room ts).conclude source'.next.1
        source'.next.2.offset? := by
  induction ts generalizing source state k repeated with
  | nil =>
    cases he
    rw [run, Cursor.advance_unseen]
    generalize source'.next = answer at hl
    obtain ⟨last, next⟩ := answer
    cases last with
    | token t => exact absurd rfl (hl t)
    | stop | fault => rfl
  | cons t ts ih =>
    obtain ⟨next, hn, he⟩ := he
    rw [run, Cursor.advance_unseen, hn, Transition.read_cons, Transition.next]
    cases hs : state.step room t with
    | onward state' key =>
      simp only [hs]
      exact ih he _ _
    | refused failure =>
      simp only [hs]
      rw [Transition.read_refused]
      rfl
    | done shape =>
      simp only [hs]
      rw [closeDocument_unseen]
      cases ts with
      | nil =>
        cases he
        generalize source'.next = answer at hl
        obtain ⟨last, next⟩ := answer
        cases last with
        | token u => exact absurd rfl (hl u)
        | stop | fault => rfl
      | cons u ts =>
        obtain ⟨next', hn', -⟩ := he
        rw [hn', Transition.read_cons, Transition.next, refuse, Transition.read_refused]
        rfl

/-- A list of tokens that completes a shape comes to that shape. -/
theorem run_tokens {room : Nat} {state : State} {ts : List Token} {k : Option String} {s : Shape}
    (h : (Transition.onward state k).read room ts = .done s) (repeated : List String) :
    (run room state ⟨.tokens ts, .unseen⟩ repeated).1 = .ok s := by
  have hclose : closeDocument (run room state ⟨.tokens ts, .unseen⟩ repeated) =
      ((Transition.onward state k).read room ts).conclude .stop none :=
    closeDocument_run (TokenSource.emits_tokens ts) nofun repeated k
  rw [h] at hclose
  generalize run room state ⟨.tokens ts, .unseen⟩ repeated = r at hclose
  obtain ⟨result, cursor, keys⟩ := r
  cases result with
  | error failure => cases hclose
  | ok s' =>
    simp only [closeDocument, Transition.conclude] at hclose
    split at hclose <;> cases hclose
    rfl

/-- What a source has for a shape follows from what all its tokens do, and from what it gives behind
them. -/
theorem ofDocument_eq_conclude {source source' : TokenSource} {ts : List Token}
    (he : source.Emits ts source') (hl : ∀ t, source'.next.1 ≠ .token t) :
    (ofDocument source).1 =
      (Transition.start.read limit ts).conclude source'.next.1 source'.next.2.offset? := by
  rw [ofDocument_eq_closeDocument]
  exact closeDocument_run he hl [] none

/-- Tokens that are at hand have no place in any bytes, and end behind the last of them. -/
theorem ofDocument_tokens (ts : List Token) :
    (ofDocument (.tokens ts)).1 = (Transition.start.read limit ts).conclude .stop none :=
  ofDocument_eq_conclude (TokenSource.emits_tokens ts) nofun

/-- Tokens come to a shape if they complete it and nothing comes behind them. -/
theorem Transition.conclude_eq_ok {tr : Transition} {last : Pull} {offset? : Option Nat} {s : Shape}
    (hl : ∀ t, last ≠ .token t) :
    tr.conclude last offset? = .ok s ↔ tr = .done s ∧ last = .stop := by
  cases last with
  | token t => exact absurd rfl (hl t)
  | stop | fault => cases tr <;> simp [conclude]

/-- Without a shape, a token is refused, or a fault comes behind the tokens, or the end comes too
early. -/
theorem Transition.conclude_error_cases {tr : Transition} {last : Pull} {offset? : Option Nat}
    {failure : Failure} (h : tr.conclude last offset? = .error failure) :
    tr = .refused failure ∨ (∃ e, last = .fault e ∧ failure = .input e) ∨
      failure = .input ⟨.unexpectedEnd, offset?.map Int.ofNat⟩ := by
  cases tr with
  | refused =>
    cases h
    exact .inl rfl
  | onward =>
    cases last with
    | fault e =>
      cases h
      exact .inr (.inl ⟨e, rfl, rfl⟩)
    | token | stop =>
      cases h
      exact .inr (.inr rfl)
  | done =>
    cases last with
    | fault e =>
      cases h
      exact .inr (.inl ⟨e, rfl, rfl⟩)
    | token | stop => cases h

/-- A fault stands where it does, whatever the offset. -/
theorem Transition.conclude_fault (tr : Transition) (e : InputError)
    (offset? offset?' : Option Nat) :
    tr.conclude (.fault e) offset? = tr.conclude (.fault e) offset?' := by
  cases tr <;> rfl

/-- A source has a shape exactly if the tokens that it yields complete the shape. -/
theorem ofDocument_eq_ok_iff {source : TokenSource} {s : Shape} :
    (ofDocument source).1 = .ok s ↔
      ∃ ts, source.Yields ts ∧ Transition.start.read limit ts = .done s := by
  constructor
  · intro h
    obtain ⟨ts, source', he, hl⟩ := source.exists_emits
    rw [ofDocument_eq_conclude he hl, Transition.conclude_eq_ok hl] at h
    exact ⟨ts, ⟨source', he, h.2⟩, h.1⟩
  · rintro ⟨ts, ⟨source', he, hs⟩, hr⟩
    have hl : ∀ t, source'.next.1 ≠ .token t := by
      rw [hs]
      exact nofun
    rw [ofDocument_eq_conclude he hl, hr, hs]
    rfl

end Inference

end JsonShape
