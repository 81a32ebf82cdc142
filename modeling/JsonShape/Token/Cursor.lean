import JsonShape.Token.Unread

/-!
# Looking ahead

Tokens come from a lexer or from a list that is at hand. A `Cursor` looks one token ahead:
`Cursor.peek` shows the next token and leaves it there, `Cursor.advance` takes it. The end of the
tokens can be seen ahead too, and stays there: no advance takes it away. A fault is never held; it
leaves the place ahead empty.
-/

namespace JsonShape

/-- Where tokens come from. -/
inductive TokenSource where
  /-- Tokens that are at hand. -/
  | tokens (ts : List Token)
  /-- Tokens that a lexer reads. -/
  | lexer (l : Lexer)
  deriving DecidableEq

namespace TokenSource

/-- The next token of a source. -/
def next : TokenSource → Pull × TokenSource
  | tokens [] => (.stop, tokens [])
  | tokens (t :: ts) => (.token t, tokens ts)
  | lexer l => (l.next.1, lexer l.next.2)

/-- How many bytes a lexer has taken. A list of tokens has no place in any bytes. -/
def offset? : TokenSource → Option Nat
  | tokens _ => none
  | lexer l => some l.offset

/-- A bound for the number of tokens that are still to come. -/
def unread : TokenSource → Nat
  | tokens ts => ts.length
  | lexer l => l.unread

theorem unread_lt_of_next {s s' : TokenSource} {t : Token} (h : s.next = (.token t, s')) :
    s'.unread < s.unread := by
  cases s with
  | tokens ts =>
    cases ts with
    | nil => cases h
    | cons u ts =>
      cases h
      simp [unread]
  | lexer l =>
    simp only [next, Prod.mk.injEq] at h
    obtain ⟨ht, rfl⟩ := h
    exact Lexer.unread_lt_of_next (Prod.ext ht rfl)

end TokenSource

/-- What a cursor sees ahead. -/
inductive Ahead where
  /-- It has not looked. -/
  | unseen
  | token (t : Token)
  /-- The end of the tokens. -/
  | stop
  deriving DecidableEq

/-- Tokens with a place ahead. -/
structure Cursor where
  /-- Where tokens come from. -/
  source : TokenSource
  /-- What was taken from there to be looked at. -/
  ahead : Ahead := .unseen
  deriving DecidableEq

namespace Cursor

/-- The next token, or none at the end, which stays ahead. -/
def peek (c : Cursor) : Except InputError (Option Token) × Cursor :=
  match c.ahead with
  | .token t => (.ok (some t), c)
  | .stop => (.ok none, c)
  | .unseen =>
    match c.source.next with
    | (.token t, source) => (.ok (some t), { source, ahead := .token t })
    | (.stop, source) => (.ok none, { source, ahead := .stop })
    | (.fault e, source) => (.error e, { source, ahead := .unseen })

/-- Takes the next token. At the end there is none to take. -/
def advance (c : Cursor) : Except InputError Token × Cursor :=
  match c.peek with
  | (.ok (some t), c) => (.ok t, { c with ahead := .unseen })
  | (.ok none, c) => (.error ⟨.unexpectedEnd, c.source.offset?.map Int.ofNat⟩, c)
  | (.error e, c) => (.error e, c)

/-- Takes a token from the source itself, past the one that is seen ahead. -/
def bypass (c : Cursor) : Pull × Cursor :=
  (c.source.next.1, { c with source := c.source.next.2 })

/-- What can be done with a cursor. -/
inductive Move where
  | peek
  | advance
  /-- Takes a token from the source itself. -/
  | bypass
  deriving DecidableEq, Repr

/-- What a move gives: a token, or none at the end. -/
def Move.perform (m : Move) (c : Cursor) : Except InputError (Option Token) × Cursor :=
  match m with
  | peek => c.peek
  | advance =>
    let (taken, c) := c.advance
    (taken.map some, c)
  | bypass =>
    match c.bypass with
    | (.token t, c) => (.ok (some t), c)
    | (.stop, c) => (.ok none, c)
    | (.fault e, c) => (.error e, c)

/-- A bound for the number of tokens that are still to be taken. -/
def unread (c : Cursor) : Nat :=
  c.source.unread + match c.ahead with
    | .token _ => 1
    | _ => 0

/-- An advance brings the cursor nearer to the end. -/
theorem unread_lt_of_advance {c c' : Cursor} {t : Token} (h : c.advance = (.ok t, c')) :
    c'.unread < c.unread := by
  obtain ⟨source, ahead⟩ := c
  cases ahead with
  | token u =>
    cases h
    simp [unread]
  | stop => cases h
  | unseen =>
    simp only [advance, peek] at h
    generalize hn : source.next = r at h
    obtain ⟨p, source'⟩ := r
    cases p with
    | token u =>
      cases h
      have := TokenSource.unread_lt_of_next hn
      simpa [unread] using this
    | stop => cases h
    | fault e => cases h

end Cursor

end JsonShape
