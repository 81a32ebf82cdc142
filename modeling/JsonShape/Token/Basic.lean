import JsonShape.Token.Kind

/-!
# Tokens

A token says what stands at one place of a JSON text. Strings and numbers have a text, the decoded
characters of a string and the digits of a number as they were written; the other kinds have none.
Two tokens agree if they are of one kind and have one text, wherever they stand.
-/

namespace JsonShape

/-- A token and the place where it starts. -/
structure Token where
  /-- What the token is. -/
  kind : TokenKind
  /-- The characters of a string, or a number as it was written. -/
  text? : Option String := none
  /-- The number of bytes in front of the token. -/
  offset : Int := 0
  deriving DecidableEq, Repr

/-- Tokens are compared by kind and text, not by their places. -/
def Token.agrees (s t : Token) : Bool :=
  s.kind = t.kind && s.text? = t.text?

end JsonShape
