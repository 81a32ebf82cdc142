import JsonShape.Source
import JsonShape.Token.Scan

/-!
# The lexer

A `Lexer` yields the tokens of a source, one at a time, and reads from the source only when it has
no bytes left. Its first fault is permanent, and so is the end of its input: `Lexer.next` gives the
same answer from then on and reads nothing any more. `Lexer.unread` counts the bytes that are still
to come, and every token takes at least one of them.
-/

namespace JsonShape

/-- What there is when a token is asked for. -/
inductive Pull where
  | token (t : Token)
  /-- The input is over. -/
  | stop
  | fault (e : InputError)
  deriving DecidableEq

/-- A reader of tokens. -/
structure Lexer where
  /-- What reading further will give. -/
  source : Source
  /-- Bytes that are read and not taken yet. -/
  buffer : List UInt8 := []
  /-- The number of bytes taken so far. -/
  offset : Nat := 0
  /-- The end of the input is reached. -/
  ended : Bool := false
  /-- The first fault, which is permanent. -/
  fault : Option InputError := none
  deriving DecidableEq

namespace Lexer

/-- A lexer at the start of a source. -/
def ofSource (source : Source) : Lexer :=
  { source }

/-- The number of bytes that may still be taken. -/
def unread (l : Lexer) : Nat :=
  l.buffer.length + l.source.size

/-- The answer when the input ends in the middle of a scan. -/
def close (scan : Scan) (offset : Nat) (source : Source) : Pull × Lexer :=
  match scan.finish offset with
  | none => (.stop, { source, offset, ended := true })
  | some (.ok t) => (.token t, { source, offset, ended := true })
  | some (.error e) => (.fault e, { source, offset, ended := true, fault := some e })

/-- Goes on with a scan until there is a token, a fault or the end of the input, and reads on
whenever the bytes at hand are used up. -/
def scanOn (scan : Scan) (offset : Nat) (buffer : List UInt8) (source : Source) : Pull × Lexer :=
  match scan.run offset buffer with
  | .token t offset rest => (.token t, { source, buffer := rest, offset })
  | .fault e offset rest => (.fault e, { source, buffer := rest, offset, fault := some e })
  | .more scan offset =>
    match source with
    | [] => close scan offset []
    | .bytes [] :: source => close scan offset source
    | .bytes (b :: chunk) :: source => scanOn scan offset (b :: chunk) source
    | .failure reasons :: source =>
      let e : InputError := ⟨.unavailable (.readFailed (Source.wording reasons)), none⟩
      (.fault e, { source, offset, fault := some e })

/-- The next token. -/
def next (l : Lexer) : Pull × Lexer :=
  match l.fault with
  | some e => (.fault e, l)
  | none => if l.ended then (.stop, l) else scanOn .blank l.offset l.buffer l.source

end Lexer

end JsonShape
