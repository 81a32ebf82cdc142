import JsonShape.Inference.State
import JsonShape.Token.Cursor

/-!
# Inference

An `Inference` reads values from a cursor and gives their shapes. Arrays and objects may nest up to
`Inference.limit` levels, counted from the inference's own depth; a level that is refused counts
from then on. `Inference.ofDocument` is the shape of a whole text: one value, and nothing behind it.
-/

namespace JsonShape

/-- A reader of shapes. -/
structure Inference where
  /-- The tokens to read. -/
  cursor : Cursor
  /-- The number of levels that count as open. -/
  depth : Nat := 0
  /-- The keys that were found to stand in their object again, the latest first. -/
  repeated : List String := []
  deriving DecidableEq

namespace Inference

/-- Nothing of the source is read yet. -/
def ofSource (source : TokenSource) : Inference :=
  { cursor := { source } }

/-- Takes tokens until the shape is complete or something is wrong. -/
def run (room : Nat) (state : State) (cursor : Cursor) (repeated : List String) :
    Except Failure Shape × Cursor × List String :=
  match _h : cursor.advance with
  | (.error e, cursor) => (.error (.input e), cursor, repeated)
  | (.ok t, cursor) =>
    match state.step room t with
    | .done shape => (.ok shape, cursor, repeated)
    | .refused failure => (.error failure, cursor, repeated)
    | .onward state key => run room state cursor (key.toList ++ repeated)
termination_by cursor.unread
decreasing_by exact Cursor.unread_lt_of_advance _h

/-- A level was refused because there were too many. -/
def isTooDeep {α : Type} : Except Failure α → Bool
  | .error (.input ⟨.nestingTooDeep _, _⟩) => true
  | _ => false

/-- Reads on from a state. A level that is refused is counted and never given back; all others that
were opened are closed again, whatever happened inside them. -/
def readFrom (room : Nat) (state : State) (i : Inference) : Except Failure Shape × Inference :=
  let (result, cursor, repeated) := run room state i.cursor i.repeated
  (result, { cursor, depth := if isTooDeep result then i.depth + 1 else i.depth, repeated })

/-- The shape of the next value. -/
def value (i : Inference) : Except Failure Shape × Inference :=
  i.readFrom (limit - i.depth) ⟨[], .value⟩

/-- The shape of an object whose opening brace is taken already, and not counted. -/
def object (i : Inference) : Except Failure Shape × Inference :=
  i.readFrom (limit - i.depth + 1) ⟨[], .firstMember⟩

/-- The shape of an array whose opening bracket is taken already, and not counted. -/
def array (i : Inference) : Except Failure Shape × Inference :=
  i.readFrom (limit - i.depth + 1) ⟨[], .firstElement⟩

/-- Looks at the next token. -/
def peek (i : Inference) : Except Failure (Option Token) × Inference :=
  let (seen, cursor) := i.cursor.peek
  (seen.mapError .input, { i with cursor })

/-- Takes the next token, whatever it is. -/
def skip (i : Inference) : Except Failure Token × Inference :=
  let (taken, cursor) := i.cursor.advance
  (taken.mapError .input, { i with cursor })

/-- Takes the next token if it is of the kind, and says whether it is. -/
def accept (kind : TokenKind) (i : Inference) : Except Failure Bool × Inference :=
  match i.peek with
  | (.error e, i) => (.error e, i)
  | (.ok none, i) => (.ok false, i)
  | (.ok (some t), i) =>
    if t.kind = kind then
      let (taken, i) := i.skip
      (taken.map fun _ => true, i)
    else (.ok false, i)

/-- Takes the next token, which must be of the kind. -/
def expect (kind : TokenKind) (i : Inference) : Except Failure Unit × Inference :=
  match i.skip with
  | (.error e, i) => (.error e, i)
  | (.ok t, i) =>
    if t.kind = kind then (.ok (), i)
    else (.error (.input ⟨.invalidJson (.expected kind t.kind), some t.offset⟩), i)

/-- The shape of the one value that the tokens of a source consist of. -/
def ofDocument (source : TokenSource) : Except Failure Shape × Inference :=
  match (ofSource source).value with
  | (.error e, i) => (.error e, i)
  | (.ok shape, i) =>
    match i.peek with
    | (.error e, i) => (.error e, i)
    | (.ok none, i) => (.ok shape, i)
    | (.ok (some t), i) =>
      (.error (.input ⟨.invalidJson (.trailing t.kind), some t.offset⟩), i)

end Inference

end JsonShape
