import JsonShape.Error
import JsonShape.Shape.Fields
import JsonShape.Token.Basic
import JsonShape.Token.Numeral

/-!
# The states of an inference

While tokens are read, each array or object that is open and waits for a value in it is a `Hole`,
the innermost first, and a `Place` says what must come next. Shapes are joined as soon as they are
known: the elements of an array into one, and the values of a repeated key in place of the first.
`State.step` takes one token into account. It goes on with another state, or the shape is complete,
or the token may not stand where it does.
-/

namespace JsonShape

/-- A number has the shape of an integer unless it has a fraction or an exponent. -/
def Shape.ofNumeral (literal : String) : Shape :=
  if Numeral.isFloat literal then .float else .int

namespace Inference

/-- An open array or object that waits for a value. -/
inductive Hole where
  /-- The next element of an array, whose elements so far are joined. -/
  | element (joined : Shape)
  /-- The value of a key in an object. -/
  | member (fields : Fields) (key : String)
  deriving DecidableEq, Repr

/-- What comes next. -/
inductive Place where
  | value
  /-- The first element of an array, or its end. -/
  | firstElement
  /-- A comma or the end of an array. -/
  | afterElement (joined : Shape)
  /-- The first key of an object, or its end. -/
  | firstMember
  /-- A key of an object. -/
  | key (fields : Fields)
  /-- The colon behind a key. -/
  | colon (fields : Fields) (key : String)
  /-- A comma or the end of an object. -/
  | afterMember (fields : Fields)
  deriving DecidableEq, Repr

/-- A place inside some open arrays and objects. -/
structure State where
  /-- What waits for a value, the innermost first. -/
  holes : List Hole
  /-- What comes next. -/
  place : Place
  deriving DecidableEq, Repr

/-- What a token does to a state. -/
inductive Transition where
  /-- Goes on with another state. A key may have been found to stand in its object again. -/
  | onward (state : State) (repeated : Option String)
  /-- Completes the shape. -/
  | done (shape : Shape)
  /-- May not stand there. -/
  | refused (failure : Failure)
  deriving DecidableEq

/-- The innermost hole gets its value. -/
def settle (holes : List Hole) (value : Shape) : Transition :=
  match holes with
  | [] => .done value
  | .element joined :: holes => .onward ⟨holes, .afterElement (joined.join value)⟩ none
  | .member fields key :: holes =>
    let repeated := if fields.hasKey key then some key else none
    .onward ⟨holes, .afterMember (fields.observe key value)⟩ repeated

/-- A token that may not stand where it does. -/
def refuse (t : Token) (defect : Defect) : Transition :=
  .refused (.input ⟨.invalidJson defect, some t.offset⟩)

/-- How deep arrays and objects may nest. -/
def limit : Nat := 128

/-- One more array or object is opened, if there is room for it among those open already. -/
def nest (room : Nat) (holes : List Hole) (place : Place) (t : Token) : Transition :=
  if holes.length < room then .onward ⟨holes, place⟩ none
  else .refused (.input ⟨.nestingTooDeep limit, some t.offset⟩)

/-- The first token of a value. -/
def stepValue (room : Nat) (holes : List Hole) (t : Token) : Transition :=
  match t.kind with
  | .word .null => settle holes (.optional .bottom)
  | .word _ => settle holes .bool
  | .string => settle holes .str
  | .number =>
    match t.text? with
    | some literal => settle holes (.ofNumeral literal)
    | none => .refused .textMissing
  | .objectStart => nest room holes .firstMember t
  | .arrayStart => nest room holes .firstElement t
  | _ => refuse t (.expectedValue t.kind)

/-- The key of a member. -/
def stepKey (holes : List Hole) (fields : Fields) (t : Token) : Transition :=
  match t.kind with
  | .string =>
    match t.text? with
    | some key => .onward ⟨holes, .colon fields key⟩ none
    | none => .refused .textMissing
  | _ => refuse t (.expectedKey t.kind)

/-- What a token does to a state, if so many arrays and objects may be open. -/
def State.step (room : Nat) (state : State) (t : Token) : Transition :=
  let holes := state.holes
  match state.place with
  | .value => stepValue room holes t
  | .firstElement =>
    if t.kind = .arrayEnd then settle holes (.list .bottom)
    else stepValue room (.element .bottom :: holes) t
  | .afterElement joined =>
    if t.kind = .arrayEnd then settle holes (.list joined)
    else if t.kind = .comma then .onward ⟨.element joined :: holes, .value⟩ none
    else refuse t (.expected .comma t.kind)
  | .firstMember =>
    if t.kind = .objectEnd then settle holes (.record [])
    else stepKey holes [] t
  | .key fields => stepKey holes fields t
  | .colon fields key =>
    if t.kind = .colon then .onward ⟨.member fields key :: holes, .value⟩ none
    else refuse t (.expected .colon t.kind)
  | .afterMember fields =>
    if t.kind = .objectEnd then settle holes (.record fields)
    else if t.kind = .comma then .onward ⟨holes, .key fields⟩ none
    else refuse t (.expected .comma t.kind)

end Inference

end JsonShape
