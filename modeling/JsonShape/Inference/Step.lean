import JsonShape.Inference.Basic

/-!
# Steps of an inference

An inference may be driven from outside, step by step, and goes on after a step that failed. A
`Step` is what it can be told to do, an `Answer` what a step that succeeds has to say.
`performAll` does one step after the other.
-/

namespace JsonShape.Inference

/-- What an inference can be told to do. -/
inductive Step where
  /-- Read a value. -/
  | value
  /-- Read the rest of an object whose opening brace is taken. -/
  | object
  /-- Read the rest of an array whose opening bracket is taken. -/
  | array
  /-- Take the next token if it is of a kind. -/
  | accept (kind : TokenKind)
  /-- Take the next token, which must be of a kind. -/
  | expect (kind : TokenKind)
  /-- Take the next token, whatever it is. -/
  | skip
  /-- Look at the next token. -/
  | peek
  deriving DecidableEq, Repr

/-- What a step has to say. -/
inductive Answer where
  | shape (s : Shape)
  | accepted (b : Bool)
  | met
  | token (t : Token)
  | seen (t : Option Token)
  deriving DecidableEq

/-- Does a step. -/
def Step.perform (step : Step) (i : Inference) : Except Failure Answer × Inference :=
  match step with
  | value => i.value.map (·.map .shape) id
  | object => i.object.map (·.map .shape) id
  | array => i.array.map (·.map .shape) id
  | accept kind => (i.accept kind).map (·.map .accepted) id
  | expect kind => (i.expect kind).map (·.map fun _ => .met) id
  | skip => i.skip.map (·.map .token) id
  | peek => i.peek.map (·.map .seen) id

/-- Does some steps, one after the other, whatever comes of them. -/
def performAll (i : Inference) : List Step → List (Except Failure Answer) × Inference
  | [] => ([], i)
  | step :: steps =>
    let (answer, i) := step.perform i
    let (answers, i) := performAll i steps
    (answer :: answers, i)

end JsonShape.Inference
