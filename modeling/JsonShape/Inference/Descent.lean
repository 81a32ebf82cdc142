import JsonShape.Inference.Basic

/-!
# Inference by recursive descent

An inference keeps what is open in a state. It can also be seen as procedures that call each other,
one for each construct, with the levels counted where they are opened and given back where they are
left: `Call.body` says what each `Call` does, in terms of what the others do. What an inference does
for a call is `Call.perform`.
-/

namespace JsonShape.Inference

/-- What is called while a value is read. -/
inductive Call where
  /-- A value. -/
  | value
  /-- The rest of an object whose opening brace is taken. -/
  | object
  /-- The rest of an object, from a key on. -/
  | members (fields : Fields)
  /-- The rest of an array whose opening bracket is taken. -/
  | array
  /-- The rest of an array, from an element on. -/
  | elements (joined : Shape)
  deriving DecidableEq

/-- Does what is called. -/
def Call.perform (call : Call) (i : Inference) : Except Failure Shape × Inference :=
  match call with
  | value => i.value
  | object => i.object
  | members fields => i.readFrom (limit - i.depth + 1) ⟨[], .key fields⟩
  | array => i.array
  | elements joined => i.readFrom (limit - i.depth + 1) ⟨[.element joined], .value⟩

/-- Goes on with a result, unless it is a failure. -/
def andThen {α β : Type} (result : Except Failure α × Inference)
    (next : α → Inference → Except Failure β × Inference) : Except Failure β × Inference :=
  match result with
  | (.error failure, i) => (.error failure, i)
  | (.ok a, i) => next a i

/-- Calls one level deeper. The level is counted at once. It is refused if there are too many then,
and given back when the call is over, whether that failed or not. -/
def nested (opening : Token) (call : Inference → Except Failure Shape × Inference)
    (i : Inference) : Except Failure Shape × Inference :=
  let i := { i with depth := i.depth + 1 }
  if limit < i.depth then (.error (.input ⟨.nestingTooDeep limit, some opening.offset⟩), i)
  else
    let (result, i) := call i
    (result, { i with depth := i.depth - 1 })

/-- Notes the key that was found to stand in its object again, if one was. -/
def noting (key : Option String) (i : Inference) : Inference :=
  { i with repeated := key.toList ++ i.repeated }

/-- Says that a token may not stand where it does. -/
def misplaced {α : Type} (t : Token) (defect : Defect) : Except Failure α :=
  .error (.input ⟨.invalidJson defect, some t.offset⟩)

/-- What a procedure does, if `perform` does what it calls. -/
def Call.body (perform : Call → Inference → Except Failure Shape × Inference) (call : Call)
    (i : Inference) : Except Failure Shape × Inference :=
  match call with
  | value =>
    andThen i.skip fun t i =>
      match t.kind with
      | .word .null => (.ok (.optional .bottom), i)
      | .word _ => (.ok .bool, i)
      | .string => (.ok .str, i)
      | .number =>
        match t.text? with
        | some literal => (.ok (.ofNumeral literal), i)
        | none => (.error .textMissing, i)
      | .objectStart => nested t (perform object) i
      | .arrayStart => nested t (perform array) i
      | kind => (misplaced t (.expectedValue kind), i)
  | object =>
    andThen (i.accept .objectEnd) fun ended i =>
      if ended then (.ok (.record []), i) else perform (members []) i
  | members fields =>
    andThen i.skip fun t i =>
      match t.kind with
      | .string =>
        match t.text? with
        | some key =>
          andThen (i.expect .colon) fun _ i =>
            andThen (perform value i) fun s i =>
              let i := noting (if fields.hasKey key then some key else none) i
              let fields := fields.observe key s
              andThen (i.accept .objectEnd) fun ended i =>
                if ended then (.ok (.record fields), i)
                else andThen (i.expect .comma) fun _ i => perform (members fields) i
        | none => (.error .textMissing, i)
      | kind => (misplaced t (.expectedKey kind), i)
  | array =>
    andThen (i.accept .arrayEnd) fun ended i =>
      if ended then (.ok (.list .bottom), i) else perform (elements .bottom) i
  | elements joined =>
    andThen (perform value i) fun s i =>
      let joined := joined.join s
      andThen (i.accept .arrayEnd) fun ended i =>
        if ended then (.ok (.list joined), i)
        else andThen (i.expect .comma) fun _ i => perform (elements joined) i

end JsonShape.Inference
