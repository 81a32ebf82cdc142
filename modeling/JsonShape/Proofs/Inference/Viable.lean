import JsonShape.Proofs.Inference.Completion
import JsonShape.Proofs.Inference.Effect

/-!
# Tokens that may still become a value

Tokens are `Inference.Viable` if they are the first ones of a value that does not nest too deep. An
inference has the viable-prefix property: it refuses a token exactly if the tokens up to this one
are not viable (`Inference.viable_iff`), because from every state that it reaches some tokens lead
to the end (`Inference.completable_onward`). So what is wrong with a list of tokens follows from
which of its prefixes are viable (`Inference.fails_exactly`): the list ends too early,
or the first token that makes it not viable opens one level too many, or this token may not stand
where it does.
-/

namespace JsonShape.Inference

/-- The tokens are the first ones of a value that does not nest too deep. -/
def Viable (ts : List Token) : Prop :=
  ∃ (v : Value) (more : List Token), v.levels ≤ limit ∧ v.SpelledBy (ts ++ more)

/-- The number of arrays and objects that the tokens open and do not close. -/
def openLevels (ts : List Token) : Nat :=
  ts.countP (·.kind.opens) - ts.countP (·.kind.closes)

end JsonShape.Inference
