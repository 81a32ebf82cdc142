import JsonShape.CommandLine.Arguments
import JsonShape.CommandLine.Directory
import JsonShape.Schema

/-!
# The command line

`CommandLine.run` is what the program does with its arguments, its standard input and a directory:
an exit code and what it writes to its two outputs. The schema goes to the standard output, and a
failure to the other one with exit code 1. The log goes there too, line by line, if it is asked for:
each key that stands in its object again, and at the end what was inferred, read and rendered. Two
things are simpler here than a user sees them: a line of the log has no time in front of it, and the
text on how the program is called is a single line of this library's own.
-/

namespace JsonShape.CommandLine

/-- What a run of the program leaves behind. -/
structure Outcome where
  exit : Nat
  stdout : String
  stderr : String
  deriving DecidableEq, Repr

/-- The name of the program and its version. -/
def versionText : String := "typegen 0.1.0\n"

/-- How the program is called. The line is this library's own, for the text that a user sees comes
from whatever takes the options apart, and not from the program. -/
def usageText : String :=
  "Usage: typegen [--indent N] [-v|--verbose] [-V|--version] [-h|--help] [--] [PATH]\n"

/-- Lines, each with its end. -/
def lines (ls : List String) : String :=
  String.join (ls.map (· ++ "\n"))

/-- What the program says of a failure. -/
def complaint (message : String) : String :=
  "Error: " ++ message ++ "\n"

/-- The log lines for keys that stand in their object again. -/
def repeatedLines (keys : List String) : List String :=
  keys.map fun key => "Duplicate key " ++ Quoted.quoteString key

/-- The log lines of a success. -/
def closingLines (shape : Shape) (bytesRead : Nat) (path : Path) : List String :=
  ["Inferred " ++ shape.kindName, "Read " ++ toString bytesRead ++ " bytes",
    "Rendered schema for " ++ path.toString]

/-- The log, if it is asked for. The time at which a line was written, and which stands in front of
it, is left out. -/
def log (verbose : Bool) (ls : List String) : String :=
  if verbose then lines ls else ""

/-- The schema of a source, or the reason why there is none. -/
def answer (path : Path) (indent : Nat) (verbose : Bool) (source : Source) : Outcome :=
  let survey := Schema.survey source
  match survey.result with
  | .ok shape =>
    { exit := 0
      stdout := shape.render ⟨indent⟩ ++ "\n"
      stderr := log verbose
        (repeatedLines survey.repeated ++ closingLines shape survey.bytesRead path) }
  | .error failure =>
    { exit := 1
      stdout := ""
      stderr := log verbose (repeatedLines survey.repeated) ++ complaint failure.message }

/-- The file is not opened. -/
def refuse (path : Path) (reason : String) : Outcome :=
  { exit := 1
    stdout := ""
    stderr := complaint
      (InputError.mk (.unavailable (.cannotOpen path.toString reason)) none).message }

/-- What is told instead of a schema. -/
def tell : Notice → Outcome
  | .version => { exit := 0, stdout := versionText, stderr := "" }
  | .help => { exit := 0, stdout := usageText, stderr := "" }

/-- The arguments make no sense. -/
def misuse : Outcome :=
  { exit := 2, stdout := "", stderr := usageText }

/-- A path that ends in a dash stands for the standard input. -/
def isStandardInput (path : Path) : Bool :=
  path.name = "-"

/-- The program. -/
def run (args : List String) (stdin : List UInt8) (d : Directory) : Outcome :=
  match plan args with
  | .misuse => misuse
  | .tell notice => tell notice
  | .schema path indent verbose =>
    let path := Path.ofString path
    let content := if isStandardInput path then .ok stdin else d.open? path
    match content with
    | .ok bytes => answer path indent verbose (.ofBytes (some Source.defaultChunk) bytes)
    | .error refusal => refuse path refusal.reason

end JsonShape.CommandLine
