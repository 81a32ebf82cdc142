import JsonShape.CommandLine.Run

/-!
# The program

Reads the sample from the standard input or from a file and prints its schema.
-/

namespace JsonShape.Main

open CommandLine

/-- How the system words an error. -/
def wording : IO.Error → String
  | .noFileOrDirectory _ _ details => details
  | .permissionDenied _ _ details => details
  | .inappropriateType _ _ details => details
  | .resourceExhausted _ _ details => details
  | .invalidArgument _ _ details => details
  | .hardwareFault _ details => details
  | .otherError _ details => details
  | e => toString e

/-- All reads of a stream, up to its end or its first failure. -/
partial def reads (stream : IO.FS.Stream) (earlier : Array Read) : IO Source := do
  match ← (stream.read 65536).toBaseIO with
  | .error e => return (earlier.push (.failure [wording e])).toList
  | .ok chunk =>
    if chunk.isEmpty then return earlier.toList
    else reads stream (earlier.push (.bytes chunk.toList))

/-- The source that a path names, or the reason why it is not opened. A directory can be opened but
not read. -/
def sourceOf (path : Path) : IO (Except String Source) := do
  if isStandardInput path then return .ok (← reads (← IO.getStdin) #[])
  match ← (IO.FS.Handle.mk path.toString .read).toBaseIO with
  | .error e => return .error (wording e)
  | .ok handle =>
    match ← reads (.ofHandle handle) #[] with
    | [.failure [reason]] => return .error reason
    | source => return .ok source

/-- Writes what a run leaves behind. -/
def leave (outcome : Outcome) : IO UInt32 := do
  (← IO.getStdout).putStr outcome.stdout
  (← IO.getStderr).putStr outcome.stderr
  return outcome.exit.toUInt32

/-- Does what the arguments ask for. -/
def perform (args : List String) : IO UInt32 := do
  match plan args with
  | .misuse => leave misuse
  | .tell notice => leave (tell notice)
  | .schema name indent verbose =>
    let path := Path.ofString name
    match ← sourceOf path with
    | .ok source => leave (answer path indent verbose source)
    | .error reason => leave (refuse path reason)

end JsonShape.Main

/-- The program's entry point. -/
def main (args : List String) : IO UInt32 :=
  JsonShape.Main.perform args
