import JsonShape.CommandLine.Integer

/-!
# Arguments

Options may stand before or behind the path, and short ones may be joined. `Arguments.read?` takes
the arguments apart and refuses an option that there is not; `Arguments.plan` then says what is
asked for. A request for the version, or for help, is answered before anything else is looked at:
the value of `--indent`, and the number of paths.

A program leaves all this to a library for command lines. The rules here are what is assumed of such
a library, and no part of the program itself.
-/

namespace JsonShape.CommandLine

/-- Something to tell instead of a schema. -/
inductive Notice where
  | version
  | help
  deriving DecidableEq, Repr

/-- Arguments, taken apart. -/
structure Arguments where
  /-- The arguments that are no options, in order. -/
  paths : List String := []
  /-- The value of the last `--indent`. -/
  indent : String := "4"
  /-- The log is asked for. -/
  verbose : Bool := false
  /-- The first request for something else than a schema. -/
  notice : Option Notice := none
  deriving DecidableEq, Repr

/-- What is asked for. -/
inductive Plan where
  /-- Nothing that makes sense. -/
  | misuse
  | tell (notice : Notice)
  /-- The schema of the file that the path names. -/
  | schema (path : String) (indent : Nat) (verbose : Bool)
  deriving DecidableEq, Repr

namespace Arguments

/-- A request for something else than a schema, which counts if it is the first. -/
def ask (notice : Notice) (a : Arguments) : Arguments :=
  { a with notice := some (a.notice.getD notice) }

/-- An option by one letter. -/
def short? (a : Arguments) (letter : Char) : Option Arguments :=
  match letter with
  | 'v' => some { a with verbose := true }
  | 'V' => some (a.ask .version)
  | 'h' => some (a.ask .help)
  | _ => none

/-- An option that stands for itself: a long one, or short ones joined behind one dash. -/
def flag? (a : Arguments) (arg : String) : Option Arguments :=
  match arg with
  | "--verbose" => some { a with verbose := true }
  | "--version" => some (a.ask .version)
  | "--help" => some (a.ask .help)
  | _ =>
    match arg.toList with
    | '-' :: '-' :: _ => none
    | '-' :: letters => letters.foldlM short? a
    | _ => none

/-- A dash alone is a path. Whatever else starts with a dash is an option. -/
def isOption (arg : String) : Bool :=
  match arg.toList with
  | '-' :: _ :: _ => true
  | _ => false

/-- The value of `--indent` in the same argument. -/
def indentValue? (arg : String) : Option String :=
  let opening := "--indent=".toList
  if opening.isPrefixOf arg.toList then some (String.ofList (arg.toList.drop opening.length))
  else none

/-- Takes arguments apart. Behind `--` there are only paths. -/
def readOn (a : Arguments) : List String → Option Arguments
  | [] => some a
  | arg :: rest =>
    if arg = "--" then some { a with paths := a.paths ++ rest }
    else if arg = "--indent" then
      match rest with
      | [] => none
      | value :: rest => readOn { a with indent := value } rest
    else
      match indentValue? arg with
      | some value => readOn { a with indent := value } rest
      | none =>
        if isOption arg then
          match a.flag? arg with
          | some a => readOn a rest
          | none => none
        else readOn { a with paths := a.paths ++ [arg] } rest

/-- Takes all arguments apart, unless one is an option that there is not. -/
def read? (args : List String) : Option Arguments :=
  readOn {} args

/-- What arguments ask for, with the standard input as the usual path. -/
def plan (a : Arguments) : Plan :=
  match a.notice with
  | some notice => .tell notice
  | none =>
    match Integer.read? a.indent, a.paths with
    | some n, [] => if 0 ≤ n then .schema "-" n.toNat a.verbose else .misuse
    | some n, [path] => if 0 ≤ n then .schema path n.toNat a.verbose else .misuse
    | _, _ => .misuse

end Arguments

/-- What the arguments ask for. -/
def plan (args : List String) : Plan :=
  match Arguments.read? args with
  | some a => a.plan
  | none => .misuse

end JsonShape.CommandLine
