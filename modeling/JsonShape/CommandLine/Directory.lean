import JsonShape.CommandLine.Path

/-!
# Directories

A `Directory` is what there is to open: the files and directories below the current one. Nothing is
known of what lies beside or above, but that it is not there. A path is followed step by step, and
the first step that cannot be taken says why the file is not opened.
-/

namespace JsonShape.CommandLine

/-- Why a file is not opened. -/
inductive Refusal where
  | missing
  | notDirectory
  | isDirectory
  | nameTooLong
  deriving DecidableEq, Repr

/-- How the system words a refusal. -/
def Refusal.reason : Refusal → String
  | missing => "No such file or directory"
  | notDirectory => "Not a directory"
  | isDirectory => "Is a directory"
  | nameTooLong => "File name too long"

/-- What stands in a directory under a name. -/
inductive Entry where
  | file (content : List UInt8)
  | directory
  deriving DecidableEq, Repr

/-- The files and directories below the current one, each with the steps that lead to it. -/
abbrev Directory := List (List String × Entry)

namespace Directory

/-- All ways that a way begins with, itself included. -/
def beginnings : List String → List (List String)
  | [] => []
  | name :: rest => [name] :: (beginnings rest).map (name :: ·)

/-- A directory with the given directories and files in it, and those on the way to them. -/
def ofContents (dirs : List Path) (files : List (Path × List UInt8)) : Directory :=
  files.map (fun (p, content) => (p.parts, .file content)) ++
    (dirs.map Path.parts ++ files.map (·.1.parts.dropLast)).flatMap fun steps =>
      (beginnings steps).map fun s => (s, .directory)

/-- What the steps lead to. -/
def entry? (d : Directory) (steps : List String) : Option Entry :=
  (d.find? (·.1 = steps)).map (·.2)

/-- Where a walk stands. -/
inductive Location where
  /-- In a directory below the current one, the latest step first, or in the current one. -/
  | inside (steps : List String)
  /-- In a directory of which nothing is known. -/
  | outside
  /-- At a file. -/
  | file (content : List UInt8)
  deriving DecidableEq, Repr

/-- The most bytes of a step. -/
def maxName : Nat := 255

/-- The most bytes of a path. -/
def maxPath : Nat := 4095

/-- One step of a walk. -/
def step (d : Directory) (location : Location) (name : String) : Except Refusal Location :=
  match location with
  | .file _ => .error .notDirectory
  | .outside =>
    if name = ".." then .ok .outside
    else if name.utf8ByteSize > maxName then .error .nameTooLong
    else .error .missing
  | .inside steps =>
    if name = ".." then
      match steps with
      | [] => .ok .outside
      | _ :: steps => .ok (.inside steps)
    else if name.utf8ByteSize > maxName then .error .nameTooLong
    else
      match d.entry? (name :: steps).reverse with
      | some (.file content) => .ok (.file content)
      | some .directory => .ok (.inside (name :: steps))
      | none => .error .missing

/-- The content of the file that a path leads to. -/
def open? (d : Directory) (p : Path) : Except Refusal (List UInt8) :=
  if p.toString.utf8ByteSize > maxPath then .error .nameTooLong
  else
    match p.parts.foldlM (step d) (if p.root = "" then .inside [] else .outside) with
    | .ok (.file content) => .ok content
    | .ok _ => .error .isDirectory
    | .error refusal => .error refusal

end Directory

end JsonShape.CommandLine
