/-!
# Paths

A path names a file by the directories on the way to it. Empty steps, and steps that stay where they
are, do not count: `./a//b/` is `a/b`, and the empty path is the current directory. Steps back up
do count, since a directory may be reached on several ways.
-/

namespace JsonShape.CommandLine

/-- A path in its normal form. -/
structure Path where
  /-- What the path starts with: `""` if it starts at the current directory. -/
  root : String
  /-- The steps of the path. -/
  parts : List String
  deriving DecidableEq, Repr

namespace Path

/-- The pieces between the slashes. -/
def pieces : List Char → List (List Char)
  | [] => [[]]
  | c :: rest =>
    if c = '/' then [] :: pieces rest
    else
      match pieces rest with
      | [] => [[c]]
      | piece :: others => (c :: piece) :: others

/-- Two slashes are a root of their own; one, or more than two, are the usual one. -/
def rootOf : List Char → String
  | '/' :: '/' :: '/' :: _ => "/"
  | '/' :: '/' :: _ => "//"
  | '/' :: _ => "/"
  | _ => ""

/-- The path that a text names. -/
def ofString (s : String) : Path where
  root := rootOf s.toList
  parts := ((pieces s.toList).map String.ofList).filter fun part => part ≠ "" && part ≠ "."

/-- The text of a path. -/
def toString (p : Path) : String :=
  if p.root = "" && p.parts = [] then "." else p.root ++ String.intercalate "/" p.parts

/-- The last step of a path. -/
def name (p : Path) : String :=
  p.parts.getLast?.getD ""

example : (ofString "./a//b/").toString = "a/b" := by decide +kernel
example : (ofString "").toString = "." := by decide +kernel
example : (ofString "///x/../y").toString = "/x/../y" := by decide +kernel

end Path

end JsonShape.CommandLine
