import JsonShape.Shape.Basic

/-!
# Rendering a shape

`Shape.render` writes a shape as an indented schema. A scalar is written by its name, a list has
`[]` behind its element and an optional `?` behind its inner shape; a record has each field on a
line of its own, followed by a comma, between braces.

A schema may nest thousands of levels deep, so rendering keeps the work that is left on a list of
its own, `Pending`, in place of calling itself for the parts of a shape.
-/

namespace JsonShape

/-- How a schema is laid out. -/
structure Layout where
  /-- The spaces that a level of records adds in front of a line. -/
  indent : Nat := 4
  deriving DecidableEq, Repr

/-- The layout with a given number of spaces for a level, which cannot be negative. -/
def Layout.ofIndent? (n : Int) : Option Layout :=
  if 0 ≤ n then some ⟨n.toNat⟩ else none

/-- A run of spaces. -/
def spaces (n : Nat) : String :=
  String.ofList (List.replicate n ' ')

namespace Shape

/-- A piece of a schema that is still to be written. -/
inductive Pending where
  /-- A text that is written as it is. -/
  | text (t : String)
  /-- A shape whose braces stand behind a number of spaces. -/
  | shape (s : Shape) (level : Nat)

mutual

/-- The number of steps that writing a shape takes: one for each of its parts and for each text
between them. -/
def steps : Shape → Nat
  | optional s => s.steps + 2
  | list s => s.steps + 2
  | record f => stepsFields f + 2
  | _ => 1

/-- The number of steps that writing the lines of a record takes. -/
def stepsFields : List (String × Shape) → Nat
  | [] => 0
  | (_, s) :: f => s.steps + 2 + stepsFields f

end

/-- The number of steps that writing a piece takes. -/
def Pending.steps : Pending → Nat
  | text _ => 1
  | shape s _ => s.steps

/-- The number of steps that writing some pieces takes. -/
def Pending.stepsOfAll : List Pending → Nat
  | [] => 0
  | p :: pending => p.steps + stepsOfAll pending

/-- The lines of a record's fields. -/
def fieldLines (child : Nat) : List (String × Shape) → List Pending → List Pending
  | [], rest => rest
  | (key, s) :: f, rest =>
    .text (spaces child ++ key ++ ": ") :: .shape s child :: .text ",\n" :: fieldLines child f rest

/-- The name of a shape that has no parts. -/
def scalarName : Shape → String
  | bottom => "bottom"
  | top => "top"
  | bool => "bool"
  | str => "str"
  | int => "int"
  | float => "float"
  | _ => ""

theorem stepsOfAll_fieldLines (child : Nat) (f : List (String × Shape)) (rest : List Pending) :
    Pending.stepsOfAll (fieldLines child f rest) = stepsFields f + Pending.stepsOfAll rest := by
  induction f with
  | nil => simp only [fieldLines, stepsFields, Nat.zero_add]
  | cons p f ih =>
    simp only [fieldLines, Pending.stepsOfAll, Pending.steps, stepsFields, ih]
    omega

/-- Writes what is pending behind what is written already. -/
def write (layout : Layout) : List Pending → String → String
  | [], written => written
  | .text t :: rest, written => write layout rest (written ++ t)
  | .shape s level :: rest, written =>
    match s with
    | optional inner => write layout (.shape inner level :: .text "?" :: rest) written
    | list element => write layout (.shape element level :: .text "[]" :: rest) written
    | record f =>
      write layout
        (fieldLines (level + layout.indent) f (.text (spaces level ++ "\x7d") :: rest))
        (written ++ "\x7b\n")
    | s => write layout rest (written ++ s.scalarName)
termination_by pending => Pending.stepsOfAll pending
decreasing_by
  all_goals
    simp only [Pending.stepsOfAll, Pending.steps, stepsOfAll_fieldLines, steps]
    try omega
  cases s <;> simp only [steps] <;> omega

/-- The schema of a shape. -/
def render (layout : Layout) (s : Shape) : String :=
  write layout [.shape s 0] ""

end Shape

end JsonShape
