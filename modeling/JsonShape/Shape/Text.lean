import JsonShape.Shape.Basic

/-!
# The text of a shape

`Shape.text` says what the schema of a shape is, by recursion over the shape: the schema of a part
is the schema of the whole at another level. `Shape.lineCount` counts the lines that records need,
one for the opening brace of each and one for each field. `Shape.rows` lists the lines of the schema
themselves, and `Shape.allKeys` the keys that stand in them. A schema is sure to have these lines if
its shape is `Shape.Unbroken`, for keys are written as they are.
-/

namespace JsonShape.Shape

/-- The spaces in front of what stands on a line. -/
def margin (level : Nat) : String :=
  "".pushn ' ' level

@[simp] theorem toList_margin (level : Nat) :
    (margin level).toList = List.replicate level ' ' := by
  rw [margin, String.pushn_eq_repeat_push]
  induction level with
  | zero => rfl
  | succ level ih => rw [Nat.repeat, String.toList_push, ih, List.replicate_succ']

mutual

/-- The schema of a shape whose braces stand behind `level` spaces. -/
def text (indent level : Nat) : Shape → String
  | optional s => s.text indent level ++ "?"
  | list s => s.text indent level ++ "[]"
  | record f => "\x7b\n" ++ fieldsText indent (level + indent) f ++ margin level ++ "\x7d"
  | bottom => "bottom"
  | top => "top"
  | bool => "bool"
  | str => "str"
  | int => "int"
  | float => "float"

/-- The lines of the fields of a record, each behind `level` spaces. -/
def fieldsText (indent level : Nat) : List (String × Shape) → String
  | [] => ""
  | (key, s) :: f =>
    margin level ++ key ++ ": " ++ s.text indent level ++ ",\n" ++ fieldsText indent level f

end

mutual

/-- The number of records and fields in a shape. -/
def lineCount : Shape → Nat
  | optional s => s.lineCount
  | list s => s.lineCount
  | record f => 1 + fieldsLineCount f
  | _ => 0

/-- The number of records and fields in some fields, these included. -/
def fieldsLineCount : List (String × Shape) → Nat
  | [] => 0
  | (_, s) :: f => 1 + s.lineCount + fieldsLineCount f

end

mutual

/-- The keys in a shape, at any depth, in the order of the schema. -/
def allKeys : Shape → List String
  | optional s => s.allKeys
  | list s => s.allKeys
  | record f => fieldsAllKeys f
  | _ => []

/-- The keys in some fields, at any depth. -/
def fieldsAllKeys : List (String × Shape) → List String
  | [] => []
  | (key, s) :: f => key :: (s.allKeys ++ fieldsAllKeys f)

end

/-- No key in the shape holds a line feed. -/
def Unbroken (s : Shape) : Prop :=
  ∀ key ∈ s.allKeys, '\n' ∉ key.toList

instance (s : Shape) : Decidable s.Unbroken :=
  inferInstanceAs (Decidable (∀ key ∈ s.allKeys, '\n' ∉ key.toList))

mutual

/-- The lines of the schema of a shape. One text stands in front of the schema on its first line,
and another behind it on its last. -/
def rows (indent level : Nat) (before after : String) : Shape → List String
  | optional s => s.rows indent level before ("?" ++ after)
  | list s => s.rows indent level before ("[]" ++ after)
  | record f =>
    (before ++ "\x7b") ::
      (fieldsRows indent (level + indent) f ++ [margin level ++ "\x7d" ++ after])
  | s => [before ++ s.text indent level ++ after]

/-- The lines of the fields of a record. Each field starts on a line of its own. -/
def fieldsRows (indent level : Nat) : List (String × Shape) → List String
  | [] => []
  | (key, s) :: f =>
    s.rows indent level (margin level ++ key ++ ": ") "," ++ fieldsRows indent level f

end

end JsonShape.Shape
