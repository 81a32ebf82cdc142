import JsonShape.Shape.Fields
import JsonShape.Token.Basic

/-!
# JSON values

A `Value` is what a JSON text says, with numbers as they were written and with every member of an
object, also those whose key occurs again. `Value.shape` is its shape by recursion over the value:
an array has the joined shape of its elements, and a key of an object that of its values.
`Value.lexemes` are the tokens that a value is written in.
-/

namespace JsonShape

/-- What a JSON text says. -/
inductive Value where
  | null
  | bool (b : Bool)
  /-- A number, as it is written. -/
  | number (literal : String)
  | string (text : String)
  | array (elements : List Value)
  /-- The members of an object in their order. -/
  | object (members : List (String × Value))
  deriving Inhabited, Repr

namespace Value

/-! ## Nesting -/

mutual

/-- The number of arrays and objects that stand one inside the other. -/
def levels : Value → Nat
  | array vs => 1 + levelsOfElements vs
  | object ms => 1 + levelsOfMembers ms
  | _ => 0

/-- The most levels of an element. -/
def levelsOfElements : List Value → Nat
  | [] => 0
  | v :: vs => max v.levels (levelsOfElements vs)

/-- The most levels of a member. -/
def levelsOfMembers : List (String × Value) → Nat
  | [] => 0
  | (_, v) :: ms => max v.levels (levelsOfMembers ms)

end

/-! ## Shapes -/

mutual

/-- The shape of a value. -/
def shape : Value → Shape
  | null => .optional .bottom
  | bool _ => .bool
  | number literal =>
    if '.' ∈ literal.toList ∨ 'e' ∈ literal.toList ∨ 'E' ∈ literal.toList then .float else .int
  | string _ => .str
  | array vs => .list (Shape.fold (elementShapes vs))
  | object ms => .record (Fields.gather (memberShapes ms))

/-- The shapes of the elements of an array. -/
def elementShapes : List Value → List Shape
  | [] => []
  | v :: vs => v.shape :: elementShapes vs

/-- The shapes of the members of an object. -/
def memberShapes : List (String × Value) → Fields
  | [] => []
  | (key, v) :: ms => (key, v.shape) :: memberShapes ms

end

/-! ## Tokens -/

/-- What a token is, wherever it stands. -/
abbrev Lexeme := TokenKind × Option String

mutual

/-- The tokens of a value. -/
def lexemes : Value → List Lexeme
  | null => [(.word .null, none)]
  | bool b => [(.word (if b then .yes else .no), none)]
  | number literal => [(.number, some literal)]
  | string text => [(.string, some text)]
  | array [] => [(.arrayStart, none), (.arrayEnd, none)]
  | array (v :: vs) => (.arrayStart, none) :: (v.lexemes ++ furtherElements vs)
  | object [] => [(.objectStart, none), (.objectEnd, none)]
  | object ((key, v) :: ms) =>
    (.objectStart, none) :: (.string, some key) :: (.colon, none) ::
      (v.lexemes ++ furtherMembers ms)

/-- The tokens of the elements behind another one, up to the end of the array. -/
def furtherElements : List Value → List Lexeme
  | [] => [(.arrayEnd, none)]
  | v :: vs => (.comma, none) :: (v.lexemes ++ furtherElements vs)

/-- The tokens of the members behind another one, up to the end of the object. -/
def furtherMembers : List (String × Value) → List Lexeme
  | [] => [(.objectEnd, none)]
  | (key, v) :: ms =>
    (.comma, none) :: (.string, some key) :: (.colon, none) :: (v.lexemes ++ furtherMembers ms)

end

end Value

/-- What a token is, wherever it stands. Only the texts of strings and numbers count. -/
def Token.lexeme (t : Token) : Value.Lexeme :=
  (t.kind, if t.kind = .string ∨ t.kind = .number then t.text? else none)

/-- Tokens that spell a value, in any places. -/
def Value.SpelledBy (v : Value) (ts : List Token) : Prop :=
  ts.map Token.lexeme = v.lexemes

end JsonShape
