import JsonShape.Text.Quoted

/-!
# Kinds of tokens

JSON has six punctuation marks, strings, numbers and three words. A kind is written as its mark or
its word, a string or a number as the name of its kind; `TokenKind.ofName?_name` says that no two
kinds are written alike.
-/

namespace JsonShape

/-- The words of JSON: `true`, `false` and `null`. -/
inductive Word where
  | yes
  | no
  | null
  deriving DecidableEq, Repr

/-- How a word is written. -/
def Word.spelling : Word → String
  | .yes => "true"
  | .no => "false"
  | .null => "null"

/-- What a token is. -/
inductive TokenKind where
  | objectStart
  | objectEnd
  | arrayStart
  | arrayEnd
  | colon
  | comma
  | string
  | number
  | word (w : Word)
  deriving DecidableEq, Repr

namespace TokenKind

/-- How a kind is written. -/
def name : TokenKind → String
  | objectStart => "\x7b"
  | objectEnd => "\x7d"
  | arrayStart => "["
  | arrayEnd => "]"
  | colon => ":"
  | comma => ","
  | string => "string"
  | number => "number"
  | word w => w.spelling

/-- Every kind there is. -/
def all : List TokenKind :=
  [objectStart, objectEnd, arrayStart, arrayEnd, colon, comma, string, number, word .yes, word .no,
    word .null]

/-- The kind that is written so. -/
def ofName? (s : String) : Option TokenKind :=
  all.find? (·.name = s)

/-- The name of a kind between quotation marks. -/
def quotedName (k : TokenKind) : String :=
  Quoted.quoteString k.name

theorem ofName?_name (k : TokenKind) : ofName? k.name = some k := by
  cases k with
  | word w => cases w <;> decide +kernel
  | _ => decide +kernel

end TokenKind

end JsonShape
