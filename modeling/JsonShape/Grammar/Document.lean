import JsonShape.Grammar.Numeral
import JsonShape.Grammar.Spelling
import JsonShape.Value.Basic

/-!
# The grammar of JSON texts

`Grammar.Written` says in which bytes a value may be written, and `Grammar.Document` in which ones a
whole text that holds the value may be: blanks may stand around every token. `Grammar.TokenBytes`
says in which bytes a single token may be written.
-/

namespace JsonShape.Grammar

/-- Bytes that may stand between two tokens. -/
def Blanks (bytes : List UInt8) : Prop :=
  ∀ b ∈ bytes, b = 0x20 ∨ b = 0x09 ∨ b = 0x0A ∨ b = 0x0D

/-- A key with blanks around it. -/
inductive WrittenKey : String → List UInt8 → Prop where
  | mk {key : String} {left bytes right : List UInt8} (hl : Blanks left)
      (h : SpelledString key bytes) (hr : Blanks right) : WrittenKey key (left ++ bytes ++ right)

mutual

/-- The bytes of a value, from its first token to its last. -/
inductive Written : Value → List UInt8 → Prop where
  | null : Written .null (Utf8.encodeString "null")
  | yes : Written (.bool true) (Utf8.encodeString "true")
  | no : Written (.bool false) (Utf8.encodeString "false")
  | number {literal : String} (h : Numeral.IsNumeral literal.toList) :
      Written (.number literal) (Utf8.encodeString literal)
  | string {text : String} {bytes : List UInt8} (h : SpelledString text bytes) :
      Written (.string text) bytes
  | emptyArray {blanks : List UInt8} (h : Blanks blanks) :
      Written (.array []) (0x5B :: (blanks ++ [0x5D]))
  | array {vs : List Value} {bytes : List UInt8} (h : WrittenElements vs bytes) :
      Written (.array vs) (0x5B :: (bytes ++ [0x5D]))
  | emptyObject {blanks : List UInt8} (h : Blanks blanks) :
      Written (.object []) (0x7B :: (blanks ++ [0x7D]))
  | object {ms : List (String × Value)} {bytes : List UInt8} (h : WrittenMembers ms bytes) :
      Written (.object ms) (0x7B :: (bytes ++ [0x7D]))

/-- A value with blanks around it. -/
inductive Document : Value → List UInt8 → Prop where
  | mk {v : Value} {left bytes right : List UInt8} (hl : Blanks left) (h : Written v bytes)
      (hr : Blanks right) : Document v (left ++ bytes ++ right)

/-- The elements of an array, at least one, with commas between them. -/
inductive WrittenElements : List Value → List UInt8 → Prop where
  | last {v : Value} {bytes : List UInt8} (h : Document v bytes) : WrittenElements [v] bytes
  | more {v : Value} {vs : List Value} {bytes rest : List UInt8} (h : Document v bytes)
      (hs : WrittenElements vs rest) : WrittenElements (v :: vs) (bytes ++ 0x2C :: rest)

/-- The members of an object, at least one, with commas between them. -/
inductive WrittenMembers : List (String × Value) → List UInt8 → Prop where
  | last {key : String} {v : Value} {name bytes : List UInt8} (hk : WrittenKey key name)
      (h : Document v bytes) : WrittenMembers [(key, v)] (name ++ 0x3A :: bytes)
  | more {key : String} {v : Value} {ms : List (String × Value)} {name bytes rest : List UInt8}
      (hk : WrittenKey key name) (h : Document v bytes) (hs : WrittenMembers ms rest) :
      WrittenMembers ((key, v) :: ms) (name ++ 0x3A :: (bytes ++ 0x2C :: rest))

end

/-- The bytes of a token: a string as any of its spellings, all others as they are. -/
inductive TokenBytes : Value.Lexeme → List UInt8 → Prop where
  | objectStart : TokenBytes (.objectStart, none) [0x7B]
  | objectEnd : TokenBytes (.objectEnd, none) [0x7D]
  | arrayStart : TokenBytes (.arrayStart, none) [0x5B]
  | arrayEnd : TokenBytes (.arrayEnd, none) [0x5D]
  | colon : TokenBytes (.colon, none) [0x3A]
  | comma : TokenBytes (.comma, none) [0x2C]
  | word (w : Word) : TokenBytes (.word w, none) (Utf8.encodeString w.spelling)
  | string {text : String} {bytes : List UInt8} (h : SpelledString text bytes) :
      TokenBytes (.string, some text) bytes
  | number {literal : String} (h : Numeral.IsNumeral literal.toList) :
      TokenBytes (.number, some literal) (Utf8.encodeString literal)

end JsonShape.Grammar
