import JsonShape.Text.Utf8

/-!
# How strings are spelled

A character of a string stands for itself, or it is spelled by an escape: a short one if it has one,
its number in four hexadecimal digits, or the numbers of the two surrogates that it is split into.
The characters may be spelled in different ways, one by one.
-/

namespace JsonShape.Grammar

/-- The characters that have a short escape, each with the byte behind the backslash. -/
def shortEscapes : List (Char × UInt8) :=
  [('"', 0x22), ('\\', 0x5C), ('/', 0x2F), ('\x08', 0x62), ('\x0c', 0x66), ('\n', 0x6E),
    ('\r', 0x72), ('\t', 0x74)]

/-- A byte is a hexadecimal digit of the given value, of either case. -/
def IsHexDigit (d : Nat) (b : UInt8) : Prop :=
  d < 10 ∧ b.toNat = 0x30 + d ∨
    10 ≤ d ∧ d < 16 ∧ (b.toNat + 10 = 0x41 + d ∨ b.toNat + 10 = 0x61 + d)

/-- An escape by a number of four hexadecimal digits. -/
inductive NumberEscape : Nat → List UInt8 → Prop where
  | digits {a b c d : Nat} {w x y z : UInt8} (ha : IsHexDigit a w) (hb : IsHexDigit b x)
      (hc : IsHexDigit c y) (hd : IsHexDigit d z) :
      NumberEscape (a * 0x1000 + b * 0x100 + c * 0x10 + d) [0x5C, 0x75, w, x, y, z]

/-- The bytes spell a character. -/
inductive SpelledChar : Char → List UInt8 → Prop where
  | raw {c : Char} (control : 0x20 ≤ c.toNat) (quote : c ≠ '"') (backslash : c ≠ '\\') :
      SpelledChar c (String.utf8EncodeChar c)
  | short {c : Char} {b : UInt8} (h : (c, b) ∈ shortEscapes) : SpelledChar c [0x5C, b]
  | number {c : Char} {bytes : List UInt8} (h : NumberEscape c.toNat bytes) : SpelledChar c bytes
  | pair {c : Char} {high low : List UInt8} (wide : 0x10000 ≤ c.toNat)
      (hh : NumberEscape (0xD800 + (c.toNat - 0x10000) / 0x400) high)
      (hl : NumberEscape (0xDC00 + (c.toNat - 0x10000) % 0x400) low) :
      SpelledChar c (high ++ low)

/-- The bytes between two quotes spell some characters. -/
inductive SpelledText : List Char → List UInt8 → Prop where
  | nil : SpelledText [] []
  | cons {c : Char} {cs : List Char} {bytes rest : List UInt8} (h : SpelledChar c bytes)
      (hs : SpelledText cs rest) : SpelledText (c :: cs) (bytes ++ rest)

/-- The bytes are a string of the given text, quotes included. -/
def SpelledString (text : String) (bytes : List UInt8) : Prop :=
  ∃ inner, SpelledText text.toList inner ∧ bytes = 0x22 :: (inner ++ [0x22])

end JsonShape.Grammar
