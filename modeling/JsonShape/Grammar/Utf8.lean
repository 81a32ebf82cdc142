import JsonShape.Text.CodePoint

/-!
# The bytes of a text

A text is written as the bytes of its code points, one behind the other. A code point takes one byte
to four, by its number alone: its bits are cut into groups of six, and the first byte tells how many
of them follow. Surrogates are code points like others here, so each of them takes three bytes, and
two that form a pair are written one by one.
-/

namespace JsonShape.Grammar

/-- The bytes of a code point by its number. Behind the first one, each carries six bits. -/
def pointBytes (n : Nat) : List Nat :=
  if n < 0x80 then [n]
  else if n < 0x800 then [0xC0 + n / 0x40, 0x80 + n % 0x40]
  else if n < 0x10000 then [0xE0 + n / 0x1000, 0x80 + n / 0x40 % 0x40, 0x80 + n % 0x40]
  else
    [0xF0 + n / 0x40000, 0x80 + n / 0x1000 % 0x40, 0x80 + n / 0x40 % 0x40, 0x80 + n % 0x40]

/-- The bytes of a text. -/
def textBytes (text : Text) : List UInt8 :=
  text.flatMap fun c => (pointBytes c.val).map UInt8.ofNat

end JsonShape.Grammar
