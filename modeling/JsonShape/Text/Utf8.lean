import JsonShape.Text.CodePoint

/-!
# UTF-8

`Utf8.encode` writes a text as bytes. It is UTF-8 extended to surrogates, each of which is written
in three bytes like its neighbours, so that every `Text` has an encoding. `Utf8.decode?` reads
well-formed UTF-8 alone, in which no surrogate stands; `Utf8.decode?_eq_some_iff` says that it
accepts exactly the bytes that characters are written as, and gives those characters back.
-/

namespace JsonShape.Utf8

/-- A surrogate takes three bytes, as every code point from `0800` to `FFFF` does. -/
def encodeSurrogate (c : CodePoint) : List UInt8 :=
  [UInt8.ofNat (0xE0 + c.val / 4096), UInt8.ofNat (0x80 + c.val / 64 % 64),
    UInt8.ofNat (0x80 + c.val % 64)]

/-- The bytes of one code point. -/
def encodePoint (c : CodePoint) : List UInt8 :=
  match c.char? with
  | some ch => String.utf8EncodeChar ch
  | none => encodeSurrogate c

/-- The bytes of a text. -/
def encode (text : Text) : List UInt8 :=
  text.flatMap encodePoint

/-- The bytes of a string. -/
def encodeString (s : String) : List UInt8 :=
  s.toList.flatMap String.utf8EncodeChar

/-- The string that the bytes spell, if they are well-formed UTF-8. -/
def decode? (bytes : List UInt8) : Option String :=
  String.fromUTF8? bytes.toByteArray

theorem encodePoint_ofChar (c : Char) : encodePoint (.ofChar c) = String.utf8EncodeChar c := by
  simp [encodePoint, CodePoint.char?_ofChar]

theorem toByteArray_encodeString (s : String) :
    (encodeString s).toByteArray = s.toByteArray :=
  String.utf8Encode_toList

/-- Decoding accepts the bytes that a string is written as, and nothing else. -/
theorem decode?_eq_some_iff {bytes : List UInt8} {s : String} :
    decode? bytes = some s ↔ bytes = encodeString s := by
  rw [← List.toByteArray_inj, toByteArray_encodeString, decode?, String.fromUTF8?]
  constructor
  · intro h
    split at h
    · cases h
      rfl
    · cases h
  · intro h
    have valid : bytes.toByteArray.IsValidUTF8 := h ▸ s.isValidUTF8
    rw [dif_pos valid, Option.some_inj, ← String.toByteArray_inj]
    exact h

end JsonShape.Utf8
