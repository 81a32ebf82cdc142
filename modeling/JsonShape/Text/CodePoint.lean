/-!
# Code points

A text handed to this library may hold any code point of Unicode, lone surrogates included, so it
is a list of `CodePoint`s; a text this library has decoded itself is a `String`, whose characters
are the code points that are no surrogates. `CodePoint.char?` and `CodePoint.ofChar` move between
the two, and `CodePoint.char?_ofChar` and `CodePoint.exists_ofChar` say that nothing is lost on the
way, surrogates apart.
-/

namespace JsonShape

/-- A code point of Unicode, from zero up to `10FFFF`. -/
structure CodePoint where
  /-- The number of the code point. -/
  val : Nat
  /-- No code point lies beyond the seventeen planes. -/
  val_lt : val < 0x110000 := by omega
  deriving DecidableEq

/-- A text that may hold lone surrogates. -/
abbrev Text := List CodePoint

namespace CodePoint

instance : Inhabited CodePoint := ⟨⟨0, by omega⟩⟩

/-- The code point of a number, if the number is one of a code point. -/
def ofInt? (n : Int) : Option CodePoint :=
  if h : n.toNat < 0x110000 then if 0 ≤ n then some ⟨n.toNat, h⟩ else none else none

/-- The code point of a character. -/
def ofChar (c : Char) : CodePoint :=
  ⟨c.toNat, by
    have h := c.valid
    have : c.toNat = c.val.toNat := rfl
    simp only [UInt32.isValidChar, Nat.isValidChar] at h
    omega⟩

/-- The code point whose number is a byte. -/
def ofByte (b : UInt8) : CodePoint :=
  ⟨b.toNat, Nat.lt_trans b.toNat_lt (by omega)⟩

/-- Halves of a surrogate pair stand for no character of their own. -/
def isSurrogate (c : CodePoint) : Bool :=
  0xD800 ≤ c.val && c.val < 0xE000

/-- The character of a code point, which a surrogate lacks. -/
def char? (c : CodePoint) : Option Char :=
  if c.isSurrogate then none else some (Char.ofNat c.val)

theorem val_ofChar (c : Char) : (ofChar c).val = c.toNat := rfl

theorem isSurrogate_ofChar (c : Char) : (ofChar c).isSurrogate = false := by
  have h := c.valid
  have hc : c.toNat = c.val.toNat := rfl
  simp only [UInt32.isValidChar, Nat.isValidChar] at h
  rw [isSurrogate, val_ofChar, Bool.and_eq_false_iff, decide_eq_false_iff_not,
    decide_eq_false_iff_not]
  omega

theorem char?_ofChar (c : Char) : (ofChar c).char? = some c := by
  simp [char?, isSurrogate_ofChar, val_ofChar, Char.ofNat_toNat]

/-- A number that a character may have is that of its character. -/
theorem toNat_ofNat {n : Nat} (h : n.isValidChar) : (Char.ofNat n).toNat = n := by
  rw [Char.ofNat, dif_pos h]
  rfl

/-- Every code point that is no surrogate is the one of a character. -/
theorem exists_ofChar {c : CodePoint} (h : c.isSurrogate = false) : ∃ ch, c = ofChar ch := by
  obtain ⟨n, hn⟩ := c
  have hvalid : n.isValidChar := by
    simp only [isSurrogate, Bool.and_eq_false_iff, decide_eq_false_iff_not] at h
    simp only [Nat.isValidChar]
    omega
  refine ⟨Char.ofNat n, ?_⟩
  simp only [ofChar, toNat_ofNat hvalid]

end CodePoint

/-- The code points of a string. -/
def Text.ofString (s : String) : Text :=
  s.toList.map CodePoint.ofChar

end JsonShape
