import JsonShape.Grammar.Utf8
import JsonShape.Text.Utf8

/-!
# The bytes of characters

A character below `80` is one byte, its own number (`Utf8.encodeChar_of_lt`); every byte of any
other character is at least `80` (`Utf8.le_of_mem_encodeChar`). A text is encoded as the bytes that
the numbers of its code points have, lone surrogates included (`Utf8.encode_eq_textBytes`).
-/

namespace JsonShape.Utf8

/-- A character below `80` is written as its number. -/
theorem encodeChar_of_lt {c : Char} (h : c.toNat < 0x80) :
    String.utf8EncodeChar c = [UInt8.ofNat c.toNat] := by
  have hv : c.val.toNat ≤ 0x7f := Nat.le_of_lt_succ h
  rw [String.utf8EncodeChar, if_pos hv]
  rfl

/-- All bytes of a character from `80` on are at least `80`. -/
theorem le_of_mem_encodeChar {c : Char} (h : 0x80 ≤ c.toNat) {b : UInt8}
    (hb : b ∈ String.utf8EncodeChar c) : 0x80 ≤ b.toNat := by
  have hv : ¬c.val.toNat ≤ 0x7f := Nat.not_le.2 h
  simp only [String.utf8EncodeChar, if_neg hv] at hb
  split at hb
  · simp only [List.mem_cons, List.not_mem_nil, or_false] at hb
    rcases hb with rfl | rfl <;> simp only [UInt8.toNat_ofNat'] <;> omega
  · split at hb
    · simp only [List.mem_cons, List.not_mem_nil, or_false] at hb
      rcases hb with rfl | rfl | rfl <;> simp only [UInt8.toNat_ofNat'] <;> omega
    · simp only [List.mem_cons, List.not_mem_nil, or_false] at hb
      rcases hb with rfl | rfl | rfl | rfl <;> simp only [UInt8.toNat_ofNat'] <;> omega

/-- The first character has a first byte. -/
theorem exists_cons_of_encodeString (c : Char) (cs : List Char) :
    ∃ b rest, encodeString (.ofList (c :: cs)) = b :: rest := by
  have hlength : 0 < (encodeString (.ofList (c :: cs))).length := by
    simp only [encodeString, String.toList_ofList, List.flatMap_cons, List.length_append,
      String.length_utf8EncodeChar]
    exact Nat.lt_of_lt_of_le c.utf8Size_pos (Nat.le_add_right _ _)
  exact List.exists_cons_of_length_pos hlength

/-- A string is decoded from its bytes. -/
theorem decode?_encodeString (s : String) : decode? (encodeString s) = some s :=
  decode?_eq_some_iff.2 rfl

/-! ## The bytes of code points -/

/-- A character is written as its number. The first byte never overflows, for all characters lie
below `110000`. -/
theorem encodeChar_eq_pointBytes (c : Char) :
    String.utf8EncodeChar c = (Grammar.pointBytes c.toNat).map UInt8.ofNat := by
  have hvalid := (CodePoint.ofChar c).val_lt
  have hval : c.toNat = c.val.toNat := rfl
  rw [CodePoint.val_ofChar, hval] at hvalid
  rw [hval, String.utf8EncodeChar, Grammar.pointBytes]
  simp only [← Nat.lt_succ_iff]
  generalize c.val.toNat = n at hvalid
  split
  · rfl
  · split
    · next htwo =>
      have hfirst : n / 64 % 32 = n / 64 := Nat.mod_eq_of_lt (by omega)
      simp only [hfirst, Nat.add_comm, List.map_cons, List.map_nil]
    · split
      · next hthree =>
        have hfirst : n / 4096 % 16 = n / 4096 := Nat.mod_eq_of_lt (by omega)
        simp only [hfirst, Nat.add_comm, List.map_cons, List.map_nil]
      · have hfirst : n / 262144 % 8 = n / 262144 := Nat.mod_eq_of_lt (by omega)
        simp only [hfirst, Nat.add_comm, List.map_cons, List.map_nil]

/-- A surrogate is written in three bytes, as its neighbours are. -/
theorem encodeSurrogate_eq_pointBytes {c : CodePoint} (h : c.isSurrogate = true) :
    encodeSurrogate c = (Grammar.pointBytes c.val).map UInt8.ofNat := by
  simp only [CodePoint.isSurrogate, Bool.and_eq_true, decide_eq_true_eq] at h
  rw [Grammar.pointBytes, if_neg (by omega), if_neg (by omega), if_pos (by omega)]
  rfl

/-- A code point is written as its number, be it a surrogate or not. -/
theorem encodePoint_eq_pointBytes (c : CodePoint) :
    encodePoint c = (Grammar.pointBytes c.val).map UInt8.ofNat := by
  cases h : c.isSurrogate with
  | true =>
    have hnone : c.char? = none := by rw [CodePoint.char?, if_pos h]
    rw [encodePoint, hnone]
    exact encodeSurrogate_eq_pointBytes h
  | false =>
    obtain ⟨ch, rfl⟩ := CodePoint.exists_ofChar h
    rw [encodePoint_ofChar, CodePoint.val_ofChar, encodeChar_eq_pointBytes]

/-- A text is written as the numbers of its code points. -/
theorem encode_eq_textBytes (text : Text) : encode text = Grammar.textBytes text := by
  rw [encode, Grammar.textBytes]
  exact congrArg text.flatMap (funext encodePoint_eq_pointBytes)

/-- One code point for each number of bytes, and two surrogates that form a pair. -/
example : encode [⟨0x41, by omega⟩, ⟨0xE9, by omega⟩, ⟨0x20AC, by omega⟩, ⟨0x1F600, by omega⟩,
    ⟨0xD83D, by omega⟩, ⟨0xDE00, by omega⟩] =
    [0x41, 0xC3, 0xA9, 0xE2, 0x82, 0xAC, 0xF0, 0x9F, 0x98, 0x80, 0xED, 0xA0, 0xBD, 0xED, 0xB8,
      0x80] := by
  decide +kernel

end JsonShape.Utf8
