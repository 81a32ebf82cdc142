import JsonShape.Grammar.Spelling
import JsonShape.Proofs.Text.Utf8
import JsonShape.Token.Scan

/-!
# Spelled characters as the scan of a string sees them

The grammar of strings says which bytes spell a character; the scan of a string looks at one byte at
a time. The lemmas here tie the two, for each way of spelling: bytes that stand for themselves
(`Grammar.spelledText_of_isRaw`), short escapes (`Scan.shortEscape?_eq_some_iff`), hexadecimal
digits (`Scan.hexDigit?_eq_some_iff`), and the two surrogates of a pair
(`Scan.spelledChar_pairChar`, `Scan.surrogates_of_le`).
-/

namespace JsonShape

namespace Grammar

/-- A byte that may stand for itself in a string. -/
def IsRaw (b : UInt8) : Prop :=
  b ≠ 0x22 ∧ b ≠ 0x5C ∧ ¬b < 0x20

/-- The bytes of characters that may stand for themselves are bytes that may. -/
theorem isRaw_of_mem_encodeChar {c : Char} (control : 0x20 ≤ c.toNat) (quote : c ≠ '"')
    (backslash : c ≠ '\\') {b : UInt8} (hb : b ∈ String.utf8EncodeChar c) : IsRaw b := by
  by_cases hc : c.toNat < 0x80
  · rw [Utf8.encodeChar_of_lt hc, List.mem_singleton] at hb
    have hn : b.toNat = c.toNat := by
      rw [hb, UInt8.toNat_ofNat_of_lt' (Nat.lt_trans hc (by decide))]
    refine ⟨?_, ?_, ?_⟩
    · rintro rfl
      exact quote (Char.toNat_inj.1 hn.symm)
    · rintro rfl
      exact backslash (Char.toNat_inj.1 hn.symm)
    · rw [UInt8.lt_iff_toNat_lt, hn]
      exact Nat.not_lt.2 control
  · have hn := Utf8.le_of_mem_encodeChar (Nat.not_lt.1 hc) hb
    refine ⟨?_, ?_, ?_⟩
    · rintro rfl
      exact absurd hn (by decide)
    · rintro rfl
      exact absurd hn (by decide)
    · rw [UInt8.lt_iff_toNat_lt]
      exact fun h => absurd (Nat.lt_of_le_of_lt hn h) (by decide)

/-- Bytes that may stand for themselves spell the character whose bytes they are. -/
theorem spelledChar_of_isRaw {c : Char} (h : ∀ b ∈ String.utf8EncodeChar c, IsRaw b) :
    SpelledChar c (String.utf8EncodeChar c) := by
  by_cases hc : c.toNat < 0x80
  · obtain ⟨quote, backslash, control⟩ :=
      h (UInt8.ofNat c.toNat) (by rw [Utf8.encodeChar_of_lt hc]; exact List.mem_singleton_self _)
    refine .raw ?_ ?_ ?_
    · rw [UInt8.lt_iff_toNat_lt, UInt8.toNat_ofNat_of_lt' (Nat.lt_trans hc (by decide))] at control
      exact Nat.not_lt.1 control
    · rintro rfl
      exact quote rfl
    · rintro rfl
      exact backslash rfl
  · refine .raw (by omega) ?_ ?_ <;> rintro rfl <;> exact hc (by decide)

/-- Bytes that may stand for themselves spell the string whose bytes they are. -/
theorem spelledText_of_isRaw {s : String} (h : ∀ b ∈ Utf8.encodeString s, IsRaw b) :
    SpelledText s.toList (Utf8.encodeString s) := by
  have hchars : ∀ cs : List Char, (∀ b ∈ cs.flatMap String.utf8EncodeChar, IsRaw b) →
      SpelledText cs (cs.flatMap String.utf8EncodeChar) := by
    intro cs
    induction cs with
    | nil => exact fun _ => .nil
    | cons c cs ih =>
      rw [List.flatMap_cons, List.forall_mem_append]
      rintro ⟨hc, hcs⟩
      exact .cons (spelledChar_of_isRaw hc) (ih hcs)
  exact hchars s.toList h

/-- Spelled characters may stand behind spelled characters. -/
theorem SpelledText.append {cs ds : List Char} {bytes rest : List UInt8}
    (h : SpelledText cs bytes) (hs : SpelledText ds rest) :
    SpelledText (cs ++ ds) (bytes ++ rest) := by
  induction h with
  | nil => exact hs
  | cons h _ ih =>
    rw [List.append_assoc]
    exact .cons h ih

/-- One more spelled character may stand behind spelled characters. -/
theorem SpelledText.push {text : String} {c : Char} {bytes rest : List UInt8}
    (h : SpelledText text.toList bytes) (hc : SpelledChar c rest) :
    SpelledText (text.push c).toList (bytes ++ rest) := by
  have hone : SpelledText [c] rest := by simpa using SpelledText.cons hc .nil
  rw [String.toList_push]
  exact h.append hone

/-- A decoded run of bytes that stand for themselves may stand behind spelled characters. -/
theorem SpelledText.append_run {text s : String} {bytes run : List UInt8}
    (h : SpelledText text.toList bytes) (hraw : ∀ b ∈ run, IsRaw b)
    (hs : Utf8.decode? run.reverse = some s) :
    SpelledText (text ++ s).toList (bytes ++ run.reverse) := by
  rw [Utf8.decode?_eq_some_iff] at hs
  have hrun : ∀ b ∈ Utf8.encodeString s, IsRaw b := by
    rw [← hs]
    exact fun b hb => hraw b (List.mem_reverse.1 hb)
  rw [String.toList_append, hs]
  exact h.append (spelledText_of_isRaw hrun)

/-- Some hexadecimal digits have a value. -/
inductive HexRun : Nat → List UInt8 → Prop where
  | nil : HexRun 0 []
  | snoc {code d : Nat} {ds : List UInt8} {b : UInt8} (h : HexRun code ds) (hb : IsHexDigit d b) :
      HexRun (code * 16 + d) (ds ++ [b])

/-- Of several digits, the last one adds to the value of the others. -/
theorem HexRun.exists_of_length {code n : Nat} {ds : List UInt8} (h : HexRun code ds)
    (hl : ds.length = n + 1) : ∃ code' d ds' b, code = code' * 16 + d ∧ ds = ds' ++ [b] ∧
      ds'.length = n ∧ HexRun code' ds' ∧ IsHexDigit d b := by
  cases h with
  | nil => cases hl
  | snoc h hb => exact ⟨_, _, _, _, rfl, rfl, by simpa using hl, h, hb⟩

/-- No digits have the value zero. -/
theorem HexRun.eq_zero {code : Nat} {ds : List UInt8} (h : HexRun code ds)
    (hl : ds.length = 0) : code = 0 := by
  cases h with
  | nil => rfl
  | snoc => simp at hl

/-- Four hexadecimal digits are an escape by number. -/
theorem numberEscape_of_hexRun {code : Nat} {ds : List UInt8} (h : HexRun code ds)
    (hl : ds.length = 4) : NumberEscape code (0x5C :: 0x75 :: ds) := by
  obtain ⟨_, d, _, z, rfl, rfl, hl, h, hd⟩ := h.exists_of_length hl
  obtain ⟨_, c, _, y, rfl, rfl, hl, h, hc⟩ := h.exists_of_length hl
  obtain ⟨_, b, _, x, rfl, rfl, hl, h, hb⟩ := h.exists_of_length hl
  obtain ⟨_, a, _, w, rfl, rfl, hl, h, ha⟩ := h.exists_of_length hl
  obtain rfl := h.eq_zero hl
  obtain rfl := List.length_eq_zero_iff.1 hl
  have hcode : (((0 * 16 + a) * 16 + b) * 16 + c) * 16 + d =
      a * 0x1000 + b * 0x100 + c * 0x10 + d := by omega
  rw [hcode]
  exact .digits ha hb hc hd

/-- A number of four digits is below `10000`. -/
theorem NumberEscape.lt {code : Nat} {bytes : List UInt8} (h : NumberEscape code bytes) :
    code < 0x10000 := by
  cases h with
  | digits ha hb hc hd =>
    simp only [IsHexDigit] at ha hb hc hd
    omega

end Grammar

namespace Scan

open Grammar

/-- The scan knows the hexadecimal digits. -/
theorem hexDigit?_eq_some_iff {b : UInt8} {d : Nat} :
    hexDigit? b = some d ↔ IsHexDigit d b := by
  simp only [hexDigit?, IsHexDigit, Bool.and_eq_true, decide_eq_true_eq, UInt8.le_iff_toNat_le,
    UInt8.reduceToNat]
  split
  · rw [Option.some_inj]
    omega
  · split
    · rw [Option.some_inj]
      omega
    · split
      · rw [Option.some_inj]
        omega
      · simp only [reduceCtorEq, false_iff]
        omega

/-- The scan knows the short escapes. -/
theorem shortEscape?_eq_some_iff {b : UInt8} {c : Char} :
    shortEscape? b = some c ↔ (c, b) ∈ shortEscapes := by
  refine ⟨fun h => ?_, fun h => ?_⟩
  · unfold shortEscape? at h
    split at h <;> cases h <;> decide
  · simp only [shortEscapes, List.mem_cons, Prod.mk.injEq, List.not_mem_nil, or_false] at h
    rcases h with ⟨rfl, rfl⟩ | ⟨rfl, rfl⟩ | ⟨rfl, rfl⟩ | ⟨rfl, rfl⟩ | ⟨rfl, rfl⟩ | ⟨rfl, rfl⟩ |
      ⟨rfl, rfl⟩ | ⟨rfl, rfl⟩ <;> rfl

/-! ## Characters of numbers -/

/-- The characters of numbers are below `80`. -/
theorem toNat_lt_of_isNumeralChar {c : Char} (h : Numeral.isNumeralChar c = true) :
    c.toNat < 0x80 := by
  simp only [Numeral.isNumeralChar, Char.isDigit, Bool.or_eq_true, Bool.and_eq_true,
    decide_eq_true_eq] at h
  rcases h with ((((⟨-, h⟩ | rfl) | rfl) | rfl) | rfl) | rfl
  · exact Nat.lt_of_le_of_lt h (by decide)
  all_goals decide

/-- The scan knows the characters of numbers, which are single bytes. -/
theorem numeralChar?_eq_some_iff {b : UInt8} {c : Char} :
    numeralChar? b = some c ↔
      Numeral.isNumeralChar c = true ∧ String.utf8EncodeChar c = [b] := by
  have hvalid : b.toNat.isValidChar := .inl (Nat.lt_trans b.toNat_lt (by decide))
  refine ⟨fun h => ?_, ?_⟩
  · simp only [numeralChar?] at h
    split at h
    · next hc =>
      cases h
      refine ⟨hc, ?_⟩
      rw [Utf8.encodeChar_of_lt (toNat_lt_of_isNumeralChar hc), CodePoint.toNat_ofNat hvalid,
        UInt8.ofNat_toNat]
    · cases h
  · rintro ⟨hc, h⟩
    have hlt := toNat_lt_of_isNumeralChar hc
    rw [Utf8.encodeChar_of_lt hlt, List.singleton_inj] at h
    have hb : Char.ofNat b.toNat = c := by
      rw [← h, UInt8.toNat_ofNat_of_lt' (Nat.lt_trans hlt (by decide)), Char.ofNat_toNat]
    simp only [numeralChar?, hb, if_pos hc]

/-- A minus or a digit starts a number, and is a character of it. -/
theorem numeralChar?_of_start {b : UInt8} (h : (b = 0x2D || 0x30 ≤ b && b ≤ 0x39) = true) :
    numeralChar? b = some (Char.ofNat b.toNat) := by
  rw [Bool.or_eq_true, decide_eq_true_eq, Bool.and_eq_true, decide_eq_true_eq,
    decide_eq_true_eq] at h
  rcases h with rfl | ⟨hl, hu⟩
  · rfl
  · have hn : (Char.ofNat b.toNat).toNat = b.toNat :=
      CodePoint.toNat_ofNat (.inl (Nat.lt_trans b.toNat_lt (by decide)))
    have hdigit : (Char.ofNat b.toNat).isDigit = true := by
      simp only [Char.isDigit, Bool.and_eq_true, decide_eq_true_eq, ge_iff_le,
        UInt32.le_iff_toNat_le]
      rw [UInt8.le_iff_toNat_le] at hl hu
      exact ⟨Nat.le_trans hl (Nat.le_of_eq hn.symm), Nat.le_trans (Nat.le_of_eq hn) hu⟩
    simp [numeralChar?, Numeral.isNumeralChar, hdigit]

/-! ## Surrogates -/

/-- A character has no surrogate for its number. -/
theorem isValidChar_toNat (c : Char) : c.toNat.isValidChar :=
  c.valid

/-- The number of a pair's character tells the surrogates apart. -/
theorem pairChar_toNat {high low : Nat} (hh : isHighSurrogate high = true)
    (hl : isLowSurrogate low = true) :
    (pairChar high low).toNat = 0x10000 + (high - 0xD800) * 0x400 + (low - 0xDC00) := by
  simp only [isHighSurrogate, isLowSurrogate, Bool.and_eq_true, decide_eq_true_eq] at hh hl
  exact CodePoint.toNat_ofNat (.inr (by omega))

/-- Two surrogates that are escaped spell the character of the pair. -/
theorem spelledChar_pairChar {high low : Nat} {bytes rest : List UInt8}
    (hh : isHighSurrogate high = true) (hl : isLowSurrogate low = true)
    (h : NumberEscape high bytes) (hs : NumberEscape low rest) :
    SpelledChar (pairChar high low) (bytes ++ rest) := by
  have hn := pairChar_toNat hh hl
  simp only [isHighSurrogate, isLowSurrogate, Bool.and_eq_true, decide_eq_true_eq] at hh hl
  have hhigh : 0xD800 + ((pairChar high low).toNat - 0x10000) / 0x400 = high := by omega
  have hlow : 0xDC00 + ((pairChar high low).toNat - 0x10000) % 0x400 = low := by omega
  exact .pair (by omega) (hhigh.symm ▸ h) (hlow.symm ▸ hs)

/-- A number that is no surrogate spells its character. -/
theorem spelledChar_ofNat {code : Nat} {bytes : List UInt8}
    (hh : isHighSurrogate code = false) (hl : isLowSurrogate code = false)
    (h : NumberEscape code bytes) : SpelledChar (Char.ofNat code) bytes := by
  have hlt := h.lt
  simp only [isHighSurrogate, isLowSurrogate, Bool.and_eq_false_iff, decide_eq_false_iff_not]
    at hh hl
  have hvalid : code.isValidChar := by
    simp only [Nat.isValidChar]
    omega
  exact .number ((CodePoint.toNat_ofNat hvalid).symm ▸ h)

/-- A character has no surrogate for its number. -/
theorem not_isSurrogate_toNat (c : Char) :
    isHighSurrogate c.toNat = false ∧ isLowSurrogate c.toNat = false := by
  have hc := isValidChar_toNat c
  simp only [Nat.isValidChar] at hc
  simp only [isHighSurrogate, isLowSurrogate, Bool.and_eq_false_iff, decide_eq_false_iff_not]
  omega

/-- A character from `10000` on has two surrogates, and is the character of the pair. -/
theorem surrogates_of_le {c : Char} (h : 0x10000 ≤ c.toNat) :
    isHighSurrogate (0xD800 + (c.toNat - 0x10000) / 0x400) = true ∧
      isLowSurrogate (0xDC00 + (c.toNat - 0x10000) % 0x400) = true ∧
      pairChar (0xD800 + (c.toNat - 0x10000) / 0x400) (0xDC00 + (c.toNat - 0x10000) % 0x400) =
        c := by
  have hc := isValidChar_toNat c
  simp only [Nat.isValidChar] at hc
  have hhigh : isHighSurrogate (0xD800 + (c.toNat - 0x10000) / 0x400) = true := by
    simp only [isHighSurrogate, Bool.and_eq_true, decide_eq_true_eq]
    omega
  have hlow : isLowSurrogate (0xDC00 + (c.toNat - 0x10000) % 0x400) = true := by
    simp only [isLowSurrogate, Bool.and_eq_true, decide_eq_true_eq]
    omega
  refine ⟨hhigh, hlow, Char.toNat_inj.1 ?_⟩
  rw [pairChar_toNat hhigh hlow]
  omega

end Scan

end JsonShape
