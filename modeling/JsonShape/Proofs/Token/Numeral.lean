import JsonShape.Grammar.Numeral

/-!
# Numerals read from left to right

Each place in a numeral bears certain characters behind it: `Numeral.Place.Bears` says which ones
make the numeral complete. A character leads from one place to another exactly if what the first
bears is that character and what the second bears (`Numeral.Place.bears_cons`), so the reader of
numerals ends where one may end exactly if it has read a numeral (`Numeral.isFinal_reach_iff`).
-/

namespace JsonShape.Numeral

/-! ## The parts of a numeral, character by character -/

/-- No digits are no run of digits. -/
theorem not_isDigits_nil : ¬IsDigits [] :=
  fun h => h.1 rfl

/-- A run of digits is a digit and then any digits. -/
theorem isDigits_cons {c : Char} {cs : List Char} :
    IsDigits (c :: cs) ↔ c.isDigit = true ∧ ∀ d ∈ cs, d.isDigit = true := by
  simp [IsDigits]

/-- What may follow the mark of an exponent. -/
def IsMarked (cs : List Char) : Prop :=
  ∃ sign ds, cs = sign ++ ds ∧ (sign = [] ∨ sign = ['+'] ∨ sign = ['-']) ∧ IsDigits ds

/-- An exponent starts with its mark. -/
theorem isExponent_cons {c : Char} {cs : List Char} :
    IsExponent (c :: cs) ↔ (c = 'e' ∨ c = 'E') ∧ IsMarked cs := by
  constructor
  · rintro ⟨⟩
    exact ⟨‹_›, _, _, rfl, ‹_›, ‹_›⟩
  · rintro ⟨hm, sign, ds, rfl, hs, h⟩
    exact .digits hm hs h

/-- A sign or a digit follows the mark of an exponent. -/
theorem isMarked_cons {c : Char} {cs : List Char} :
    IsMarked (c :: cs) ↔
      (c = '+' ∨ c = '-') ∧ IsDigits cs ∨ c.isDigit = true ∧ ∀ d ∈ cs, d.isDigit = true := by
  constructor
  · rintro ⟨sign, ds, h, rfl | rfl | rfl, hd⟩
    · rw [List.nil_append] at h
      subst h
      exact .inr (isDigits_cons.1 hd)
    · cases h
      exact .inl ⟨.inl rfl, hd⟩
    · cases h
      exact .inl ⟨.inr rfl, hd⟩
  · rintro (⟨rfl | rfl, hd⟩ | hd)
    · exact ⟨['+'], cs, rfl, .inr (.inl rfl), hd⟩
    · exact ⟨['-'], cs, rfl, .inr (.inr rfl), hd⟩
    · exact ⟨[], c :: cs, rfl, .inl rfl, isDigits_cons.2 hd⟩

/-- Digits, and then an exponent if need be. -/
def IsFractionTail (cs : List Char) : Prop :=
  ∃ ds ex, cs = ds ++ ex ∧ (∀ d ∈ ds, d.isDigit = true) ∧ IsExponent ex

/-- The digits of a fraction go on, or the exponent comes. -/
theorem isFractionTail_cons {c : Char} {cs : List Char} :
    IsFractionTail (c :: cs) ↔ c.isDigit = true ∧ IsFractionTail cs ∨ IsExponent (c :: cs) := by
  constructor
  · rintro ⟨ds, ex, h, hd, he⟩
    cases ds with
    | nil =>
      rw [List.nil_append] at h
      exact .inr (h ▸ he)
    | cons d ds =>
      cases h
      rw [List.forall_mem_cons] at hd
      exact .inl ⟨hd.1, ds, ex, rfl, hd.2, he⟩
  · rintro (⟨hc, ds, ex, rfl, hd, he⟩ | he)
    · exact ⟨c :: ds, ex, rfl, List.forall_mem_cons.2 ⟨hc, hd⟩, he⟩
    · exact ⟨[], c :: cs, rfl, nofun, he⟩

/-- A fraction and an exponent, each if need be. -/
def IsWholeTail (cs : List Char) : Prop :=
  ∃ fr ex, cs = fr ++ ex ∧ IsFraction fr ∧ IsExponent ex

/-- A digit of the fraction and what may follow it. -/
def IsPointed (cs : List Char) : Prop :=
  ∃ d ds, cs = d :: ds ∧ d.isDigit = true ∧ IsFractionTail ds

/-- A digit comes behind the point. -/
theorem isPointed_cons {c : Char} {cs : List Char} :
    IsPointed (c :: cs) ↔ c.isDigit = true ∧ IsFractionTail cs := by
  constructor
  · rintro ⟨d, ds, ⟨⟩, hd, ht⟩
    exact ⟨hd, ht⟩
  · rintro ⟨hc, ht⟩
    exact ⟨c, cs, rfl, hc, ht⟩

/-- A point with digits behind it comes, or the exponent. -/
theorem isWholeTail_cons {c : Char} {cs : List Char} :
    IsWholeTail (c :: cs) ↔ c = '.' ∧ IsPointed cs ∨ IsExponent (c :: cs) := by
  constructor
  · rintro ⟨fr, ex, h, hf, he⟩
    cases hf with
    | none =>
      rw [List.nil_append] at h
      exact .inr (h ▸ he)
    | @digits ds hd =>
      cases h
      cases ds with
      | nil => exact absurd hd not_isDigits_nil
      | cons d ds =>
        rw [isDigits_cons] at hd
        exact .inl ⟨rfl, d, ds ++ ex, rfl, hd.1, ds, ex, rfl, hd.2, he⟩
  · rintro (⟨rfl, d, _, rfl, hc, ds, ex, rfl, hd, he⟩ | he)
    · exact ⟨'.' :: d :: ds, ex, rfl, .digits (isDigits_cons.2 ⟨hc, hd⟩), he⟩
    · exact ⟨[], c :: cs, rfl, .none, he⟩

/-- Digits of a whole part, and what may follow it. -/
def IsDigitsTail (cs : List Char) : Prop :=
  ∃ ds tail, cs = ds ++ tail ∧ (∀ d ∈ ds, d.isDigit = true) ∧ IsWholeTail tail

/-- The digits of a whole part go on, or the whole part is over. -/
theorem isDigitsTail_cons {c : Char} {cs : List Char} :
    IsDigitsTail (c :: cs) ↔ c.isDigit = true ∧ IsDigitsTail cs ∨ IsWholeTail (c :: cs) := by
  constructor
  · rintro ⟨ds, tail, h, hd, ht⟩
    cases ds with
    | nil =>
      rw [List.nil_append] at h
      exact .inr (h ▸ ht)
    | cons d ds =>
      cases h
      rw [List.forall_mem_cons] at hd
      exact .inl ⟨hd.1, ds, tail, rfl, hd.2, ht⟩
  · rintro (⟨hc, ds, tail, rfl, hd, ht⟩ | ht)
    · exact ⟨c :: ds, tail, rfl, List.forall_mem_cons.2 ⟨hc, hd⟩, ht⟩
    · exact ⟨[], c :: cs, rfl, nofun, ht⟩

/-- A numeral without its sign. -/
def IsUnsigned (cs : List Char) : Prop :=
  ∃ whole tail, cs = whole ++ tail ∧ IsWhole whole ∧ IsWholeTail tail

/-- Something stands in front of the tail of a numeral. -/
theorem not_isUnsigned_nil : ¬IsUnsigned [] := by
  rintro ⟨whole, tail, h, hw, -⟩
  rw [List.nil_eq, List.append_eq_nil_iff] at h
  rw [h.1] at hw
  cases hw

/-- A numeral without its sign starts with a zero, or with another digit and more digits. -/
theorem isUnsigned_cons {c : Char} {cs : List Char} :
    IsUnsigned (c :: cs) ↔
      c = '0' ∧ IsWholeTail cs ∨ c ≠ '0' ∧ c.isDigit = true ∧ IsDigitsTail cs := by
  constructor
  · rintro ⟨whole, tail, h, hw, ht⟩
    cases hw with
    | zero =>
      cases h
      exact .inl ⟨rfl, ht⟩
    | digits first hd =>
      cases h
      rw [isDigits_cons] at hd
      exact .inr ⟨first, hd.1, _, tail, rfl, hd.2, ht⟩
  · rintro (⟨rfl, ht⟩ | ⟨first, hc, ds, tail, rfl, hd, ht⟩)
    · exact ⟨['0'], cs, rfl, .zero, ht⟩
    · exact ⟨c :: ds, tail, rfl, .digits first (isDigits_cons.2 ⟨hc, hd⟩), ht⟩

/-- A numeral may have a sign. -/
theorem isNumeral_iff {cs : List Char} :
    IsNumeral cs ↔ ∃ sign tail, cs = sign ++ tail ∧ (sign = [] ∨ sign = ['-']) ∧
      IsUnsigned tail := by
  constructor
  · rintro ⟨sign, whole, fr, ex, rfl, hs, hw, hf, he⟩
    exact ⟨sign, whole ++ (fr ++ ex), by simp, hs, whole, _, rfl, hw, fr, ex, rfl, hf, he⟩
  · rintro ⟨sign, _, rfl, hs, whole, _, rfl, hw, fr, ex, rfl, hf, he⟩
    exact ⟨sign, whole, fr, ex, by simp, hs, hw, hf, he⟩

/-- A numeral starts with its sign, or it has none. -/
theorem isNumeral_cons {c : Char} {cs : List Char} :
    IsNumeral (c :: cs) ↔ c = '-' ∧ IsUnsigned cs ∨ IsUnsigned (c :: cs) := by
  rw [isNumeral_iff]
  constructor
  · rintro ⟨sign, tail, h, rfl | rfl, ht⟩
    · rw [List.nil_append] at h
      exact .inr (h ▸ ht)
    · cases h
      exact .inl ⟨rfl, ht⟩
  · rintro (⟨rfl, ht⟩ | ht)
    · exact ⟨['-'], cs, rfl, .inr rfl, ht⟩
    · exact ⟨[], c :: cs, rfl, .inl rfl, ht⟩

/-! ## What places bear -/

namespace Place

/-- The characters that complete a numeral from a place on. -/
def Bears : Place → List Char → Prop
  | start, cs => IsNumeral cs
  | minus, cs => IsUnsigned cs
  | zero, cs => IsWholeTail cs
  | whole, cs => IsDigitsTail cs
  | point, cs => IsPointed cs
  | fraction, cs => IsFractionTail cs
  | mark, cs => IsMarked cs
  | sign, cs => IsDigits cs
  | exponent, cs => ∀ c ∈ cs, c.isDigit = true
  | astray, _ => False

/-- Nothing more is needed where a numeral may end. -/
theorem bears_nil (p : Place) : p.Bears [] ↔ p.isFinal = true := by
  have htail : IsWholeTail [] := ⟨[], [], rfl, .none, .none⟩
  cases p with
  | start =>
    have hne : ¬IsNumeral [] := by
      rw [isNumeral_iff]
      rintro ⟨sign, tail, h, -, ht⟩
      rw [List.nil_eq, List.append_eq_nil_iff] at h
      exact not_isUnsigned_nil (h.2 ▸ ht)
    simpa [Bears, isFinal] using hne
  | minus => simpa [Bears, isFinal] using not_isUnsigned_nil
  | zero => simpa [Bears, isFinal] using htail
  | whole => simpa [Bears, isFinal] using ⟨[], [], rfl, nofun, htail⟩
  | point => simp [Bears, IsPointed, isFinal]
  | fraction => simpa [Bears, isFinal] using ⟨[], [], rfl, nofun, IsExponent.none⟩
  | mark =>
    have hne : ¬IsMarked [] := by
      rintro ⟨sign, ds, h, -, hd⟩
      rw [List.nil_eq, List.append_eq_nil_iff] at h
      exact hd.1 h.2
    simpa [Bears, isFinal] using hne
  | sign => simpa [Bears, isFinal] using not_isDigits_nil
  | exponent => simp [Bears, isFinal]
  | astray => simp [Bears, isFinal]

/-- The mark of an exponent is no digit. -/
theorem isDigit_of_mark {c : Char} (h : c = 'e' ∨ c = 'E') : c.isDigit = false := by
  rcases h with rfl | rfl <;> rfl

/-- Behind a whole part, a character leads to the point or to the mark. -/
theorem bears_afterWhole {c : Char} {cs : List Char} :
    IsWholeTail (c :: cs) ↔ (afterWhole c).Bears cs := by
  rw [isWholeTail_cons, isExponent_cons, afterWhole]
  by_cases hpoint : c = '.'
  · subst hpoint
    simp [Bears]
  · by_cases hmark : c = 'e' ∨ c = 'E' <;> simp [Bears, hpoint, hmark]

/-- A digit is nothing that comes behind a whole part. -/
theorem afterWhole_of_isDigit {c : Char} (h : c.isDigit = true) : afterWhole c = astray := by
  have hpoint : c ≠ '.' := by rintro rfl; cases h
  have hmark : ¬(c = 'e' ∨ c = 'E') := fun e => by simp [isDigit_of_mark e] at h
  simp [afterWhole, hpoint, hmark]

/-- In front of the whole part, a digit leads into it. -/
theorem bears_first {c : Char} {cs : List Char} :
    IsUnsigned (c :: cs) ↔ (first c).Bears cs := by
  rw [isUnsigned_cons, first]
  by_cases hzero : c = '0'
  · simp [Bears, hzero]
  · by_cases hdigit : c.isDigit = true <;> simp [Bears, hzero, hdigit]

/-- A place bears a character and what the place behind the character bears. -/
theorem bears_cons (p : Place) (c : Char) (cs : List Char) :
    p.Bears (c :: cs) ↔ (p.step c).Bears cs := by
  cases p with
  | start =>
    rw [Bears, isNumeral_cons, bears_first, step]
    by_cases hminus : c = '-'
    · subst hminus
      simp [Bears, first]
    · simp [hminus]
  | minus => exact bears_first
  | zero => exact bears_afterWhole
  | whole =>
    rw [Bears, isDigitsTail_cons, bears_afterWhole, step]
    by_cases hdigit : c.isDigit = true
    · simp [Bears, hdigit, afterWhole_of_isDigit hdigit]
    · simp [hdigit]
  | point =>
    rw [Bears, isPointed_cons, step]
    by_cases hdigit : c.isDigit = true <;> simp [Bears, hdigit]
  | fraction =>
    rw [Bears, isFractionTail_cons, isExponent_cons, step]
    by_cases hdigit : c.isDigit = true
    · have hmark : ¬(c = 'e' ∨ c = 'E') := fun h => by simp [isDigit_of_mark h] at hdigit
      simp [Bears, hdigit, hmark]
    · by_cases hmark : c = 'e' ∨ c = 'E' <;> simp [Bears, hdigit, hmark]
  | mark =>
    rw [Bears, isMarked_cons, step]
    by_cases hsign : c = '+' ∨ c = '-'
    · have hdigit : c.isDigit = false := by rcases hsign with rfl | rfl <;> rfl
      simp [Bears, hsign, hdigit]
    · by_cases hdigit : c.isDigit = true <;> simp [Bears, hsign, hdigit]
  | sign =>
    rw [Bears, isDigits_cons, step]
    by_cases hdigit : c.isDigit = true <;> simp [Bears, hdigit]
  | exponent =>
    rw [Bears, List.forall_mem_cons, step]
    by_cases hdigit : c.isDigit = true <;> simp [Bears, hdigit]
  | astray => exact Iff.rfl

/-- Characters lead from a place to the end of a numeral exactly if the place bears them. -/
theorem isFinal_foldl_step (p : Place) (cs : List Char) :
    (cs.foldl step p).isFinal = true ↔ p.Bears cs := by
  induction cs generalizing p with
  | nil => exact (bears_nil p).symm
  | cons c cs ih => rw [List.foldl_cons, ih, bears_cons]

/-- Nothing else than the characters of numbers leads on. -/
theorem step_of_not_isNumeralChar {c : Char} (h : isNumeralChar c = false) (p : Place) :
    p.step c = astray := by
  simp only [isNumeralChar, Bool.or_eq_false_iff, decide_eq_false_iff_not] at h
  obtain ⟨⟨⟨⟨⟨hdigit, hplus⟩, hminus⟩, hpoint⟩, he⟩, hE⟩ := h
  have hzero : c ≠ '0' := by rintro rfl; cases hdigit
  cases p <;> simp [step, first, afterWhole, hdigit, hplus, hminus, hpoint, he, hE, hzero]

/-- What a place bears are characters of numbers. -/
theorem Bears.isNumeralChar {p : Place} {cs : List Char} (h : p.Bears cs) :
    ∀ c ∈ cs, isNumeralChar c = true := by
  induction cs generalizing p with
  | nil => exact nofun
  | cons c cs ih =>
    rw [bears_cons] at h
    refine List.forall_mem_cons.2 ⟨?_, ih h⟩
    rw [← Bool.not_eq_false]
    intro hc
    rw [step_of_not_isNumeralChar hc] at h
    exact h

end Place

/-- The reader of numerals ends where one may end exactly if it has read a numeral. -/
theorem isFinal_reach_iff {cs : List Char} : (reach cs).isFinal = true ↔ IsNumeral cs :=
  Place.isFinal_foldl_step .start cs

/-- A numeral starts with a minus or a digit. -/
theorem IsNumeral.exists_cons {cs : List Char} (h : IsNumeral cs) :
    ∃ c ds, cs = c :: ds ∧ (c = '-' ∨ c.isDigit = true) := by
  cases cs with
  | nil => exact absurd h fun h => by simpa [Place.isFinal] using (Place.bears_nil .start).1 h
  | cons c cs =>
    refine ⟨c, cs, rfl, ?_⟩
    rw [isNumeral_cons, isUnsigned_cons] at h
    rcases h with ⟨hc, -⟩ | ⟨rfl, -⟩ | ⟨-, hc, -⟩
    · exact .inl hc
    · exact .inr rfl
    · exact .inr hc

end JsonShape.Numeral
