import JsonShape.CommandLine.Integer
import Mathlib.Data.List.TakeWhile

/-!
# Decimal numerals on the command line

The usual decimal numeral of a natural number holds nothing that does not count, so it is read as
that number, unless it has more digits than an integer may have (`Integer.read?_toString`). Blanks
around it and zeros in front of it make no difference (`Integer.read?_padded`).
-/

namespace JsonShape.CommandLine.Integer

/-! ## Digits -/

/-- A digit is no blank. -/
theorem isBlank_of_isDigit {c : Char} (h : c.isDigit = true) : isBlank c = false := by
  have hrange : 0x30 ≤ c.toNat ∧ c.toNat ≤ 0x39 := by
    simpa [Char.isDigit, UInt32.le_iff_toNat_le] using h
  simp [isBlank]
  omega

/-- Blanks around digits are taken away, and no digit is. -/
theorem trim_of_digits {left cs right : List Char} (hleft : ∀ c ∈ left, isBlank c = true)
    (hright : ∀ c ∈ right, isBlank c = true) (hne : cs ≠ []) (h : ∀ c ∈ cs, c.isDigit = true) :
    trim (left ++ cs ++ right) = cs := by
  have hdrop : ∀ {ds more : List Char}, ds ≠ [] → (∀ c ∈ ds, c.isDigit = true) →
      (ds ++ more).dropWhile isBlank = ds ++ more := by
    intro ds more hds hall
    obtain ⟨c, rest, rfl⟩ := List.exists_cons_of_ne_nil hds
    rw [List.cons_append, List.dropWhile_cons_of_neg]
    simp [isBlank_of_isDigit (hall c List.mem_cons_self)]
  have hback : cs.reverse.dropWhile isBlank = cs.reverse := by
    simpa using @hdrop cs.reverse [] (List.reverse_ne_nil_iff.2 hne) (by simpa using h)
  rw [trim, List.append_assoc, List.dropWhile_append_of_pos hleft, hdrop hne h,
    List.reverse_append, List.dropWhile_append_of_pos (by simpa using hright), hback,
    List.reverse_reverse]

/-- No point stands among digits. -/
theorem dropFraction_of_digits {cs : List Char} (h : ∀ c ∈ cs, c.isDigit = true) :
    dropFraction cs = cs := by
  have hpoint : cs.dropWhile (· ≠ '.') = [] := by
    rw [List.dropWhile_eq_nil_iff]
    intro c hc
    rw [decide_eq_true_eq]
    rintro rfl
    exact absurd (h '.' hc) (by decide)
  rw [dropFraction, hpoint]

/-- No underscore stands among digits. -/
theorem joinOn?_of_digits {cs : List Char} (h : ∀ c ∈ cs, c.isDigit = true) :
    joinOn? cs = some cs := by
  fun_induction joinOn? cs with
  | case1 => rfl
  | case2 | case3 | case4 => exact absurd (h '_' List.mem_cons_self) (by decide)
  | case5 c rest _ _ ih =>
    rw [ih fun d hd => h d (List.mem_cons_of_mem c hd)]
    rfl

/-! ## Decimal numerals -/

/-- The numeral of a positive number starts with another digit than zero. -/
theorem exists_toDigits {n : Nat} (h : 0 < n) :
    ∃ c rest, Nat.toDigits 10 n = c :: rest ∧ c ≠ '0' := by
  induction n using Nat.strongRecOn with
  | ind n ih =>
    rw [Nat.toDigits_eq_if (by decide)]
    split
    · next hn =>
      refine ⟨_, [], rfl, ?_⟩
      rw [Ne, Nat.digitChar_eq_zero]
      omega
    · next hn =>
      obtain ⟨c, rest, hdigits, hc⟩ := ih (n / 10) (by omega) (by omega)
      exact ⟨c, rest ++ [(n % 10).digitChar], by rw [hdigits]; rfl, hc⟩

/-- All characters of a decimal numeral are digits. -/
theorem isDigit_of_mem {n : Nat} : ∀ c ∈ Nat.toDigits 10 n, c.isDigit = true :=
  fun _ hc => Nat.isDigit_of_mem_toDigits (by decide) (by decide) hc

/-- Nothing in front of another character than a digit starts a decimal numeral. -/
theorem toDigits_ne_cons {n : Nat} {c : Char} (h : c.isDigit = false) (rest : List Char) :
    Nat.toDigits 10 n ≠ c :: rest := by
  intro e
  have hc := isDigit_of_mem c (e ▸ List.mem_cons_self)
  rw [h] at hc
  cases hc

/-- Behind a zero, more zeros are taken away up to a decimal numeral. -/
theorem dropZeros?_append_toDigits (k n : Nat) :
    dropZeros? '0' (List.replicate k '0' ++ Nat.toDigits 10 n) = some (Nat.toDigits 10 n) := by
  induction k with
  | zero =>
    rw [List.replicate_zero, List.nil_append]
    obtain rfl | hpos := n.eq_zero_or_pos
    · rfl
    · obtain ⟨c, rest, hcs, hc⟩ := exists_toDigits hpos
      have hdigit := isDigit_of_mem c (hcs ▸ List.mem_cons_self)
      have hunderscore : c ≠ '_' := by
        rintro rfl
        cases hdigit
      simp [hcs, dropZeros?, hc, hunderscore, hdigit]
  | succ k ih => exact ih

/-- Zeros in front of a decimal numeral do not count. -/
theorem significant?_append_toDigits (k n : Nat) :
    significant? (List.replicate k '0' ++ Nat.toDigits 10 n) = some (Nat.toDigits 10 n) := by
  cases k with
  | zero =>
    rw [List.replicate_zero, List.nil_append]
    obtain rfl | hpos := n.eq_zero_or_pos
    · rfl
    · obtain ⟨c, rest, hcs, hc⟩ := exists_toDigits hpos
      have hdigit := isDigit_of_mem c (hcs ▸ List.mem_cons_self)
      rw [hcs, significant?, if_neg hc, if_pos hdigit]
  | succ k => exact dropZeros?_append_toDigits k n

/-- A decimal numeral is what counts of itself with zeros in front. -/
theorem plain?_append_toDigits (k n : Nat) :
    plain? (List.replicate k '0' ++ Nat.toDigits 10 n) = some (Nat.toDigits 10 n) := by
  have hjoin : join? (Nat.toDigits 10 n) = joinOn? (Nat.toDigits 10 n) :=
    join?.eq_2 _ fun rest => toDigits_ne_cons (by decide) rest
  rw [plain?, significant?_append_toDigits, Option.bind_some,
    dropFraction_of_digits isDigit_of_mem, hjoin, joinOn?_of_digits isDigit_of_mem]

/-- A decimal numeral that is not too long has the value of its number. -/
theorem digits?_toDigits {n : Nat} (h : (Nat.toDigits 10 n).length ≤ maxDigits) :
    digits? (Nat.toDigits 10 n) = some n := by
  obtain rfl | hpos := n.eq_zero_or_pos
  · rfl
  have hvalue := Nat.ofDigitChars_toDigits (b := 10) (n := n) (by decide) (by decide)
  rw [Nat.ofDigitChars_eq_foldl] at hvalue
  have hall : (Nat.toDigits 10 n).all Char.isDigit = true := List.all_eq_true.2 isDigit_of_mem
  obtain ⟨c, rest, hcs, hc⟩ := exists_toDigits hpos
  rw [hcs] at h hvalue hall
  rw [hcs, digits?.eq_3 _ _ fun h0 => absurd h0 hc, hall]
  have hshort : rest.length < maxDigits := h
  simp only [hc, hshort, ne_eq, not_false_eq_true, decide_true, Bool.and_self, if_true]
  simp only [Nat.mul_comm 10] at hvalue
  exact congrArg some hvalue

/-- Neither blanks around a decimal numeral nor zeros in front of it count. -/
theorem read?_padded {left right : List Char} (hleft : ∀ c ∈ left, isBlank c = true)
    (hright : ∀ c ∈ right, isBlank c = true) (k : Nat) {n : Nat}
    (h : (Nat.toDigits 10 n).length ≤ maxDigits) :
    read? (.ofList (left ++ (List.replicate k '0' ++ Nat.toDigits 10 n) ++ right)) =
      some (n : Int) := by
  have hall : ∀ c ∈ List.replicate k '0' ++ Nat.toDigits 10 n, c.isDigit = true := by
    refine List.forall_mem_append.2 ⟨fun c hc => ?_, isDigit_of_mem⟩
    rw [List.eq_of_mem_replicate hc]
    rfl
  have hne : List.replicate k '0' ++ Nat.toDigits 10 n ≠ [] :=
    List.append_ne_nil_of_right_ne_nil _ Nat.toDigits_ne_nil
  have hsign : ∀ {c : Char}, c.isDigit = false → ∀ cs,
      List.replicate k '0' ++ Nat.toDigits 10 n ≠ c :: cs := by
    intro c hc cs e
    have hdigit := hall c (e ▸ List.mem_cons_self)
    rw [hc] at hdigit
    cases hdigit
  rw [read?, String.toList_ofList, trim_of_digits hleft hright hne hall]
  split
  · next cs e => exact absurd e (hsign (by decide) cs)
  · next cs e => exact absurd e (hsign (by decide) cs)
  · rw [plain?_append_toDigits, Option.bind_some,
      value?.eq_2 _ fun cs => toDigits_ne_cons (by decide) cs, digits?_toDigits h]
    rfl

example : read? " 0012\n" = some 12 := by decide +kernel
example : read? "000" = some 0 := by decide +kernel

/-- The decimal numeral of a natural number is read as that number, if it is not too long. -/
theorem read?_toString {n : Nat} (h : (toString n).length ≤ maxDigits) :
    read? (toString n) = some (n : Int) := by
  rw [Nat.toString_eq_ofList_toDigits] at h ⊢
  rw [String.length_ofList] at h
  simpa using @read?_padded [] [] nofun nofun 0 n h

end JsonShape.CommandLine.Integer
