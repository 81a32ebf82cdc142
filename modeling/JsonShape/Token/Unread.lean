import JsonShape.Token.Lexer

/-!
# Every token takes a byte

A scan is inside a token once it has taken a byte of it. From between two tokens, therefore, a token
costs at least one byte, and the lexer comes nearer to the end of its source with each token that it
yields: `Lexer.unread_lt_of_next`.
-/

namespace JsonShape

namespace Scan

/-- A scan that has taken a byte of its token. -/
def isInside : Scan → Bool
  | blank => false
  | _ => true

theorem tokenBefore_isInside {scan : Scan} {offset : Nat} {b : UInt8} {t : Token}
    (h : scan.step offset b = .tokenBefore t) : scan.isInside = true := by
  cases scan with
  | blank =>
    simp only [step, stepBlank] at h
    repeat' split at h
    all_goals cases h
  | _ => rfl

/-- A token is made of the bytes taken, and of at least one of these unless the scan was in the
middle of it already. -/
theorem run_token_length {scan : Scan} {offset offset' : Nat} {bytes rest : List UInt8} {t : Token}
    (h : scan.run offset bytes = .token t offset' rest) :
    rest.length + (if scan.isInside then 0 else 1) ≤ bytes.length := by
  induction bytes generalizing scan offset with
  | nil => cases h
  | cons b bytes ih =>
    simp only [run] at h
    split at h
    · have := ih h
      simp only [List.length_cons]
      split <;> omega
    · cases h
      simp only [List.length_cons]
      split <;> omega
    · next hs =>
      cases h
      rw [if_pos (tokenBefore_isInside hs)]
      exact Nat.le_refl _
    all_goals cases h

/-- A scan that is in the middle of a token has taken a byte of it. -/
theorem isInside_of_run_more {scan scan' : Scan} {offset offset' : Nat} {bytes : List UInt8}
    (h : scan.run offset bytes = .more scan' offset') :
    (if scan'.isInside then 0 else 1) + bytes.length ≥ if scan.isInside then 0 else 1 := by
  cases bytes with
  | nil =>
    cases h
    exact Nat.le_add_right _ _
  | cons b bytes =>
    simp only [List.length_cons]
    split <;> split <;> omega

theorem isInside_of_finish_ok {scan : Scan} {offset : Nat} {t : Token}
    (h : scan.finish offset = some (.ok t)) : scan.isInside = true := by
  cases scan with
  | blank => cases h
  | _ => rfl

end Scan

namespace Lexer

theorem unread_of_close_token {scan : Scan} {offset : Nat} {source : Source} {t : Token}
    {l : Lexer} (h : close scan offset source = (.token t, l)) :
    scan.isInside = true ∧ l.unread = source.size := by
  unfold close at h
  split at h
  · cases h
  · next hf =>
    cases h
    exact ⟨Scan.isInside_of_finish_ok hf, by simp [unread]⟩
  · cases h

theorem unread_of_scanOn_token {scan : Scan} {offset : Nat} {buffer : List UInt8}
    {source : Source} {t : Token} {l : Lexer}
    (h : scanOn scan offset buffer source = (.token t, l)) :
    l.unread + (if scan.isInside then 0 else 1) ≤ buffer.length + source.size := by
  fun_induction scanOn scan offset buffer source with
  | case1 scan offset buffer source t' offset' rest hr =>
    cases h
    have := Scan.run_token_length hr
    simp only [unread]
    omega
  | case2 => cases h
  | case3 scan offset buffer scan' offset' hr =>
    obtain ⟨inside, hl⟩ := unread_of_close_token h
    have := Scan.isInside_of_run_more hr
    rw [inside, if_pos rfl] at this
    simp only [hl, Source.size]
    omega
  | case4 scan offset buffer scan' offset' hr source =>
    obtain ⟨inside, hl⟩ := unread_of_close_token h
    have := Scan.isInside_of_run_more hr
    rw [inside, if_pos rfl] at this
    simp only [hl, Source.size]
    omega
  | case5 scan offset buffer scan' offset' hr b chunk source ih =>
    have := ih h
    have := Scan.isInside_of_run_more hr
    simp only [Source.size, List.length_cons] at *
    omega
  | case6 => cases h

/-- A token takes at least one of the bytes that were to come. -/
theorem unread_lt_of_next {l l' : Lexer} {t : Token} (h : l.next = (.token t, l')) :
    l'.unread < l.unread := by
  unfold next at h
  split at h
  · cases h
  · split at h
    · cases h
    · have := unread_of_scanOn_token h
      simp only [Scan.isInside, Bool.false_eq_true, if_false] at this
      exact this

end Lexer

end JsonShape
