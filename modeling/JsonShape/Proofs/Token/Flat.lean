import JsonShape.Proofs.Token.Chunks
import JsonShape.Token.Cursor

/-!
# Sources know nothing of levels

What is wrong with a token is never that arrays and objects nest too deep: no lexer finds such a
fault (`Lexer.flat_next`). So where tokens are at hand, and where a lexer reads them from the start
of its source, a level is refused by no one but who counts the levels (`TokenSource.Flat`).
-/

namespace JsonShape

/-- There were too many levels. -/
def Cause.isNesting : Cause → Bool
  | nestingTooDeep _ => true
  | _ => false

/-- The error is not about levels. -/
def InputError.Flat (e : InputError) : Prop :=
  e.cause.isNesting = false

/-- The answer is no error about levels. -/
def Pull.Flat : Pull → Prop
  | fault e => e.Flat
  | token _ | stop => True

/-- The byte is no fault about levels. -/
def Step.Flat : Step → Prop
  | fault e | faultBefore e => e.Flat
  | _ => True

namespace Scan

/-- The end of a number is no fault about levels. -/
theorem flat_of_closeNumber {start : Nat} {run : List Char} {e : InputError}
    (h : closeNumber start run = .error e) : e.Flat := by
  unfold closeNumber at h
  split at h
  · cases h
  · cases h
    rfl

/-- No byte is. -/
theorem flat_step (scan : Scan) (offset : Nat) (b : UInt8) : (scan.step offset b).Flat := by
  cases scan with
  | blank =>
    simp only [step, stepBlank]
    repeat' split
    all_goals simp only [Step.Flat, InputError.Flat, Cause.isNesting]
  | word start w next owed =>
    simp only [step, stepWord]
    repeat' split
    all_goals simp only [Step.Flat, InputError.Flat, Cause.isNesting]
  | number start run =>
    simp only [step, stepNumber]
    split
    · trivial
    · split
      · trivial
      · next h => exact flat_of_closeNumber h
  | string start text place =>
    cases place <;> simp only [step, stepString, closeDigits]
    all_goals repeat' split
    all_goals simp only [Step.Flat, InputError.Flat, Cause.isNesting]

/-- A scan finds no fault about levels. -/
theorem flat_of_run {scan : Scan} {offset offset' : Nat} {bytes rest : List UInt8} {e : InputError}
    (h : scan.run offset bytes = .fault e offset' rest) : e.Flat := by
  induction bytes generalizing scan offset with
  | nil => cases h
  | cons b bytes ih =>
    have hstep := scan.flat_step offset b
    rw [run] at h
    generalize scan.step offset b = step at h hstep
    cases step with
    | more scan => exact ih h
    | token | tokenBefore => cases h
    | fault | faultBefore =>
      cases h
      exact hstep

/-- Nor does the end of the input in the middle of a scan. -/
theorem flat_of_finish {scan : Scan} {offset : Nat} {e : InputError}
    (h : scan.finish offset = some (.error e)) : e.Flat := by
  cases scan with
  | blank => cases h
  | word | string =>
    cases h
    rfl
  | number start run =>
    simp only [finish] at h
    split at h
    · exact flat_of_closeNumber (Option.some.inj h)
    · cases h
      rfl

end Scan

namespace Lexer

/-- The lexer has found no fault about levels. -/
def Flat (l : Lexer) : Prop :=
  ∀ e, l.fault = some e → e.Flat

/-- In particular if it has found none at all. -/
theorem flat_of_fault_eq_none {l : Lexer} (h : l.fault = none) : l.Flat :=
  fun _ he => nomatch h.symm.trans he

/-- The end of the input is no fault about levels. -/
theorem flat_close (scan : Scan) (offset : Nat) (source : Source) :
    (close scan offset source).1.Flat ∧ (close scan offset source).2.Flat := by
  rw [close]
  cases hfinish : scan.finish offset with
  | none => exact ⟨trivial, flat_of_fault_eq_none rfl⟩
  | some result =>
    cases result with
    | ok t => exact ⟨trivial, flat_of_fault_eq_none rfl⟩
    | error e =>
      have he := Scan.flat_of_finish hfinish
      exact ⟨he, fun _ h => Option.some.inj h ▸ he⟩

/-- A scan that reads on finds no fault about levels. -/
theorem flat_scanOn (scan : Scan) (offset : Nat) (buffer : List UInt8) (source : Source) :
    (scanOn scan offset buffer source).1.Flat ∧ (scanOn scan offset buffer source).2.Flat := by
  fun_induction scanOn scan offset buffer source with
  | case1 => exact ⟨trivial, flat_of_fault_eq_none rfl⟩
  | case2 _ _ _ _ _ _ _ hrun =>
    have he := Scan.flat_of_run hrun
    exact ⟨he, fun _ h => Option.some.inj h ▸ he⟩
  | case3 => exact flat_close ..
  | case4 => exact flat_close ..
  | case5 _ _ _ _ _ _ _ _ _ ih => exact ih
  | case6 =>
    refine ⟨rfl, fun _ h => ?_⟩
    cases h
    rfl

/-- No answer is an error about levels, if none was found before. -/
theorem flat_next {l : Lexer} (h : l.Flat) : l.next.1.Flat ∧ l.next.2.Flat := by
  rw [next]
  split
  · next e he => exact ⟨h e he, h⟩
  · split
    · exact ⟨trivial, h⟩
    · exact flat_scanOn ..

/-- None was found before the first call, and so none is later on. -/
theorem flat_after (source : Source) (k : Nat) : ((ofSource source).after k).Flat := by
  induction k with
  | zero => exact flat_of_fault_eq_none rfl
  | succ k ih => exact (flat_next ih).2

end Lexer

namespace TokenSource

/-- Where tokens come from, there is no error about levels. -/
def Flat : TokenSource → Prop
  | tokens _ => True
  | lexer l => l.Flat

/-- No answer of the source is an error about levels. -/
theorem flat_next {source : TokenSource} (h : source.Flat) :
    source.next.1.Flat ∧ source.next.2.Flat := by
  cases source with
  | tokens ts => cases ts <;> exact ⟨trivial, trivial⟩
  | lexer l => exact Lexer.flat_next h

end TokenSource

namespace Cursor

variable {c : Cursor}

/-- A look ahead gives no error about levels. -/
theorem flat_peek (h : c.source.Flat) :
    (∀ e, c.peek.1 = .error e → e.Flat) ∧ c.peek.2.source.Flat := by
  obtain ⟨source, ahead⟩ := c
  cases ahead with
  | token | stop =>
    refine ⟨fun _ he => ?_, h⟩
    cases he
  | unseen =>
    have hnext := TokenSource.flat_next h
    simp only [peek]
    generalize source.next = r at hnext
    obtain ⟨answer, source'⟩ := r
    cases answer with
    | token | stop =>
      refine ⟨fun _ he => ?_, hnext.2⟩
      cases he
    | fault e => exact ⟨fun _ he => Except.error.inj he ▸ hnext.1, hnext.2⟩

/-- An advance gives no error about levels. -/
theorem flat_advance (h : c.source.Flat) :
    (∀ e, c.advance.1 = .error e → e.Flat) ∧ c.advance.2.source.Flat := by
  have hpeek := flat_peek h
  rw [advance]
  generalize c.peek = r at hpeek
  obtain ⟨_ | _ | t, c'⟩ := r
  · exact ⟨fun _ he => Except.error.inj he ▸ hpeek.1 _ rfl, hpeek.2⟩
  · exact ⟨fun _ he => Except.error.inj he ▸ rfl, hpeek.2⟩
  · refine ⟨fun _ he => ?_, hpeek.2⟩
    cases he

end Cursor

end JsonShape
