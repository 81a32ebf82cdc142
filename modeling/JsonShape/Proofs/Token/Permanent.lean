import JsonShape.Proofs.Token.Chunks

/-!
# Permanent endings

A lexer whose input is over, or that has found a fault, is `Lexer.Over`: it stays as it is and gives
the same answer to every call. An answer that is no token leaves the lexer in such a state, wherever
in a token the scan was when it stopped (`Lexer.over_next`). So the first such answer is the answer
to all later calls, and none of them reads (`Lexer.call_permanent`).
-/

namespace JsonShape.Lexer

/-- Nothing is left for the lexer but this answer. -/
inductive Over (l : Lexer) : Pull → Prop
  /-- The end of the input is known, and nothing was wrong in front of it. -/
  | ended (hfault : l.fault = none) (hended : l.ended = true) : l.Over .stop
  /-- A fault was found. -/
  | failed {e : InputError} (hfault : l.fault = some e) : l.Over (.fault e)

variable {l : Lexer} {answer : Pull}

/-! ## Lexers that are over -/

/-- What a read would give makes no difference any more. -/
theorem Over.later (h : l.Over answer) (later : Source) :
    { l with source := later }.Over answer := by
  cases h with
  | ended hfault hended => exact .ended hfault hended
  | failed hfault => exact .failed hfault

/-- The next call gives the answer and changes nothing. -/
theorem Over.next (h : l.Over answer) : l.next = (answer, l) := by
  cases h with
  | ended hfault hended => simp [Lexer.next, hfault, hended]
  | failed hfault => simp [Lexer.next, hfault]

/-- However many calls there are, none of them changes anything. -/
theorem Over.after (h : l.Over answer) (n : Nat) : l.after n = l := by
  induction n with
  | zero => rfl
  | succ n ih => rw [Lexer.after, ih, h.next]

/-- Each call gives the answer, at the same offset. -/
theorem Over.call (h : l.Over answer) (n : Nat) : l.call n = (answer, l.offset) := by
  rw [Lexer.call, h.after, h.next]

/-- That answer is no token. -/
theorem Over.ne_token (h : l.Over answer) (t : Token) : answer ≠ .token t := by
  cases h <;> exact nofun

/-! ## How a lexer comes to be over -/

/-- The end of the input leaves a lexer over, unless it completes a number. -/
theorem over_close {scan : Scan} {offset : Nat} {source : Source}
    (h : ∀ t, (close scan offset source).1 ≠ .token t) :
    (close scan offset source).2.Over (close scan offset source).1 := by
  rw [close] at h ⊢
  cases hfinish : scan.finish offset with
  | none => exact .ended rfl rfl
  | some result =>
    cases result with
    | ok t => exact absurd (by rw [hfinish]) (h t)
    | error e => exact .failed rfl

/-- A scan that comes to no token leaves a lexer over, however often it reads on before. -/
theorem over_scanOn {scan : Scan} {offset : Nat} {buffer : List UInt8} {source : Source}
    (h : ∀ t, (scanOn scan offset buffer source).1 ≠ .token t) :
    (scanOn scan offset buffer source).2.Over (scanOn scan offset buffer source).1 := by
  fun_induction scanOn scan offset buffer source with
  | case1 _ _ _ _ t => exact absurd rfl (h t)
  | case2 => exact .failed rfl
  | case3 => exact over_close h
  | case4 => exact over_close h
  | case5 _ _ _ _ _ _ _ _ _ ih => exact ih h
  | case6 => exact .failed rfl

/-- An answer that is no token leaves a lexer over, with that answer. -/
theorem over_next (h : ∀ t, l.next.1 ≠ .token t) : l.next.2.Over l.next.1 := by
  cases hfault : l.fault with
  | some e =>
    rw [Over.next (.failed hfault)]
    exact .failed hfault
  | none =>
    cases hended : l.ended with
    | true =>
      rw [Over.next (.ended hfault hended)]
      exact .ended hfault hended
    | false =>
      simp only [Lexer.next, hfault, hended] at h ⊢
      exact over_scanOn h

/-! ## All later calls -/

/-- In front of a token there are only tokens. -/
theorem exists_token_of_lt {j k : Nat} {t : Token} (h : (l.call k).1 = .token t) (hj : j < k) :
    ∃ u, (l.call j).1 = .token u := by
  refine Classical.byContradiction fun hnone => ?_
  have hover : (l.after (j + 1)).Over (l.call j).1 := over_next (not_exists.1 hnone)
  obtain ⟨n, rfl⟩ := Nat.exists_eq_add_of_lt hj
  rw [Nat.add_right_comm, call, after_add] at h
  exact hover.ne_token t ((congrArg Prod.fst (hover.call n)).symm.trans h)

/-- Once an answer is no token, it is the answer to every later call, at the same offset. And no
later call reads: whatever the source would give from then on, the lexer gives that answer and stays
as it is. -/
theorem call_permanent (source : Source) (k : Nat)
    (h : ∀ t, ((ofSource source).call k).1 ≠ .token t) :
    (∀ n, (ofSource source).call (k + n) = (ofSource source).call k) ∧
      ∀ (later : Source) (n : Nat),
        let l := { (ofSource source).after (k + 1) with source := later }
        l.call n = (ofSource source).call k ∧ l.after n = l := by
  have hover : ((ofSource source).after (k + 1)).Over ((ofSource source).call k).1 := over_next h
  have hlater : ∀ n, (ofSource source).call (k + 1 + n) = (ofSource source).call k := by
    intro n
    rw [call, after_add]
    exact hover.call n
  refine ⟨?_, fun later n => ⟨(hover.later later).call n, (hover.later later).after n⟩⟩
  intro n
  cases n with
  | zero => rfl
  | succ n => rw [← hlater n, Nat.add_right_comm, Nat.add_assoc]

/-- The end of the input is seen behind a number, which is complete without it, and data comes after
the end. -/
theorem call_permanent_number :
    let source : Source := [.bytes [0x31], .bytes [], .bytes [0x32]]
    (ofSource source).call 0 = (.token ⟨.number, some "1", 0⟩, 1) ∧
      (ofSource source).call 1 = (.stop, 1) ∧
      (∀ n, (ofSource source).call (1 + n) = (.stop, 1)) ∧
      ∀ later n, { (ofSource source).after 2 with source := later }.after n =
        { (ofSource source).after 2 with source := later } := by
  intro source
  have hcall : (ofSource source).call 1 = (.stop, 1) := by decide +kernel
  have h : ∀ t, ((ofSource source).call 1).1 ≠ .token t := by
    intro t
    rw [hcall]
    exact nofun
  obtain ⟨hagain, hread⟩ := call_permanent source 1 h
  refine ⟨by decide +kernel, hcall, fun n => (hagain n).trans hcall, fun later n => ?_⟩
  exact (hread later n).2

end JsonShape.Lexer
