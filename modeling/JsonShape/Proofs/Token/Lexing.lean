import JsonShape.Proofs.Token.Lexer
import JsonShape.Token.Unread

/-!
# The tokens of bytes, and what comes behind them

Whatever bytes there are, they have some tokens, and then they end or are wrong. `Scan.Lexes` says
which tokens the bytes from an offset on have, what comes instead of a further one, and how many
bytes are taken by then; no bytes are without (`Scan.exists_lexes`). A lexer gives these tokens and
then this answer, however the bytes are cut into reads (`Lexer.emits_of_lexes`).
-/

namespace JsonShape

namespace Scan

/-- The bytes from an offset on have the tokens, and the last answer comes behind these, when so
many bytes are taken. -/
inductive Lexes : Nat → List UInt8 → List Token → Pull → Nat → Prop where
  | last {offset taken : Nat} {bytes rest : List UInt8} {answer : Pull}
      (h : (blank.run offset bytes).conclude = (answer, taken, rest))
      (hl : ∀ t, answer ≠ .token t) : Lexes offset bytes [] answer taken
  | token {offset offset' taken : Nat} {bytes rest : List UInt8} {t : Token} {ts : List Token}
      {answer : Pull} (h : (blank.run offset bytes).conclude = (.token t, offset', rest))
      (hs : Lexes offset' rest ts answer taken) : Lexes offset bytes (t :: ts) answer taken

/-- What comes behind the tokens is no token. -/
theorem Lexes.ne_token {offset taken : Nat} {bytes : List UInt8} {ts : List Token} {answer : Pull}
    (h : Lexes offset bytes ts answer taken) (t : Token) : answer ≠ .token t := by
  induction h with
  | last _ hl => exact hl t
  | token _ _ ih => exact ih

/-- A token takes at least one byte. -/
theorem length_lt_of_conclude {offset offset' : Nat} {bytes rest : List UInt8} {t : Token}
    (h : (blank.run offset bytes).conclude = (.token t, offset', rest)) :
    rest.length < bytes.length := by
  cases hrun : blank.run offset bytes with
  | token =>
    rw [hrun] at h
    cases h
    exact run_token_length hrun
  | fault =>
    rw [hrun] at h
    cases h
  | more scan offset'' =>
    rw [hrun, Progress.conclude] at h
    split at h
    · cases h
    · next hf =>
      cases h
      have hinside := isInside_of_run_more hrun
      rw [isInside_of_finish_ok hf] at hinside
      exact Nat.lt_of_succ_le (by simpa [isInside] using hinside)
    · cases h

/-- All bytes have some tokens and something behind these. -/
theorem exists_lexes (offset : Nat) (bytes : List UInt8) :
    ∃ ts answer taken, Lexes offset bytes ts answer taken := by
  induction hn : bytes.length using Nat.strongRecOn generalizing offset bytes with
  | ind n ih =>
    cases hr : (blank.run offset bytes).conclude with
    | mk answer r =>
      cases answer with
      | token t =>
        obtain ⟨ts, answer, taken, hs⟩ := ih _ (hn ▸ length_lt_of_conclude hr) r.1 r.2 rfl
        exact ⟨t :: ts, answer, taken, .token hr hs⟩
      | stop | fault => exact ⟨[], _, _, .last hr nofun⟩

end Scan

/-- A lexer gives the tokens of its bytes and then the answer behind these. -/
theorem Lexer.emits_of_lexes {l : Lexer} {bytes : List UInt8} {ts : List Token} {answer : Pull}
    {taken : Nat} (h : l.Holds bytes) (hx : Scan.Lexes l.offset bytes ts answer taken) :
    ∃ l' : Lexer, (TokenSource.lexer l).Emits ts (.lexer l') ∧ l'.next.1 = answer ∧
      l'.next.2.offset = taken := by
  generalize ho : l.offset = offset at hx
  induction hx generalizing l with
  | last hr =>
    obtain ⟨hpull, hoffset, -⟩ := next_of_holds h
    rw [ho, hr] at hpull hoffset
    exact ⟨l, rfl, hpull, hoffset⟩
  | token hr _ ih =>
    obtain ⟨hpull, hoffset, hholds⟩ := next_of_holds h
    rw [ho, hr] at hpull hoffset hholds
    obtain ⟨l', he, hlast⟩ := ih (hholds nofun) hoffset
    exact ⟨l', ⟨_, Prod.ext hpull rfl, he⟩, hlast⟩

end JsonShape
