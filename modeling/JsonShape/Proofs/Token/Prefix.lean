import JsonShape.Proofs.Token.Lexing

/-!
# The tokens in front of a cut

Bytes behind those that have been scanned may still change what a scan under way comes to, and
nothing else. So the tokens of some bytes start those of more bytes, and a fault stays the same
one, unless the bytes end where more of them are needed, or in a number that goes on
(`Scan.Lexes.append`). Conversely, where bytes that have no fault are cut, what is in front of the
cut has the tokens in front of it, the last of which may be the beginning of a number, and then
ends, be it too early or not (`Scan.Lexes.of_append`).
-/

namespace JsonShape

open Grammar

/-- A number does not go on from some bytes to those behind them. -/
def Grammar.Separate (bytes more : List UInt8) : Prop :=
  (∀ b ∈ bytes.getLast?, Scan.numeralChar? b = none) ∨ Apart more

/-- Where bytes are cut depends on the last of those in front of the cut. -/
theorem Grammar.Separate.of_append {taken rest more : List UInt8}
    (h : Separate (taken ++ rest) more) : Separate rest more := by
  refine h.imp_left fun hlast b hb => hlast b ?_
  rw [List.getLast?_append, Option.mem_def.1 hb]
  rfl

/-- The answer is the same whatever bytes come behind, unless these belong to a number. -/
def Pull.IsSettled : Pull → Prop
  | .token _ => True
  | .stop => False
  | .fault e => e.cause ≠ .unexpectedEnd

namespace Scan

/-! ## What is taken and what is left -/

/-- The offset counts the bytes that are taken, and those that are left are the others. -/
def Progress.Splits (offset : Nat) (bytes : List UInt8) : Progress → Prop
  | .more _ offset' => offset' = offset + bytes.length
  | .token _ offset' rest | .fault _ offset' rest =>
    ∃ taken, bytes = taken ++ rest ∧ offset' = offset + taken.length

/-- One more byte in front is one more that is taken. -/
theorem Progress.Splits.cons {offset : Nat} {b : UInt8} {bytes : List UInt8} {progress : Progress}
    (h : progress.Splits (offset + 1) bytes) : progress.Splits offset (b :: bytes) := by
  cases progress with
  | more =>
    rw [Splits, List.length_cons, Nat.add_comm bytes.length, ← Nat.add_assoc]
    exact h
  | token | fault =>
    obtain ⟨taken, rfl, rfl⟩ := h
    exact ⟨b :: taken, rfl, by rw [List.length_cons, Nat.add_comm taken.length, Nat.add_assoc]⟩

/-- A run takes bytes from the front and counts them. -/
theorem run_splits (scan : Scan) (offset : Nat) (bytes : List UInt8) :
    (scan.run offset bytes).Splits offset bytes := by
  induction bytes generalizing scan offset with
  | nil => rfl
  | cons b bytes ih =>
    rw [run]
    cases scan.step offset b with
    | more scan => exact (ih scan (offset + 1)).cons
    | token | fault => exact ⟨[b], rfl, rfl⟩
    | tokenBefore | faultBefore => exact ⟨[], rfl, rfl⟩

/-- What a scan comes to leaves the bytes behind those that it has taken and counted. -/
theorem exists_taken_of_conclude {scan : Scan} {offset offset' : Nat} {bytes rest : List UInt8}
    {answer : Pull} (h : (scan.run offset bytes).conclude = (answer, offset', rest)) :
    ∃ taken, bytes = taken ++ rest ∧ offset' = offset + taken.length := by
  have hsplits := run_splits scan offset bytes
  generalize scan.run offset bytes = progress at h hsplits
  cases progress with
  | token | fault =>
    cases h
    exact hsplits
  | more =>
    rw [Progress.conclude] at h
    split at h <;> cases h <;> exact ⟨bytes, (List.append_nil bytes).symm, hsplits⟩

/-! ## Numbers -/

/-- What a number under way may come to: one that starts where it does, unless no more characters
complete it, or a fault. -/
inductive NumberEnds (start : Nat) (run : List Char) : Pull → Prop where
  | token {literal : String} (h : Numeral.reach run.reverse ≠ .astray) :
      NumberEnds start run (.token ⟨.number, some literal, start⟩)
  | fault (e : InputError) : NumberEnds start run (.fault e)

/-- A number that is closed is complete or wrong. -/
theorem numberEnds_closeNumber (start : Nat) (run : List Char) :
    NumberEnds start run (.ofResult (closeNumber start run)) := by
  by_cases hfinal : (Numeral.reach run.reverse).isFinal = true
  · rw [closeNumber_of_isFinal hfinal]
    refine .token fun hastray => ?_
    rw [hastray] at hfinal
    cases hfinal
  · have hclose : closeNumber start run =
        .error ⟨.invalidJson (.invalidNumber (.ofList run.reverse)), some start⟩ :=
      if_neg hfinal
    rw [hclose]
    exact .fault _

/-- A number under way that goes on becomes no more than what it may come to. -/
theorem NumberEnds.of_cons {start : Nat} {run : List Char} {c : Char} {answer : Pull}
    (h : NumberEnds start (c :: run) answer) : NumberEnds start run answer := by
  cases h with
  | fault e => exact .fault e
  | token h =>
    refine .token fun hastray => h ?_
    rw [Numeral.reach] at hastray
    rw [Numeral.reach, List.reverse_cons, List.foldl_append, hastray]
    rfl

/-- Whatever follows it, a number under way comes to such an end. -/
theorem numberEnds_run (start : Nat) (run : List Char) (offset : Nat) (more : List UInt8) :
    NumberEnds start run ((number start run).run offset more).conclude.1 := by
  induction more generalizing run offset with
  | nil =>
    by_cases hclosed : Closes run
    · rw [conclude_number_of_apart hclosed apart_nil]
      exact numberEnds_closeNumber start run
    · rw [Scan.run, Progress.conclude, finish_number_of_not_closes hclosed]
      exact .fault _
  | cons b more ih =>
    cases hb : numeralChar? b with
    | none =>
      rw [conclude_number_cons hb]
      exact numberEnds_closeNumber start run
    | some c =>
      rw [Scan.run, step, stepNumber, hb]
      exact (ih (c :: run) (offset + 1)).of_cons

/-! ## Scans under way -/

/-- Where bytes leave a scan under way, there is no token, or too little of one, or a number that
no more characters make another one. -/
theorem conclude_more_cases (scan : Scan) (offset : Nat) :
    (Progress.more scan offset).conclude = (.stop, offset, []) ∨
    (Progress.more scan offset).conclude =
      (.fault ⟨.unexpectedEnd, some offset⟩, offset, []) ∨
    ∃ start run, scan = number start run ∧ Closes run ∧
      (Progress.more scan offset).conclude = (.ofResult (closeNumber start run), offset, []) := by
  cases scan with
  | blank => exact .inl rfl
  | word | string => exact .inr (.inl rfl)
  | number start run =>
    by_cases hclosed : Closes run
    · have hconclude : (Progress.more (number start run) offset).conclude =
          (.ofResult (closeNumber start run), offset, []) :=
        conclude_number_of_apart hclosed apart_nil start offset
      exact .inr (.inr ⟨start, run, rfl, hclosed, hconclude⟩)
    · refine .inr (.inl ?_)
      rw [Progress.conclude, finish_number_of_not_closes hclosed]

/-- Only a byte that numbers are made of is followed by a number under way. -/
theorem numeralChar?_of_step {scan : Scan} {offset start : Nat} {b : UInt8} {run : List Char}
    (h : scan.step offset b = .more (number start run)) : ∃ c, numeralChar? b = some c := by
  cases scan with
  | blank =>
    rw [step, stepBlank] at h
    split at h
    · cases h
    · split at h
      · cases h
      · split at h
        · next hstart => exact ⟨_, numeralChar?_of_start hstart⟩
        · split at h
          · cases h
          · split at h
            · next w _ => cases w <;> cases h
            · cases h
  | word start w next owed =>
    rw [step, stepWord.eq_def] at h
    repeat' split at h
    all_goals cases h
  | number start run =>
    rw [step, stepNumber] at h
    split at h
    · next c hc => exact ⟨c, hc⟩
    · split at h <;> cases h
  | string start text place =>
    rw [step, stepString.eq_def] at h
    simp only [closeDigits] at h
    repeat' split at h
    all_goals cases h

/-- A number is under way only behind a byte that numbers are made of. -/
theorem apart_of_run_number {offset offset' start : Nat} {bytes more : List UInt8}
    {run : List Char} (h : blank.run offset bytes = .more (number start run) offset')
    (hs : Separate bytes more) : Apart more := by
  cases hlast : bytes.getLast? with
  | none =>
    rw [List.getLast?_eq_none_iff] at hlast
    subst hlast
    cases h
  | some b =>
    refine hs.resolve_left fun hnone => ?_
    have hb : numeralChar? b = none := hnone b hlast
    obtain ⟨front, rfl⟩ := List.getLast?_eq_some_iff.1 hlast
    cases hrun : blank.run offset front with
    | token =>
      rw [run_append_of_token hrun] at h
      cases h
    | fault =>
      rw [run_append_of_fault hrun] at h
      cases h
    | more scan offset'' =>
      rw [run_append_of_more hrun, Scan.run] at h
      cases hstep : scan.step offset'' b with
      | more scan' =>
        rw [hstep] at h
        cases h
        obtain ⟨c, hc⟩ := numeralChar?_of_step hstep
        cases hb.symm.trans hc
      | token | tokenBefore | fault | faultBefore =>
        rw [hstep] at h
        cases h

/-- With more bytes a scan comes to the same, unless it is under way behind the first ones. -/
theorem conclude_append_cases {offset offset' : Nat} {bytes rest : List UInt8} {answer : Pull}
    (h : (blank.run offset bytes).conclude = (answer, offset', rest)) (more : List UInt8) :
    (answer ≠ .stop ∧
      (blank.run offset (bytes ++ more)).conclude = (answer, offset', rest ++ more)) ∨
    ∃ scan offset'', blank.run offset bytes = .more scan offset'' ∧
      (Progress.more scan offset'').conclude = (answer, offset', rest) ∧
      (blank.run offset (bytes ++ more)).conclude = (scan.run offset'' more).conclude := by
  cases hrun : blank.run offset bytes with
  | token t =>
    rw [hrun] at h
    cases h
    refine .inl ⟨?_, by rw [run_append_of_token hrun, Progress.conclude]⟩
    intro hstop
    cases hstop
  | fault e =>
    rw [hrun] at h
    cases h
    refine .inl ⟨?_, by rw [run_append_of_fault hrun, Progress.conclude]⟩
    intro hstop
    cases hstop
  | more scan offset'' =>
    rw [hrun] at h
    exact .inr ⟨scan, offset'', rfl, h, by rw [run_append_of_more hrun]⟩

/-- A settled answer stays the same with more bytes, if no number goes on with these. -/
theorem conclude_append {offset offset' : Nat} {bytes rest more : List UInt8} {answer : Pull}
    (h : (blank.run offset bytes).conclude = (answer, offset', rest)) (ha : answer.IsSettled)
    (hs : Separate bytes more) :
    (blank.run offset (bytes ++ more)).conclude = (answer, offset', rest ++ more) := by
  rcases conclude_append_cases h more with ⟨-, hsame⟩ | ⟨scan, offset'', hrun, hpart, hwhole⟩
  · exact hsame
  · rcases conclude_more_cases scan offset'' with hstop | hend |
      ⟨start, run, rfl, hclosed, hnumber⟩
    · cases hpart.symm.trans hstop
      exact absurd ha id
    · cases hpart.symm.trans hend
      exact absurd rfl ha
    · cases hpart.symm.trans hnumber
      rw [hwhole]
      exact conclude_number_of_apart hclosed (apart_of_run_number hrun hs) start offset'

/-! ## Tokens -/

/-- The tokens of some bytes come first among those of more bytes, and what comes behind them stays
the same if it is settled. -/
theorem Lexes.append {offset taken : Nat} {bytes more : List UInt8} {ts : List Token}
    {answer : Pull} (h : Lexes offset bytes ts answer taken) (hs : Separate bytes more) :
    ∃ us answer' taken', Lexes offset (bytes ++ more) (ts ++ us) answer' taken' ∧
      (answer.IsSettled → us = [] ∧ answer' = answer) := by
  induction h with
  | @last offset _ bytes _ answer h hl =>
    by_cases ha : answer.IsSettled
    · exact ⟨[], _, _, .last (conclude_append h ha hs) hl, fun _ => ⟨rfl, rfl⟩⟩
    · obtain ⟨us, answer', taken', hus⟩ := exists_lexes offset (bytes ++ more)
      exact ⟨us, answer', taken', hus, fun hsettled => absurd hsettled ha⟩
  | token h _ ih =>
    obtain ⟨front, rfl, -⟩ := exists_taken_of_conclude h
    obtain ⟨us, answer', taken', hus, hsettled⟩ := ih hs.of_append
    exact ⟨us, answer', taken', .token (conclude_append h trivial hs) hus, hsettled⟩

/-- The tokens in front of a cut, and those of all bytes. The cut may make a number shorter, or it
falls between two tokens or into one that it leaves out. -/
inductive Cut : List Token → List Token → Prop where
  | nil (ts : List Token) : Cut [] ts
  | number (short long : String) (start : Int) (ts : List Token) :
      Cut [⟨.number, some short, start⟩] (⟨.number, some long, start⟩ :: ts)
  | cons (t : Token) {us ts : List Token} (h : Cut us ts) : Cut (t :: us) (t :: ts)

/-- Bytes that are without fault have the token that comes first, and the others behind it. -/
theorem Lexes.of_token {offset offset' taken : Nat} {bytes rest : List UInt8} {t : Token}
    {ts : List Token} {answer : Pull} (hx : Lexes offset bytes ts answer taken)
    (h : (blank.run offset bytes).conclude = (.token t, offset', rest)) :
    ∃ us, ts = t :: us ∧ Lexes offset' rest us answer taken := by
  cases hx with
  | last hlast hl =>
    cases h.symm.trans hlast
    exact absurd rfl (hl t)
  | token ht hs =>
    cases h.symm.trans ht
    exact ⟨_, rfl, hs⟩

/-- Bytes that are wrong from the start have no end. -/
theorem Lexes.ne_stop_of_fault {offset offset' taken : Nat} {bytes rest : List UInt8}
    {e : InputError} {ts : List Token} {answer : Pull} (hx : Lexes offset bytes ts answer taken)
    (h : (blank.run offset bytes).conclude = (.fault e, offset', rest)) : answer ≠ .stop := by
  cases hx with
  | last hlast =>
    cases h.symm.trans hlast
    exact nofun
  | token ht =>
    cases h.symm.trans ht

/-- No bytes have no tokens. -/
theorem Lexes.of_nil {offset taken : Nat} {ts : List Token} {answer : Pull}
    (hx : Lexes offset [] ts answer taken) : ts = [] ∧ answer = .stop ∧ taken = offset := by
  cases hx with
  | last h =>
    cases h
    exact ⟨rfl, rfl, rfl⟩
  | token h => cases h

/-- A number under way becomes the first token of bytes that are without fault. -/
theorem Lexes.of_number {offset offset' start taken : Nat} {bytes more : List UInt8}
    {run : List Char} {ts : List Token} (hx : Lexes offset bytes ts .stop taken)
    (h : (blank.run offset bytes).conclude = ((number start run).run offset' more).conclude) :
    Numeral.reach run.reverse ≠ .astray ∧
      ∃ literal us, ts = ⟨.number, some literal, start⟩ :: us := by
  have hends := numberEnds_run start run offset' more
  rw [← h] at hends
  generalize hr : (blank.run offset bytes).conclude = r at hends
  obtain ⟨answer, offset'', rest⟩ := r
  cases hends with
  | token hastray =>
    obtain ⟨us, hts, -⟩ := hx.of_token hr
    exact ⟨hastray, _, us, hts⟩
  | fault e => exact absurd rfl (hx.ne_stop_of_fault hr)

/-- Where bytes without a fault are cut, the tokens in front of the cut are those of all bytes, but
for one that the cut falls into, and then the bytes end, if not too early. -/
theorem Lexes.of_append {offset taken taken' : Nat} {bytes more : List UInt8} {ts us : List Token}
    {answer : Pull} (hx : Lexes offset (bytes ++ more) ts .stop taken)
    (hu : Lexes offset bytes us answer taken') :
    Cut us ts ∧ taken' = offset + bytes.length ∧
      (answer = .stop ∨ answer = .fault ⟨.unexpectedEnd, some taken'⟩) := by
  -- The tokens in front of the cut are taken one by one. Only the scan that reaches the cut may come
  -- to something else with the bytes behind it, and it cannot be wrong if all bytes are not.
  induction hu generalizing ts with
  | @last offset offset' bytes rest answer h hl =>
    refine ⟨.nil ts, ?_⟩
    obtain ⟨front, hfront, rfl⟩ := exists_taken_of_conclude h
    rcases conclude_append_cases h more with ⟨hstop, hsame⟩ | ⟨scan, offset', hrun, hpart, hwhole⟩
    · cases answer with
      | token t => exact absurd rfl (hl t)
      | stop => exact absurd rfl hstop
      | fault e => exact absurd rfl (hx.ne_stop_of_fault hsame)
    · rcases conclude_more_cases scan offset' with hstop | hend |
        ⟨start, run, rfl, hclosed, hnumber⟩
      · cases hpart.symm.trans hstop
        exact ⟨by rw [hfront, List.append_nil], .inl rfl⟩
      · cases hpart.symm.trans hend
        exact ⟨by rw [hfront, List.append_nil], .inr rfl⟩
      · obtain ⟨hastray, -⟩ := hx.of_number hwhole
        rw [closeNumber_of_isFinal (hclosed.resolve_right hastray)] at hnumber
        cases hpart.symm.trans hnumber
        exact absurd rfl (hl _)
  | @token offset offset' taken' bytes rest t us answer h hs ih =>
    rcases conclude_append_cases h more with ⟨-, hsame⟩ | ⟨scan, offset'', hrun, hpart, hwhole⟩
    · obtain ⟨ts, rfl, hts⟩ := hx.of_token hsame
      obtain ⟨hcut, rfl, hanswer⟩ := ih hts
      obtain ⟨front, rfl, rfl⟩ := exists_taken_of_conclude h
      exact ⟨.cons t hcut, by rw [List.length_append, Nat.add_assoc], hanswer⟩
    · rcases conclude_more_cases scan offset'' with hstop | hend |
        ⟨start, run, rfl, hclosed, hnumber⟩
      · cases hpart.symm.trans hstop
      · cases hpart.symm.trans hend
      · obtain ⟨hastray, long, ts, rfl⟩ := hx.of_number hwhole
        rw [closeNumber_of_isFinal (hclosed.resolve_right hastray)] at hnumber
        cases hpart.symm.trans hnumber
        obtain ⟨rfl, rfl, rfl⟩ := hs.of_nil
        obtain ⟨front, rfl, htaken⟩ := exists_taken_of_conclude h
        exact ⟨.number _ _ _ _, by rw [htaken, List.append_nil], .inl rfl⟩

end Scan

end JsonShape
