import JsonShape.Proofs.Token.Lexer

/-!
# Runs of the characters of numbers

Where a number starts, the lexer takes all characters of numbers that come. What it makes of such a
run depends on the run and on what comes behind it, and on nothing else: a numeral is a token; a run
that the end of the input cuts off in front of a numeral's end is an end that comes too early; and
every other run is no number (`Lexer.numbers_classified`). A run can be completed to a numeral
exactly if the reader of numerals has not gone astray in it (`Numeral.exists_isNumeral_append_iff`).
The runs that can be completed, and have to be, are the unfinished ones
(`Numeral.isUnfinished_iff`).
-/

namespace JsonShape

open Grammar

namespace Numeral

/-- Characters that complete a numeral from a place on. -/
def Place.completion : Place → List Char
  | start | minus | point | mark | sign => ['0']
  | zero | whole | fraction | exponent | astray => []

/-- Every place in a numeral bears its completion. -/
theorem Place.bears_completion {p : Place} (h : p ≠ astray) : p.Bears p.completion := by
  rw [← isFinal_foldl_step]
  cases p with
  | astray => exact absurd rfl h
  | _ => rfl

/-- A run is completed by what the place behind it bears. -/
theorem isNumeral_append_iff {run more : List Char} :
    IsNumeral (run ++ more) ↔ (reach run).Bears more := by
  rw [← isFinal_reach_iff, reach, List.foldl_append, Place.isFinal_foldl_step, ← reach]

/-- A run can be completed unless it is astray. -/
theorem exists_isNumeral_append_iff {run : List Char} :
    (∃ more, IsNumeral (run ++ more)) ↔ reach run ≠ .astray := by
  refine ⟨?_, fun h => ⟨_, isNumeral_append_iff.2 (Place.bears_completion h)⟩⟩
  rintro ⟨more, h⟩ hastray
  rw [isNumeral_append_iff, hastray] at h
  exact h

/-! ## Numerals that break off -/

/-- Behind anything but a digit, no numeral may end. -/
theorem Place.isFinal_step_of_not_isDigit {c : Char} (hc : c.isDigit = false) (p : Place) :
    (p.step c).isFinal = false := by
  have hzero : c ≠ '0' := by rintro rfl; cases hc
  cases p <;> simp only [step, first, afterWhole, hc, hzero, if_false, Bool.false_eq_true] <;>
    repeat' split
  all_goals rfl

/-- A numeral ends in a digit. -/
theorem not_isNumeral_concat (front : List Char) {c : Char} (hc : c.isDigit = false) :
    ¬IsNumeral (front ++ [c]) := by
  rw [isNumeral_append_iff, Place.bears_cons, Place.bears_nil,
    Place.isFinal_step_of_not_isDigit hc]
  exact Bool.false_ne_true

/-- The front of some digits is digits, unless it is empty. -/
theorem IsDigits.of_append {cs more : List Char} (h : IsDigits (cs ++ more)) (hne : cs ≠ []) :
    IsDigits cs :=
  ⟨hne, fun c hc => h.2 c (List.mem_append_left more hc)⟩

/-- The front of a whole part is a whole part, unless it is empty. -/
theorem IsWhole.of_append {cs more : List Char} (h : IsWhole (cs ++ more)) (hne : cs ≠ []) :
    IsWhole cs := by
  obtain ⟨c, ds, rfl⟩ := List.exists_cons_of_ne_nil hne
  generalize hwhole : c :: ds ++ more = whole at h
  cases h with
  | zero =>
    obtain ⟨rfl, hnil⟩ := List.cons.inj hwhole
    obtain ⟨rfl, -⟩ := List.append_eq_nil_iff.1 hnil
    exact .zero
  | digits first h =>
    obtain ⟨rfl, rfl⟩ := List.cons.inj hwhole
    exact .digits first (IsDigits.of_append h hne)

/-- The front of a fraction is a fraction, unless it ends in the point. -/
theorem IsFraction.of_append {cs more : List Char} (h : IsFraction (cs ++ more)) :
    IsFraction cs ∨ cs = ['.'] := by
  cases cs with
  | nil => exact .inl .none
  | cons c ds =>
    cases h with
    | digits h =>
      cases ds with
      | nil => exact .inr rfl
      | cons d ds => exact .inl (.digits (h.of_append nofun))

/-- The front of an exponent is an exponent, unless it ends in the mark or in the sign. -/
theorem IsExponent.of_append {cs more : List Char} (h : IsExponent (cs ++ more)) :
    IsExponent cs ∨ ∃ mark sign, cs = mark :: sign ∧ (mark = 'e' ∨ mark = 'E') ∧
      (sign = [] ∨ sign = ['+'] ∨ sign = ['-']) := by
  cases cs with
  | nil => exact .inl .none
  | cons c ds =>
    generalize hexponent : c :: ds ++ more = exponent at h
    cases h with
    | none => cases hexponent
    | @digits mark sign es hm hs h =>
      obtain ⟨rfl, hbehind⟩ := List.cons.inj hexponent
      rcases List.append_eq_append_iff.1 hbehind with ⟨as, rfl, -⟩ | ⟨bs, rfl, rfl⟩
      · have hfront : ds = [] ∨ ds = ['+'] ∨ ds = ['-'] := by
          cases ds with
          | nil => exact .inl rfl
          | cons d ds =>
            simp only [List.cons_append, List.cons.injEq, List.append_eq_nil_iff, reduceCtorEq,
              false_or] at hs ⊢
            exact hs.imp (fun h => ⟨h.1, h.2.1⟩) fun h => ⟨h.1, h.2.1⟩
        exact .inr ⟨c, ds, rfl, hm, hfront⟩
      · cases bs with
        | nil => exact .inr ⟨c, sign, by rw [List.append_nil], hm, hs⟩
        | cons d bs => exact .inl (.digits hm hs (h.of_append nofun))

/-- The front of a numeral is a numeral, or it lacks its next digit. -/
theorem isUnfinished_of_append {cs more : List Char} (hne : cs ≠ []) (hn : ¬IsNumeral cs)
    (h : IsNumeral (cs ++ more)) : IsUnfinished cs := by
  obtain ⟨sign, whole, fraction, exponent, hcut, hs, hw, hf, hx⟩ := h
  rw [List.append_assoc, List.append_assoc] at hcut
  have hsign : ∀ as, sign = cs ++ as → IsUnfinished cs := by
    rintro as rfl
    cases cs with
    | nil => exact absurd rfl hne
    | cons c cs =>
      simp only [List.cons_append, reduceCtorEq, List.cons.injEq, List.append_eq_nil_iff,
        false_or] at hs
      obtain ⟨rfl, rfl, -⟩ := hs
      exact .minus
  -- The front ends in the sign, in the whole part, in the fraction or in the exponent.
  rcases List.append_eq_append_iff.1 hcut with ⟨as, h, -⟩ | ⟨front, rfl, hunsigned⟩
  · exact hsign as h
  by_cases hfront : front = []
  · exact hsign [] (by rw [hfront, List.append_nil, List.append_nil])
  rcases List.append_eq_append_iff.1 hunsigned.symm with ⟨as, rfl, -⟩ | ⟨tail, rfl, hbehind⟩
  · have hnumeral : IsNumeral (sign ++ front) :=
      ⟨sign, front, [], [], by simp, hs, hw.of_append hfront, .none, .none⟩
    exact absurd hnumeral hn
  rcases List.append_eq_append_iff.1 hbehind.symm with ⟨as, rfl, -⟩ | ⟨last, rfl, rfl⟩
  · rcases hf.of_append with htail | rfl
    · have hnumeral : IsNumeral (sign ++ (whole ++ tail)) :=
        ⟨sign, whole, tail, [], by simp, hs, hw, htail, .none⟩
      exact absurd hnumeral hn
    · have hunfinished := IsUnfinished.point hs hw
      rwa [List.append_assoc] at hunfinished
  · rcases hx.of_append with hlast | ⟨mark, marked, rfl, hm, he⟩
    · have hnumeral : IsNumeral (sign ++ (whole ++ (fraction ++ last))) :=
        ⟨sign, whole, fraction, last, by simp, hs, hw, hf, hlast⟩
      exact absurd hnumeral hn
    · have hunfinished := IsUnfinished.exponent hs hw hf hm he
      rwa [List.append_assoc, List.append_assoc] at hunfinished

/-- A run is a numeral that breaks off exactly if it is none, but more characters make it one. -/
theorem isUnfinished_iff {cs : List Char} (hne : cs ≠ []) :
    IsUnfinished cs ↔ ¬IsNumeral cs ∧ ∃ more, IsNumeral (cs ++ more) := by
  refine ⟨fun h => ?_, fun ⟨hn, more, h⟩ => isUnfinished_of_append hne hn h⟩
  have hdigit : IsDigits ['0'] := ⟨nofun, by simp⟩
  cases h with
  | minus =>
    exact ⟨not_isNumeral_concat [] rfl, ['0'], ['-'], ['0'], [], [], rfl, .inr rfl, .zero, .none,
      .none⟩
  | @point sign whole hs hw =>
    exact ⟨not_isNumeral_concat _ rfl, ['0'], sign, whole, ['.', '0'], [], by simp, hs, hw,
      .digits hdigit, .none⟩
  | @exponent sign whole fraction marked mark hs hw hf hm he =>
    refine ⟨?_, ['0'], sign, whole, fraction, mark :: (marked ++ ['0']), by simp, hs, hw, hf,
      .digits hm he hdigit⟩
    rcases he with rfl | rfl | rfl
    · exact not_isNumeral_concat _ (Place.isDigit_of_mark hm)
    · rw [List.append_cons]
      exact not_isNumeral_concat _ rfl
    · rw [List.append_cons]
      exact not_isNumeral_concat _ rfl

end Numeral

namespace Scan

/-- What a run of the characters of numbers comes to, from its first character on and with the bytes
that come behind it. -/
inductive RunEnds (start : Nat) (run : List Char) (rest : List UInt8) : Pull → Prop where
  | numeral (h : Numeral.IsNumeral run) :
      RunEnds start run rest (.token ⟨.number, some (.ofList run), start⟩)
  /-- The end of the input cuts a numeral off. -/
  | cut (h : ¬Numeral.IsNumeral run) (hend : rest = [])
      (hmore : ∃ more, Numeral.IsNumeral (run ++ more)) :
      RunEnds start run rest (.fault ⟨.unexpectedEnd, some ↑(start + run.length)⟩)
  /-- The run is no numeral, nor the front of one that is cut off. -/
  | wrong (h : ¬Numeral.IsNumeral run)
      (hwrong : rest ≠ [] ∨ ¬∃ more, Numeral.IsNumeral (run ++ more)) :
      RunEnds start run rest (.fault ⟨.invalidJson (.invalidNumber (.ofList run)), some start⟩)

variable {run : List Char} {rest : List UInt8}

/-- A run is a token exactly if it is a numeral. -/
theorem RunEnds.eq_token_iff {start : Nat} {answer : Pull} (h : RunEnds start run rest answer) :
    answer = .token ⟨.number, some (.ofList run), start⟩ ↔ Numeral.IsNumeral run := by
  cases h with
  | numeral h => exact ⟨fun _ => h, fun _ => rfl⟩
  | cut h | wrong h => exact ⟨nofun, fun hn => absurd hn h⟩

/-- A run that the end cuts off ends too early exactly if more characters make it a numeral. -/
theorem RunEnds.eq_unexpectedEnd_iff {start : Nat} {answer : Pull}
    (h : RunEnds start run rest answer) (hn : ¬Numeral.IsNumeral run) (hrest : rest = []) :
    answer = .fault ⟨.unexpectedEnd, some ↑(start + run.length)⟩ ↔
      ∃ more, Numeral.IsNumeral (run ++ more) := by
  cases h with
  | numeral h => exact absurd h hn
  | cut _ _ hmore => exact ⟨fun _ => hmore, fun _ => rfl⟩
  | wrong _ hwrong => exact ⟨nofun, fun hmore => absurd hmore (hwrong.resolve_left (· hrest))⟩

/-- Any other run is no number. -/
theorem RunEnds.eq_invalidNumber {start : Nat} {answer : Pull} (h : RunEnds start run rest answer)
    (hn : ¬Numeral.IsNumeral run)
    (hwrong : rest ≠ [] ∨ ¬∃ more, Numeral.IsNumeral (run ++ more)) :
    answer = .fault ⟨.invalidJson (.invalidNumber (.ofList run)), some start⟩ := by
  cases h with
  | numeral h => exact absurd h hn
  | cut _ hrest hmore => exact absurd hmore (hwrong.resolve_left (· hrest))
  | wrong => rfl

/-- A run that may be closed is a numeral, or it is wrong. -/
theorem runEnds_closeNumber (start : Nat)
    (h : rest ≠ [] ∨ Closes run.reverse) :
    RunEnds start run rest (.ofResult (closeNumber start run.reverse)) := by
  rw [closeNumber, List.reverse_reverse]
  by_cases hfinal : (Numeral.reach run).isFinal = true
  · rw [if_pos hfinal]
    exact .numeral (Numeral.isFinal_reach_iff.1 hfinal)
  · rw [if_neg hfinal]
    refine .wrong (fun hn => hfinal (Numeral.isFinal_reach_iff.2 hn)) ?_
    refine h.imp_right fun hcloses => ?_
    rw [Closes, List.reverse_reverse] at hcloses
    rw [Numeral.exists_isNumeral_append_iff]
    exact fun hastray => hastray (hcloses.resolve_left hfinal)

/-- A number under way that nothing more belongs to comes to one of these ends. -/
theorem runEnds_number (run : List Char) (hmaximal : Apart rest) (start : Nat) :
    ∃ answer, RunEnds start run rest answer ∧
      ((number start run.reverse).run (start + run.length) rest).conclude =
        (answer, start + run.length, rest) := by
  by_cases hcloses : Closes run.reverse
  · exact ⟨_, runEnds_closeNumber start (.inr hcloses),
      conclude_number_of_apart hcloses hmaximal start _⟩
  · cases rest with
    | cons b rest =>
      exact ⟨_, runEnds_closeNumber start (.inl nofun),
        conclude_number_cons (hmaximal b rfl) start _ _ rest⟩
    | nil =>
      have hconclude : ((number start run.reverse).run (start + run.length) []).conclude =
          (.fault ⟨.unexpectedEnd, some ↑(start + run.length)⟩, start + run.length, []) := by
        rw [Scan.run, Progress.conclude, finish_number_of_not_closes hcloses]
      rw [Closes, List.reverse_reverse, not_or] at hcloses
      refine ⟨_, .cut (fun hn => hcloses.1 (Numeral.isFinal_reach_iff.2 hn)) rfl ?_, hconclude⟩
      exact Numeral.exists_isNumeral_append_iff.2 hcloses.2

/-- The run is under way where it is over, if a minus or a digit starts it. -/
theorem run_front {left : List UInt8} (hleft : Blanks left)
    (hstart : ∃ c ∈ run.head?, c = '-' ∨ c.isDigit = true)
    (hrun : ∀ c ∈ run, Numeral.isNumeralChar c = true) (rest : List UInt8) (offset : Nat) :
    blank.run offset (left ++ (Utf8.encodeString (.ofList run) ++ rest)) =
      (number (offset + left.length) run.reverse).run (offset + left.length + run.length) rest := by
  obtain ⟨c, hc, hfirst⟩ := hstart
  cases run with
  | nil => cases hc
  | cons d ds =>
    cases hc
    have hds := (List.forall_mem_cons.1 hrun).2
    rw [run_append_of_more (run_blanks hleft offset), Utf8.encodeString, String.toList_ofList,
      run_append_of_more (run_of_start hfirst hds _)]

/-- A number under way is over in front of a byte that numbers are not made of. -/
theorem run_number_ne_more {b : UInt8} (hb : numeralChar? b = none) (start offset : Nat)
    (run : List Char) (scan : Scan) (offset' : Nat) :
    (number start run).run offset (b :: rest) ≠ .more scan offset' := by
  rw [Scan.run, step, stepNumber, hb]
  intro h
  cases hclosed : closeNumber start run <;> rw [hclosed] at h <;> cases h

end Scan

namespace Lexer

/-- The next answer is what a scan of all bytes comes to, unless a failure of the source comes in
its way. -/
theorem next_of_delivered {l : Lexer} {bytes : List UInt8} (hfault : l.fault = none)
    (hended : l.ended = false) (hbytes : l.buffer ++ l.source.delivered = bytes)
    (h : l.source.failure? = none ∨
      ∀ scan offset, Scan.blank.run l.offset bytes ≠ .more scan offset) :
    l.next.1 = (Scan.blank.run l.offset bytes).conclude.1 ∧
      l.next.2.offset = (Scan.blank.run l.offset bytes).conclude.2.1 := by
  have hnext : gatheredAnswer l.next =
      gatheredAnswer (scanOn .blank l.offset bytes l.source.ending) := by
    rw [next_gathered, gathered, next]
    simp [hfault, hended, hbytes]
  obtain ⟨hanswer, hlexer⟩ := Prod.mk.inj hnext
  have hoffset := congrArg Lexer.offset hlexer
  rw [offset_gathered, offset_gathered] at hoffset
  rw [hanswer, hoffset, scanOn.eq_def]
  cases hscan : Scan.blank.run l.offset bytes with
  | token t offset rest => exact ⟨rfl, rfl⟩
  | fault e offset rest => exact ⟨rfl, rfl⟩
  | more scan offset =>
    have hfailure := h.resolve_right fun hmore => hmore scan offset hscan
    rw [Source.ending, hfailure]
    obtain ⟨hpull, hstop, -⟩ := answers_close scan offset []
    exact ⟨hpull, hstop⟩

/-- In front of a run that a minus or a digit starts, the next answer is what the run comes to, and
the whole run is taken. -/
theorem next_of_run {l : Lexer} {left rest : List UInt8} {run : List Char}
    (hopen : l.fault = none ∧ l.ended = false)
    (hbytes : l.buffer ++ l.source.delivered =
      left ++ (Utf8.encodeString (.ofList run) ++ rest))
    (hleft : Blanks left) (hstart : ∃ c ∈ run.head?, c = '-' ∨ c.isDigit = true)
    (hrun : ∀ c ∈ run, Numeral.isNumeralChar c = true) (hmaximal : Apart rest)
    (hend : rest = [] → l.source.failure? = none) :
    Scan.RunEnds (l.offset + left.length) run rest l.next.1 ∧
      l.next.2.offset = l.offset + left.length + run.length := by
  have hfront := Scan.run_front hleft hstart hrun rest l.offset
  -- A failure of the source is of no account: if more comes behind the run, it ends the number.
  have hdelivered : l.source.failure? = none ∨ ∀ scan offset,
      Scan.blank.run l.offset (left ++ (Utf8.encodeString (.ofList run) ++ rest)) ≠
        .more scan offset := by
    cases rest with
    | nil => exact .inl (hend rfl)
    | cons b rest =>
      rw [hfront]
      exact .inr (Scan.run_number_ne_more (hmaximal b rfl) _ _ _)
  obtain ⟨hanswer, hoffset⟩ := next_of_delivered hopen.1 hopen.2 hbytes hdelivered
  obtain ⟨answer, hends, hconclude⟩ := Scan.runEnds_number run hmaximal (l.offset + left.length)
  rw [hfront, hconclude] at hanswer hoffset
  exact ⟨hanswer ▸ hends, hoffset⟩

/-- A run of the characters of numbers that a minus or a digit starts is classified by its
characters and by whether the input ends behind it. It is a token exactly if it is a numeral.
Otherwise, where the input ends, it is an end that comes too early exactly if more characters would
make it a numeral, which is to say if the run is an unfinished one; and in all other cases it is no
number, from its start on. The whole run is taken in any case. -/
theorem numbers_classified {l : Lexer} {left rest : List UInt8} {run : List Char}
    (hopen : l.fault = none ∧ l.ended = false)
    (hbytes : l.buffer ++ l.source.delivered =
      left ++ (Utf8.encodeString (.ofList run) ++ rest))
    (hleft : Blanks left) (hstart : ∃ c ∈ run.head?, c = '-' ∨ c.isDigit = true)
    (hrun : ∀ c ∈ run, Numeral.isNumeralChar c = true) (hmaximal : Apart rest)
    (hend : rest = [] → l.source.failure? = none) :
    let start := l.offset + left.length
    let stop := start + run.length
    (l.next.1 = .token ⟨.number, some (.ofList run), start⟩ ↔ Numeral.IsNumeral run) ∧
      (¬Numeral.IsNumeral run → rest = [] →
        (l.next.1 = .fault ⟨.unexpectedEnd, some stop⟩ ↔
          ∃ more, Numeral.IsNumeral (run ++ more))) ∧
      (¬Numeral.IsNumeral run → (rest ≠ [] ∨ ¬∃ more, Numeral.IsNumeral (run ++ more)) →
        l.next.1 = .fault ⟨.invalidJson (.invalidNumber (.ofList run)), some start⟩) ∧
      (Numeral.IsUnfinished run ↔
        ¬Numeral.IsNumeral run ∧ ∃ more, Numeral.IsNumeral (run ++ more)) ∧
      l.next.2.offset = stop := by
  intro start stop
  obtain ⟨hends, hoffset⟩ := next_of_run hopen hbytes hleft hstart hrun hmaximal hend
  have hne : run ≠ [] := by
    rintro rfl
    obtain ⟨c, hc, -⟩ := hstart
    cases hc
  exact ⟨hends.eq_token_iff, fun hn hrest => hends.eq_unexpectedEnd_iff hn hrest,
    fun hn hwrong => hends.eq_invalidNumber hn hwrong, Numeral.isUnfinished_iff hne, hoffset⟩

/-- A run is cut off behind its point, in a second read. Another is no number, as a comma shows that
comes in front of a failure. -/
theorem numbers_classified_cut :
    let l := ofSource [.bytes [0x20, 0x2D], .bytes [0x31, 0x2E]]
    let m := ofSource [.bytes [0x30, 0x31], .bytes [0x2C], .failure ["5"]]
    l.next.1 = .fault ⟨.unexpectedEnd, some 4⟩ ∧ l.next.2.offset = 4 ∧
      m.next.1 = .fault ⟨.invalidJson (.invalidNumber "01"), some 0⟩ ∧ m.next.2.offset = 2 := by
  intro l m
  have hpoint : ¬Numeral.IsNumeral ['-', '1', '.'] := Numeral.not_isNumeral_concat ['-', '1'] rfl
  have hmore : ∃ more, Numeral.IsNumeral (['-', '1', '.'] ++ more) :=
    Numeral.exists_isNumeral_append_iff.2 (by decide)
  have hzero : ¬Numeral.IsNumeral ['0', '1'] := by
    rw [← Numeral.isFinal_reach_iff]
    decide
  have hl : l.buffer ++ l.source.delivered =
      [0x20] ++ (Utf8.encodeString (.ofList ['-', '1', '.']) ++ []) := rfl
  have hm : m.buffer ++ m.source.delivered =
      [] ++ (Utf8.encodeString (.ofList ['0', '1']) ++ [0x2C]) := rfl
  have hblank : Blanks [0x20] := List.forall_mem_singleton.2 (.inl rfl)
  obtain ⟨-, hcut, -, -, hstop⟩ := numbers_classified ⟨rfl, rfl⟩ hl hblank ⟨'-', rfl, .inl rfl⟩
    (List.all_eq_true.1 rfl) apart_nil fun _ => rfl
  obtain ⟨-, -, hwrong, -, hstop'⟩ := numbers_classified ⟨rfl, rfl⟩ hm blanks_nil
    ⟨'0', rfl, .inr rfl⟩ (List.all_eq_true.1 rfl) (apart_cons rfl) nofun
  exact ⟨(hcut hpoint rfl).2 hmore, hstop, hwrong hzero (.inl nofun), hstop'⟩

end Lexer

end JsonShape
