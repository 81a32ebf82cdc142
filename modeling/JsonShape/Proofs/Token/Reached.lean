import JsonShape.Proofs.Token.Taken
import JsonShape.Token.Lexer

/-!
# Every token is reached

Where blanks and a token as it is written come next, a scan between two tokens takes the blanks and
delivers the token: at its last byte (`Scan.run_token`), or, if it is a number, at the first byte
that does not belong to it (`Scan.conclude_number`). Together with what a scan has taken, this says
which bytes make a token (`Scan.conclude_token_iff`) and which make none
(`Scan.conclude_stop_iff`).
-/

namespace JsonShape

open Grammar

/-- The answer that the end of a number is. -/
def Pull.ofResult : Except InputError Token → Pull
  | .ok t => .token t
  | .error e => .fault e

namespace Scan

/-! ## Runs one behind the other -/

/-- Bytes behind those that leave a scan under way are taken by that scan. -/
theorem run_append_of_more {scan scan' : Scan} {offset offset' : Nat} {bytes : List UInt8}
    (h : scan.run offset bytes = .more scan' offset') (rest : List UInt8) :
    scan.run offset (bytes ++ rest) = scan'.run offset' rest := by
  induction bytes generalizing scan offset with
  | nil =>
    cases h
    rfl
  | cons b bytes ih =>
    rw [run] at h
    rw [List.cons_append, run]
    cases hs : scan.step offset b with
    | more scan'' =>
      rw [hs] at h
      exact ih h
    | token | tokenBefore | fault | faultBefore =>
      rw [hs] at h
      cases h

/-- Bytes behind those that complete a token are left. -/
theorem run_append_of_token {scan : Scan} {offset offset' : Nat} {bytes left : List UInt8}
    {t : Token} (h : scan.run offset bytes = .token t offset' left) (rest : List UInt8) :
    scan.run offset (bytes ++ rest) = .token t offset' (left ++ rest) := by
  induction bytes generalizing scan offset with
  | nil => cases h
  | cons b bytes ih =>
    rw [run] at h
    rw [List.cons_append, run]
    cases hs : scan.step offset b with
    | more scan'' =>
      rw [hs] at h
      exact ih h
    | token | tokenBefore =>
      rw [hs] at h
      cases h
      rfl
    | fault | faultBefore =>
      rw [hs] at h
      cases h

/-- A fault stays where it is, whatever bytes follow it. -/
theorem run_append_of_fault {scan : Scan} {offset offset' : Nat} {bytes left : List UInt8}
    {e : InputError} (h : scan.run offset bytes = .fault e offset' left) (rest : List UInt8) :
    scan.run offset (bytes ++ rest) = .fault e offset' (left ++ rest) := by
  induction bytes generalizing scan offset with
  | nil => cases h
  | cons b bytes ih =>
    rw [run] at h
    rw [List.cons_append, run]
    cases hs : scan.step offset b with
    | more scan'' =>
      rw [hs] at h
      exact ih h
    | token | tokenBefore =>
      rw [hs] at h
      cases h
    | fault | faultBefore =>
      rw [hs] at h
      cases h
      rfl

/-- Blanks are passed over. -/
theorem run_blanks {blanks : List UInt8} (h : Blanks blanks) (offset : Nat) :
    blank.run offset blanks = .more .blank (offset + blanks.length) := by
  induction blanks generalizing offset with
  | nil => rfl
  | cons b blanks ih =>
    obtain ⟨hb, h⟩ := List.forall_mem_cons.1 h
    have hstep : blank.step offset b = .more .blank := by
      rw [step, stepBlank, if_pos (by simpa [isBlank, or_assoc] using hb)]
    rw [run, hstep]
    simp only [ih h, List.length_cons]
    congr 1
    omega

/-! ## Strings -/

/-- The scan is in a string whose text so far is known: the part that is decoded, and the run that
will be. -/
def Holding (start : Nat) (text : String) (scan : Scan) : Prop :=
  ∃ decoded run s, scan = string start decoded (.raw run) ∧ Utf8.decode? run.reverse = some s ∧
    decoded ++ s = text

/-- Bytes that may stand for themselves are added to the run. -/
theorem run_isRaw {bytes : List UInt8} (h : ∀ b ∈ bytes, IsRaw b) (start offset : Nat)
    (text : String) (run : List UInt8) :
    (string start text (.raw run)).run offset bytes =
      .more (.string start text (.raw (bytes.reverse ++ run))) (offset + bytes.length) := by
  induction bytes generalizing offset run with
  | nil => rfl
  | cons b bytes ih =>
    obtain ⟨⟨hquote, hslash, hcontrol⟩, h⟩ := List.forall_mem_cons.1 h
    have hstep : (string start text (.raw run)).step offset b =
        .more (.string start text (.raw (b :: run))) := by
      simp only [step, stepString, if_neg hquote, if_neg hslash, if_neg hcontrol]
    rw [Scan.run, hstep]
    simp only [ih h, List.length_cons, List.reverse_cons, List.append_assoc, List.singleton_append]
    congr 1
    omega

/-- Four hexadecimal digits are taken one by one. -/
theorem run_digits {code : Nat} {bytes : List UInt8} (h : NumberEscape code bytes) : ∃ w x y z,
    bytes = [0x5C, 0x75, w, x, y, z] ∧
      ∀ {start origin : Nat} {text : String} {high : Option Nat} {scan : Scan},
        closeDigits start text origin high code = .more scan → ∀ offset,
        (string start text (.digits origin high 3 0)).run offset [w, x, y, z] =
          .more scan (offset + 4) := by
  cases h with
  | @digits a b c d w x y z ha hb hc hd =>
    refine ⟨w, x, y, z, rfl, fun hclose offset => ?_⟩
    have hcode : (((0 * 16 + a) * 16 + b) * 16 + c) * 16 + d =
        a * 0x1000 + b * 0x100 + c * 0x10 + d := by omega
    rw [← hcode] at hclose
    simp only [run, step, stepString, hexDigit?_eq_some_iff.2 ha, hexDigit?_eq_some_iff.2 hb,
      hexDigit?_eq_some_iff.2 hc, hexDigit?_eq_some_iff.2 hd, hclose]

/-- Behind a backslash the text so far is decoded. -/
theorem Holding.step_backslash {start : Nat} {text : String} {scan : Scan}
    (h : Holding start text scan) (offset : Nat) :
    scan.step offset 0x5C = .more (.string start text .escape) := by
  obtain ⟨decoded, run, s, rfl, hs, rfl⟩ := h
  simp [step, stepString, hs]

/-- A backslash and a `u` lead to the digits of an escape. -/
theorem Holding.run_backslash_u {start : Nat} {text : String} {scan : Scan}
    (h : Holding start text scan) (offset : Nat) (ds : List UInt8) :
    scan.run offset (0x5C :: 0x75 :: ds) =
      (string start text (.digits (offset + 1) none 3 0)).run (offset + 2) ds := by
  rw [Scan.run, h.step_backslash]
  rfl

/-- Behind an escape nothing is left to be decoded. -/
theorem holding_nil (start : Nat) (text : String) :
    Holding start text (.string start text (.raw [])) :=
  ⟨text, [], "", rfl, Utf8.decode?_encodeString "", by simp⟩

/-- A spelled character is added to the text, however it is spelled. -/
theorem Holding.spelledChar {start : Nat} {text : String} {scan : Scan}
    (h : Holding start text scan) {c : Char} {bytes : List UInt8} (hc : SpelledChar c bytes)
    (offset : Nat) : ∃ scan' offset', scan.run offset bytes = .more scan' offset' ∧
      Holding start (text.push c) scan' := by
  cases hc with
  | raw control quote backslash =>
    obtain ⟨decoded, run, s, rfl, hs, rfl⟩ := h
    have hraw : ∀ b ∈ String.utf8EncodeChar c, IsRaw b :=
      fun b hb => isRaw_of_mem_encodeChar control quote backslash hb
    refine ⟨_, _, run_isRaw hraw start offset decoded run, decoded, _, s.push c, rfl, ?_, ?_⟩
    · rw [Utf8.decode?_eq_some_iff] at hs ⊢
      simp [hs, Utf8.encodeString]
    · exact String.toList_inj.1 (by simp)
  | short hb =>
    refine ⟨_, offset + 2, ?_, holding_nil start (text.push c)⟩
    simp only [run, h.step_backslash]
    simp only [step, stepString, shortEscape?_eq_some_iff.2 hb]
  | number hn =>
    obtain ⟨w, x, y, z, rfl, hdigits⟩ := run_digits hn
    obtain ⟨hhigh, hlow⟩ := not_isSurrogate_toNat c
    have hclose : closeDigits start text (offset + 1) none c.toNat =
        .more (.string start (text.push c) (.raw [])) := by
      simp [closeDigits, hhigh, hlow, Char.ofNat_toNat]
    refine ⟨_, offset + 2 + 4, ?_, holding_nil start (text.push c)⟩
    rw [h.run_backslash_u, hdigits hclose]
  | pair wide hh hl =>
    obtain ⟨w, x, y, z, rfl, hfirst⟩ := run_digits hh
    obtain ⟨w', x', y', z', rfl, hsecond⟩ := run_digits hl
    obtain ⟨hhigh, hlow, hpair⟩ := surrogates_of_le wide
    have hclose : closeDigits start text (offset + 1) none
        (0xD800 + (c.toNat - 0x10000) / 0x400) =
        .more (.string start text
          (.pair (offset + 1) (0xD800 + (c.toNat - 0x10000) / 0x400))) := by
      simp [closeDigits, hhigh]
    have hclose' : closeDigits start text (offset + 1)
        (some (0xD800 + (c.toNat - 0x10000) / 0x400))
        (0xDC00 + (c.toNat - 0x10000) % 0x400) =
        .more (.string start (text.push c) (.raw [])) := by
      simp [closeDigits, hlow, hpair]
    refine ⟨_, offset + 2 + 4 + 2 + 4, ?_, holding_nil start (text.push c)⟩
    rw [List.cons_append, List.cons_append, h.run_backslash_u,
      run_append_of_more (hfirst hclose (offset + 2))]
    exact hsecond hclose' (offset + 2 + 4 + 2)

/-- Spelled characters are added to the text one by one. -/
theorem Holding.spelledText {start : Nat} {text : String} {scan : Scan}
    (h : Holding start text scan) {cs : List Char} {bytes : List UInt8}
    (hc : SpelledText cs bytes) (offset : Nat) :
    ∃ scan' offset', scan.run offset bytes = .more scan' offset' ∧
      Holding start (text ++ .ofList cs) scan' := by
  induction hc generalizing text scan offset with
  | nil => exact ⟨scan, offset, rfl, by simpa using h⟩
  | @cons c cs _ _ hc _ ih =>
    obtain ⟨scan', offset', hrun, h'⟩ := h.spelledChar hc offset
    obtain ⟨scan'', offset'', hrun', h''⟩ := ih h' offset'
    have htext : text.push c ++ .ofList cs = text ++ .ofList (c :: cs) :=
      String.toList_inj.1 (by simp)
    exact ⟨scan'', offset'', by rw [run_append_of_more hrun, hrun'], htext ▸ h''⟩

/-- A string is delivered at its closing quote. -/
theorem run_string {text : String} {bytes : List UInt8} (h : SpelledString text bytes)
    (offset : Nat) :
    ∃ offset', blank.run offset bytes = .token ⟨.string, some text, offset⟩ offset' [] := by
  obtain ⟨inner, hinner, rfl⟩ := h
  obtain ⟨scan, offset', hrun, decoded, run, s, rfl, hs, htext⟩ :=
    (holding_nil offset "").spelledText hinner (offset + 1)
  refine ⟨offset' + 1, ?_⟩
  have hstart : blank.run offset (0x22 :: (inner ++ [0x22])) =
      (string offset "" (.raw [])).run (offset + 1) (inner ++ [0x22]) := rfl
  have htext : decoded ++ s = text := by simpa using htext
  rw [hstart, run_append_of_more hrun]
  simp [Scan.run, step, stepString, hs, htext]

/-! ## Numbers -/

/-- The characters of a number are taken one by one. -/
theorem run_numeralChars {cs : List Char} (h : ∀ c ∈ cs, Numeral.isNumeralChar c = true)
    (start offset : Nat) (run : List Char) :
    (number start run).run offset (cs.flatMap String.utf8EncodeChar) =
      .more (.number start (cs.reverse ++ run)) (offset + cs.length) := by
  induction cs generalizing offset run with
  | nil => rfl
  | cons c cs ih =>
    obtain ⟨hc, h⟩ := List.forall_mem_cons.1 h
    obtain ⟨b, hb⟩ : ∃ b, String.utf8EncodeChar c = [b] :=
      ⟨_, Utf8.encodeChar_of_lt (toNat_lt_of_isNumeralChar hc)⟩
    have hstep : (number start run).step offset b = .more (.number start (c :: run)) := by
      simp only [step, stepNumber, numeralChar?_eq_some_iff.2 ⟨hc, hb⟩]
    rw [List.flatMap_cons, hb, List.singleton_append, Scan.run, hstep]
    simp only [ih h, List.length_cons, List.reverse_cons, List.append_assoc, List.singleton_append]
    congr 1
    omega

/-- A minus or a digit starts a number. -/
theorem step_of_start {c : Char} (h : c = '-' ∨ c.isDigit = true) :
    ∃ b, String.utf8EncodeChar c = [b] ∧
      ∀ offset, blank.step offset b = .more (.number offset [c]) := by
  have hc : c.toNat = 0x2D ∨ 0x30 ≤ c.toNat ∧ c.toNat ≤ 0x39 := by
    rcases h with rfl | h
    · exact .inl rfl
    · simp only [Char.isDigit, Bool.and_eq_true, decide_eq_true_eq] at h
      exact .inr h
  have hlt : c.toNat < 0x80 := by omega
  refine ⟨_, Utf8.encodeChar_of_lt hlt, fun offset => ?_⟩
  generalize hb : UInt8.ofNat c.toNat = b
  have hn : b.toNat = c.toNat := by
    rw [← hb, UInt8.toNat_ofNat_of_lt' (Nat.lt_trans hlt (by decide))]
  have hblank : isBlank b = false := by
    simp only [isBlank, Bool.or_eq_false_iff, decide_eq_false_iff_not, ← UInt8.toNat_inj,
      UInt8.reduceToNat]
    omega
  have hquote : b ≠ 0x22 := by
    simp only [ne_eq, ← UInt8.toNat_inj, UInt8.reduceToNat]
    omega
  have hstart : (b = 0x2D || 0x30 ≤ b && b ≤ 0x39) = true := by
    simp only [Bool.or_eq_true, Bool.and_eq_true, decide_eq_true_eq, ← UInt8.toNat_inj,
      UInt8.le_iff_toNat_le, UInt8.reduceToNat]
    omega
  rw [step, stepBlank, hblank, if_neg hquote, if_pos hstart, hn, Char.ofNat_toNat]
  rfl

/-- A run of the characters of numbers is a number under way if a minus or a digit starts it. -/
theorem run_of_start {c : Char} {cs : List Char} (hc : c = '-' ∨ c.isDigit = true)
    (h : ∀ d ∈ cs, Numeral.isNumeralChar d = true) (offset : Nat) :
    blank.run offset ((c :: cs).flatMap String.utf8EncodeChar) =
      .more (.number offset (c :: cs).reverse) (offset + (c :: cs).length) := by
  obtain ⟨b, hb, hstep⟩ := step_of_start hc
  rw [List.flatMap_cons, hb, List.singleton_append, Scan.run, hstep]
  simp only [run_numeralChars h, List.length_cons, List.reverse_cons]
  congr 1
  omega

/-- A number is still under way behind its last character. -/
theorem run_numeral {cs : List Char} (h : Numeral.IsNumeral cs) (offset : Nat) :
    blank.run offset (cs.flatMap String.utf8EncodeChar) =
      .more (.number offset cs.reverse) (offset + cs.length) := by
  obtain ⟨c, ds, rfl, hc⟩ := h.exists_cons
  have hds := (List.forall_mem_cons.1 (Numeral.Place.Bears.isNumeralChar (p := .start) h)).2
  exact run_of_start hc hds offset

/-! ## Ends -/

/-- What a scan comes to if the input ends behind the bytes: what there is when a token is asked
for, the bytes taken, and those that are left. -/
def Progress.conclude : Progress → Pull × Nat × List UInt8
  | .token t offset rest => (.token t, offset, rest)
  | .fault e offset rest => (.fault e, offset, rest)
  | .more scan offset =>
    match scan.finish offset with
    | none => (.stop, offset, [])
    | some (.ok t) => (.token t, offset, [])
    | some (.error e) => (.fault e, offset, [])

/-- A number is a token if it is complete where it is closed. -/
theorem closeNumber_of_isFinal {run : List Char} (h : (Numeral.reach run.reverse).isFinal = true)
    (start : Nat) : closeNumber start run = .ok ⟨.number, some (.ofList run.reverse), start⟩ :=
  if_pos h

/-- A number may end behind the run: it is complete, or wrong whatever follows. -/
def Closes (run : List Char) : Prop :=
  (Numeral.reach run.reverse).isFinal = true ∨ Numeral.reach run.reverse = .astray

/-- The end of the input is the end of a number that may end there. -/
theorem finish_number_of_closes {run : List Char} (h : Closes run) (start offset : Nat) :
    finish (number start run) offset = some (closeNumber start run) :=
  if_pos (by simpa [Closes] using h)

/-- The input may not end in a number that more characters could complete. -/
theorem finish_number_of_not_closes {run : List Char} (h : ¬Closes run) (start offset : Nat) :
    finish (number start run) offset = some (.error ⟨.unexpectedEnd, some offset⟩) :=
  if_neg (by simpa [Closes] using h)

/-- A number is over in front of a byte that numbers are not made of. -/
theorem conclude_number_cons {b : UInt8} (hb : numeralChar? b = none) (start : Nat)
    (run : List Char) (offset : Nat) (more : List UInt8) :
    ((number start run).run offset (b :: more)).conclude =
      (.ofResult (closeNumber start run), offset, b :: more) := by
  rw [Scan.run, step, stepNumber, hb]
  cases closeNumber start run <;> rfl

/-- A number that may end is over where nothing that belongs to it follows. -/
theorem conclude_number_of_apart {run : List Char} {more : List UInt8} (h : Closes run)
    (ha : Apart more) (start offset : Nat) :
    ((number start run).run offset more).conclude =
      (.ofResult (closeNumber start run), offset, more) := by
  cases more with
  | nil =>
    rw [Scan.run, Progress.conclude, finish_number_of_closes h]
    cases closeNumber start run <;> rfl
  | cons b more => exact conclude_number_cons (ha b rfl) start run offset more

/-- A number is delivered where it is over. -/
theorem conclude_number {cs : List Char} (h : Numeral.IsNumeral cs) {rest : List UInt8}
    (ha : Apart rest) (offset : Nat) :
    ∃ offset', (blank.run offset (cs.flatMap String.utf8EncodeChar ++ rest)).conclude =
      (.token ⟨.number, some (.ofList cs), offset⟩, offset', rest) := by
  have hfinal : (Numeral.reach cs.reverse.reverse).isFinal = true := by
    rw [List.reverse_reverse]
    exact Numeral.isFinal_reach_iff.2 h
  refine ⟨offset + cs.length, ?_⟩
  rw [run_append_of_more (run_numeral h offset), conclude_number_of_apart (.inl hfinal) ha,
    closeNumber_of_isFinal hfinal, List.reverse_reverse]
  rfl

/-! ## Tokens -/

/-- What is written as a token has no text but that of a string or a number. -/
theorem lexeme_of_tokenBytes {x : Value.Lexeme} {bytes : List UInt8} (h : TokenBytes x bytes)
    (offset : Int) : Token.lexeme ⟨x.1, x.2, offset⟩ = x := by
  cases h <;> simp [Token.lexeme]

/-- A token that is no number is delivered at its last byte. -/
theorem run_token {x : Value.Lexeme} {bytes : List UInt8} (h : TokenBytes x bytes)
    (hx : x.1 ≠ .number) (offset : Nat) :
    ∃ offset', blank.run offset bytes = .token ⟨x.1, x.2, offset⟩ offset' [] := by
  cases h with
  | objectStart | objectEnd | arrayStart | arrayEnd | colon | comma => exact ⟨_, rfl⟩
  | word w => cases w <;> exact ⟨_, rfl⟩
  | string h => exact run_string h offset
  | number => exact absurd rfl hx

/-- A token behind blanks is delivered as the one that starts there, and the bytes behind it are
left. -/
theorem conclude_token {x : Value.Lexeme} {left token rest : List UInt8} (hl : Blanks left)
    (h : TokenBytes x token) (ha : x.1 = .number → Apart rest) (offset : Nat) :
    ∃ offset', (blank.run offset (left ++ (token ++ rest))).conclude =
      (.token ⟨x.1, x.2, ↑(offset + left.length)⟩, offset', rest) := by
  rw [run_append_of_more (run_blanks hl offset)]
  by_cases hx : x.1 = .number
  · cases h with
    | @number literal hn =>
      obtain ⟨offset', hrun⟩ := conclude_number hn (ha rfl) (offset + left.length)
      rw [String.ofList_toList] at hrun
      exact ⟨offset', hrun⟩
    | word | string => cases hx
    | objectStart | objectEnd | arrayStart | arrayEnd | colon | comma => cases hx
  · obtain ⟨offset', hrun⟩ := run_token h hx (offset + left.length)
    refine ⟨offset', ?_⟩
    rw [run_append_of_token hrun]
    rfl

/-- A token is delivered exactly if blanks and the token as it is written come first. -/
theorem conclude_token_iff {x : Value.Lexeme} {offset : Nat} {bytes rest : List UInt8} :
    (∃ t offset', (blank.run offset bytes).conclude = (.token t, offset', rest) ∧
        t.lexeme = x) ↔
      ∃ left token, bytes = left ++ (token ++ rest) ∧ Blanks left ∧ TokenBytes x token ∧
        (x.1 = .number → Apart rest) := by
  constructor
  · rintro ⟨t, offset', h, rfl⟩
    have hends := (Began.blank blanks_nil).run offset bytes
    generalize blank.run offset bytes = progress at h hends
    cases progress with
    | token t' _ _ =>
      cases h
      obtain ⟨taken, rfl, ⟨left, token, htaken, hl, ht⟩, ha⟩ := hends
      rw [List.nil_append] at htaken
      exact ⟨left, token, by rw [htaken, List.append_assoc], hl, ht, ha⟩
    | fault => cases h
    | more scan _ =>
      simp only [Progress.conclude] at h
      split at h
      · cases h
      · next hf =>
        cases h
        obtain ⟨left, token, htaken, hl, ht⟩ := hends.delivered_of_finish hf
        rw [List.nil_append] at htaken
        exact ⟨left, token, by rw [htaken, List.append_nil], hl, ht, fun _ => nofun⟩
      · cases h
  · rintro ⟨left, token, rfl, hl, ht, ha⟩
    obtain ⟨offset', h⟩ := conclude_token hl ht ha offset
    exact ⟨_, offset', h, lexeme_of_tokenBytes ht _⟩

/-- There is no token exactly if nothing but blanks comes. -/
theorem conclude_stop_iff {offset : Nat} {bytes : List UInt8} :
    (blank.run offset bytes).conclude.1 = .stop ↔ Blanks bytes := by
  refine ⟨fun h => ?_, fun h => ?_⟩
  · have hends := (Began.blank blanks_nil).run offset bytes
    generalize blank.run offset bytes = progress at h hends
    cases progress with
    | token | fault => cases h
    | more scan _ =>
      simp only [Progress.conclude] at h
      split at h
      · next hf => simpa using hends.blanks_of_finish hf
      · cases h
      · cases h
  · rw [run_blanks h]
    rfl

end Scan

end JsonShape
