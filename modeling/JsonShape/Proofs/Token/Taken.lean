import JsonShape.Proofs.Grammar.Tokenized
import JsonShape.Proofs.Token.Numeral
import JsonShape.Proofs.Token.Spelling

/-!
# What a scan has taken

A scan that is under way has taken blanks and the beginning of a token: `Scan.Began` says which
bytes these may be, for each scan. Every byte preserves that (`Scan.Began.step`), so a token that a
run of bytes completes is written in the bytes that were taken (`Scan.Began.run`), also where the
end of the input completes it (`Scan.Began.delivered_of_finish`).
-/

namespace JsonShape

open Grammar

/-- The escape of the high surrogate that may stand in front of another escape. -/
inductive StringPlace.Front : Option Nat → List UInt8 → Prop where
  | none : Front none []
  | some {high : Nat} {bytes : List UInt8} (hs : Scan.isHighSurrogate high = true)
      (h : NumberEscape high bytes) : Front (some high) bytes

/-- Bytes of a string that are taken and spell no character yet. -/
inductive StringPlace.Pending : StringPlace → List UInt8 → Prop where
  | raw {run : List UInt8} (h : ∀ b ∈ run, IsRaw b) : Pending (.raw run) run.reverse
  | escape : Pending .escape [0x5C]
  | digits {origin owed code : Nat} {high : Option Nat} {front ds : List UInt8}
      (hf : Front high front) (hr : HexRun code ds) (hn : ds.length + owed = 3) :
      Pending (.digits origin high owed code) (front ++ 0x5C :: 0x75 :: ds)
  | pair {origin high : Nat} {front : List UInt8} (hf : Front (some high) front) :
      Pending (.pair origin high) front
  | pairEscape {origin high : Nat} {front : List UInt8} (hf : Front (some high) front) :
      Pending (.pairEscape origin high) (front ++ [0x5C])

/-- Nothing is pending behind a spelled character. -/
theorem StringPlace.Pending.nil : StringPlace.Pending (.raw []) [] :=
  .raw nofun

namespace Scan

/-- Blanks and the beginning of a token that a scan may have taken. -/
inductive Began : Scan → List UInt8 → Prop where
  | blank {blanks : List UInt8} (h : Blanks blanks) : Began .blank blanks
  | word {left bytes owed : List UInt8} {start : Nat} {w : Word} {next : UInt8} (hl : Blanks left)
      (h : bytes ++ next :: owed = Utf8.encodeString w.spelling) :
      Began (.word start w next owed) (left ++ bytes)
  | number {left : List UInt8} {start : Nat} {run : List Char} (hl : Blanks left) :
      Began (.number start run) (left ++ Utf8.encodeString (.ofList run.reverse))
  | string {left inner pending : List UInt8} {start : Nat} {text : String} {place : StringPlace}
      (hl : Blanks left) (h : SpelledText text.toList inner) (hp : place.Pending pending) :
      Began (.string start text place) (left ++ 0x22 :: (inner ++ pending))

/-- The bytes are a token as it is written, with blanks in front of it. -/
def Delivered (t : Token) (bytes : List UInt8) : Prop :=
  ∃ left token, bytes = left ++ token ∧ Blanks left ∧ TokenBytes t.lexeme token

/-- What the step for one more byte says about the bytes taken. -/
def Tells (bytes : List UInt8) (b : UInt8) : Step → Prop
  | .more scan => scan.Began (bytes ++ [b])
  | .token t => Delivered t (bytes ++ [b]) ∧ t.lexeme.1 ≠ .number
  | .tokenBefore t => Delivered t bytes ∧ numeralChar? b = none
  | .fault _ | .faultBefore _ => True

/-! ## Steps -/

/-- A string goes on behind some spelled characters. -/
theorem tells_more {bytes left inner pending : List UInt8} {b : UInt8} {start : Nat} {text : String}
    {place : StringPlace} (hl : Blanks left) (h : SpelledText text.toList inner)
    (hp : place.Pending pending) (hb : bytes ++ [b] = left ++ 0x22 :: (inner ++ pending)) :
    Tells bytes b (.more (.string start text place)) := by
  rw [Tells, hb]
  exact .string hl h hp

/-- A number that is closed is a numeral. -/
theorem closeNumber_eq_ok {start : Nat} {run : List Char} {t : Token}
    (h : closeNumber start run = .ok t) :
    t.lexeme = (.number, some (.ofList run.reverse)) ∧ Numeral.IsNumeral run.reverse := by
  simp only [closeNumber] at h
  split at h
  · next hf =>
    cases h
    exact ⟨rfl, Numeral.isFinal_reach_iff.1 hf⟩
  · cases h

/-- A number that is closed is delivered. -/
theorem Began.delivered_of_closeNumber {start : Nat} {run : List Char} {bytes : List UInt8}
    {t : Token} (h : Began (.number start run) bytes) (ht : closeNumber start run = .ok t) :
    Delivered t bytes := by
  obtain ⟨hlex, hn⟩ := closeNumber_eq_ok ht
  cases h with
  | number hl =>
    refine ⟨_, _, rfl, hl, ?_⟩
    rw [hlex]
    exact .number (by rwa [String.toList_ofList])

/-- A mark is a token by itself. -/
theorem tokenBytes_of_punctuation? {b : UInt8} {kind : TokenKind} (h : punctuation? b = some kind) :
    TokenBytes (kind, none) [b] ∧ kind ≠ .number ∧ kind ≠ .string := by
  unfold punctuation? at h
  split at h <;> cases h
  · exact ⟨.objectStart, nofun, nofun⟩
  · exact ⟨.objectEnd, nofun, nofun⟩
  · exact ⟨.arrayStart, nofun, nofun⟩
  · exact ⟨.arrayEnd, nofun, nofun⟩
  · exact ⟨.colon, nofun, nofun⟩
  · exact ⟨.comma, nofun, nofun⟩

/-- A word starts with its first byte, and the others are owed. -/
theorem began_ofWord {bytes : List UInt8} (h : Blanks bytes) {b : UInt8} {w : Word}
    (hw : word? b = some w) (start : Nat) : Began (ofWord start w) (bytes ++ [b]) := by
  unfold word? at hw
  split at hw <;> cases hw <;> exact .word h (by decide)

/-- A token starts behind blanks, or another blank comes. -/
theorem tells_blank {bytes : List UInt8} (h : Blanks bytes) (offset : Nat) (b : UInt8) :
    Tells bytes b (stepBlank offset b) := by
  rw [stepBlank]
  split
  · next hb =>
    simp only [isBlank, Bool.or_eq_true, decide_eq_true_eq, or_assoc] at hb
    exact .blank (h.append (List.forall_mem_singleton.2 hb))
  · split
    · next hb =>
      subst hb
      exact tells_more h .nil .nil rfl
    · split
      · next hb =>
        have hc := (numeralChar?_eq_some_iff.1 (numeralChar?_of_start hb)).2
        have hnumber : Began (.number offset [Char.ofNat b.toNat])
            (bytes ++ Utf8.encodeString (.ofList [Char.ofNat b.toNat])) := .number h
        rw [Tells]
        simpa [Utf8.encodeString, hc] using hnumber
      · split
        · next kind hk =>
          obtain ⟨ht, hnumber, hstring⟩ := tokenBytes_of_punctuation? hk
          have hlex : Token.lexeme ⟨kind, none, offset⟩ = (kind, none) :=
            Token.lexeme_of_kind rfl ⟨hstring, hnumber⟩
          exact ⟨⟨bytes, [b], rfl, h, hlex ▸ ht⟩, hnumber⟩
        · split
          · next w hw => exact began_ofWord h hw offset
          · trivial

/-- A byte of a word is the next one of its spelling. -/
theorem Began.tells_word {start : Nat} {w : Word} {next : UInt8} {owed bytes : List UInt8}
    (h : Began (.word start w next owed) bytes) (b : UInt8) :
    Tells bytes b (stepWord start w next owed b) := by
  cases h with
  | @word left taken _ _ _ _ hl h =>
    unfold stepWord
    split
    · next hb =>
      subst hb
      cases owed with
      | nil =>
        refine ⟨⟨left, taken ++ [b], by simp, hl, ?_⟩, by simp [Token.lexeme]⟩
        rw [h]
        exact .word w
      | cons next owed =>
        rw [Tells, List.append_assoc]
        exact .word hl (by simpa using h)
    · trivial

/-- A number goes on, or it is over. -/
theorem Began.tells_number {start : Nat} {run : List Char} {bytes : List UInt8}
    (h : Began (.number start run) bytes) (b : UInt8) :
    Tells bytes b (stepNumber start run b) := by
  rw [stepNumber]
  split
  · next c hc =>
    cases h with
    | number hl =>
      have hb : Utf8.encodeString (.ofList (c :: run).reverse) =
          Utf8.encodeString (.ofList run.reverse) ++ [b] := by
        simp [Utf8.encodeString, (numeralChar?_eq_some_iff.1 hc).2]
      rw [Tells, List.append_assoc, ← hb]
      exact .number hl
  · next hc =>
    split
    · next t ht => exact ⟨h.delivered_of_closeNumber ht, hc⟩
    · trivial

section

variable {left inner : List UInt8} {text : String}

/-- A run of bytes goes on, or it is decoded. -/
theorem tells_raw {run : List UInt8} (hl : Blanks left) (h : SpelledText text.toList inner)
    (hraw : ∀ b ∈ run, IsRaw b) (start offset : Nat) (b : UInt8) :
    Tells (left ++ 0x22 :: (inner ++ run.reverse)) b
      (stepString start text (.raw run) offset b) := by
  simp only [stepString]
  split
  · next hquote =>
    subst hquote
    split
    · next s hs =>
      have hstring : SpelledString (text ++ s) (0x22 :: (inner ++ run.reverse ++ [0x22])) :=
        ⟨_, h.append_run hraw hs, rfl⟩
      exact ⟨⟨left, _, by simp, hl, .string hstring⟩, by simp [Token.lexeme]⟩
    · trivial
  · next hquote =>
    split
    · next hslash =>
      subst hslash
      split
      · next s hs =>
        exact tells_more hl (h.append_run hraw hs) .escape (by simp)
      · trivial
    · next hslash =>
      split
      · trivial
      · next hcontrol =>
        have hrun : ∀ c ∈ b :: run, IsRaw c :=
          List.forall_mem_cons.2 ⟨⟨hquote, hslash, hcontrol⟩, hraw⟩
        exact tells_more hl h (.raw hrun) (by simp)

/-- Behind a backslash, a character is escaped. -/
theorem tells_escape (hl : Blanks left) (h : SpelledText text.toList inner)
    (start offset : Nat) (b : UInt8) :
    Tells (left ++ 0x22 :: (inner ++ [0x5C])) b (stepString start text .escape offset b) := by
  simp only [stepString]
  split
  · next c hc =>
    have hpush := h.push (.short (shortEscape?_eq_some_iff.1 hc))
    exact tells_more hl hpush .nil (by simp)
  · split
    · next hu =>
      subst hu
      exact tells_more hl h (.digits .none .nil rfl) (by simp)
    · trivial

/-- The value of an escape by number tells whether it spells a character, by itself or with the
escape in front of it. -/
theorem tells_closeDigits {bytes front esc : List UInt8} {b : UInt8} {origin code : Nat}
    {high : Option Nat} (hl : Blanks left) (h : SpelledText text.toList inner)
    (hf : StringPlace.Front high front) (hesc : NumberEscape code esc)
    (hb : bytes ++ [b] = left ++ 0x22 :: (inner ++ (front ++ esc))) (start : Nat) :
    Tells bytes b (closeDigits start text origin high code) := by
  cases hf with
  | none =>
    simp only [closeDigits]
    split
    · next hhigh => exact tells_more hl h (.pair (.some hhigh hesc)) hb
    · next hhigh =>
      split
      · trivial
      · next hlow =>
        rw [Bool.not_eq_true] at hhigh hlow
        have hpush := h.push (spelledChar_ofNat hhigh hlow hesc)
        exact tells_more hl hpush .nil (by simpa using hb)
  | some hs hh =>
    simp only [closeDigits]
    split
    · next hlow =>
      have hpush := h.push (spelledChar_pairChar hs hlow hh hesc)
      exact tells_more hl hpush .nil (by simpa using hb)
    · trivial

/-- An escape by number is over once its digits are. -/
theorem tells_digits {origin owed code : Nat} {high : Option Nat} {front ds : List UInt8}
    (hl : Blanks left) (h : SpelledText text.toList inner) (hf : StringPlace.Front high front)
    (hr : HexRun code ds) (hn : ds.length + owed = 3) (start offset : Nat) (b : UInt8) :
    Tells (left ++ 0x22 :: (inner ++ (front ++ 0x5C :: 0x75 :: ds))) b
      (stepString start text (.digits origin high owed code) offset b) := by
  simp only [stepString]
  split
  · trivial
  · next d hd =>
    have hrun := hr.snoc (hexDigit?_eq_some_iff.1 hd)
    cases owed with
    | zero =>
      have hesc := numberEscape_of_hexRun hrun (by simpa using hn)
      exact tells_closeDigits hl h hf hesc (by simp) start
    | succ owed =>
      have hlen : (ds ++ [b]).length + owed = 3 := by
        rw [List.length_append, List.length_singleton]
        omega
      exact tells_more hl h (.digits hf hrun hlen) (by simp)

/-- A string goes on with the bytes of another character, or it is over. -/
theorem tells_string {pending : List UInt8} {place : StringPlace} (hl : Blanks left)
    (h : SpelledText text.toList inner) (hp : place.Pending pending) (start offset : Nat)
    (b : UInt8) :
    Tells (left ++ 0x22 :: (inner ++ pending)) b (stepString start text place offset b) := by
  cases hp with
  | raw hraw => exact tells_raw hl h hraw start offset b
  | escape => exact tells_escape hl h start offset b
  | digits hf hr hn => exact tells_digits hl h hf hr hn start offset b
  | pair hf =>
    simp only [stepString]
    split
    · next hb =>
      subst hb
      exact tells_more hl h (.pairEscape hf) (by simp)
    · trivial
  | pairEscape hf =>
    simp only [stepString]
    split
    · next hb =>
      subst hb
      exact tells_more hl h (.digits hf .nil rfl) (by simp)
    · trivial

end

/-- What is taken stays the beginning of a token, whatever byte comes next. -/
theorem Began.step {scan : Scan} {bytes : List UInt8} (h : scan.Began bytes) (offset : Nat)
    (b : UInt8) : Tells bytes b (scan.step offset b) := by
  cases h with
  | blank h => exact tells_blank h offset b
  | word hl hw => exact (Began.word hl hw).tells_word b
  | number hl => exact (Began.number hl).tells_number b
  | string hl h hp => exact tells_string hl h hp _ offset b

/-! ## Runs -/

/-- What a run of bytes says about the bytes taken before and in it. -/
def Ends (bytes more : List UInt8) : Progress → Prop
  | .more scan _ => scan.Began (bytes ++ more)
  | .token t _ rest => ∃ taken, more = taken ++ rest ∧ Delivered t (bytes ++ taken) ∧
      (t.lexeme.1 = .number → Apart rest)
  | .fault _ _ _ => True

/-- A byte that is taken belongs to the bytes taken before the run goes on. -/
theorem Ends.cons {bytes more : List UInt8} {b : UInt8} {progress : Progress}
    (h : Ends (bytes ++ [b]) more progress) : Ends bytes (b :: more) progress := by
  cases progress with
  | more scan offset => simpa [Ends] using h
  | token t offset rest =>
    obtain ⟨taken, rfl, ht, ha⟩ := h
    exact ⟨b :: taken, rfl, by simpa using ht, ha⟩
  | fault e offset rest => trivial

/-- A token that a run of bytes completes is written in the bytes that were taken. -/
theorem Began.run {scan : Scan} {bytes : List UInt8} (h : scan.Began bytes) (offset : Nat)
    (more : List UInt8) : Ends bytes more (scan.run offset more) := by
  induction more generalizing scan bytes offset with
  | nil => simpa [Scan.run, Ends] using h
  | cons b more ih =>
    have hstep := h.step offset b
    rw [Scan.run]
    cases hs : scan.step offset b with
    | more scan' =>
      rw [hs] at hstep
      exact (ih hstep (offset + 1)).cons
    | token t =>
      rw [hs] at hstep
      exact ⟨[b], rfl, hstep.1, fun e => absurd e hstep.2⟩
    | tokenBefore t =>
      rw [hs] at hstep
      exact ⟨[], rfl, by simpa using hstep.1, fun _ => apart_cons hstep.2⟩
    | fault | faultBefore => trivial

/-- Only a number may be completed by the end of the input. -/
theorem Began.delivered_of_finish {scan : Scan} {bytes : List UInt8} (h : scan.Began bytes)
    {offset : Nat} {t : Token} (ht : scan.finish offset = some (.ok t)) : Delivered t bytes := by
  cases scan with
  | number start run =>
    simp only [finish] at ht
    split at ht
    · exact h.delivered_of_closeNumber (Option.some_inj.1 ht)
    · cases ht
  | _ => cases ht

/-- Nothing but blanks is taken where the input may end between two tokens. -/
theorem Began.blanks_of_finish {scan : Scan} {bytes : List UInt8} (h : scan.Began bytes)
    {offset : Nat} (ht : scan.finish offset = none) : Blanks bytes := by
  cases h with
  | blank h => exact h
  | number =>
    simp only [finish] at ht
    split at ht <;> cases ht
  | _ => cases ht

end Scan

end JsonShape
