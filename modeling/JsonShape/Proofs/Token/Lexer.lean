import JsonShape.Proofs.Inference.Reading
import JsonShape.Proofs.Token.Chunks

/-!
# The tokens of a lexer

However the bytes of an input are cut into reads, a lexer gives what a single scan of all of them
comes to (`Lexer.next_of_holds`). So the tokens that a lexer yields before it ends are those that
the bytes consist of, and there are some exactly if the bytes consist of tokens
(`Lexer.tokenized_of_yields`, `Lexer.yields_of_tokenized`).
-/

namespace JsonShape

open Grammar

/-! ## Sources without failures -/

/-- Successive reads deliver the bytes, and then the end of the input. -/
inductive Source.Delivers : Source → List UInt8 → Prop where
  | nil : Delivers [] []
  | ended (source : Source) : Delivers (.bytes [] :: source) []
  | chunk (b : UInt8) (chunk : List UInt8) {source : Source} {bytes : List UInt8}
      (h : Delivers source bytes) : Delivers (.bytes (b :: chunk) :: source) (b :: chunk ++ bytes)

/-- A source without a failure delivers its bytes. -/
theorem Source.delivers_delivered {source : Source} (h : source.failure? = none) :
    source.Delivers source.delivered := by
  induction source with
  | nil => exact .nil
  | cons read source ih =>
    cases read with
    | failure reasons => cases h
    | bytes chunk =>
      cases chunk with
      | nil => exact .ended source
      | cons b chunk => exact .chunk b chunk (ih h)

/-- A text at hand is delivered, whatever the size of its pieces. -/
theorem Source.delivers_ofBytes {size : Option Int} (hsize : size ≠ some 0) (bytes : List UInt8) :
    (ofBytes size bytes).Delivers bytes := by
  obtain ⟨hbytes, hfailure⟩ := delivered_ofBytes hsize bytes
  have h := delivers_delivered hfailure
  rwa [hbytes] at h

namespace Lexer

/-- The bytes that are still to be taken, if nothing went wrong. -/
def Holds (l : Lexer) (bytes : List UInt8) : Prop :=
  l.fault = none ∧ (l.ended = true ∧ bytes = [] ∨
    l.ended = false ∧ ∃ rest, l.source.Delivers rest ∧ bytes = l.buffer ++ rest)

/-- A lexer at the start of a source holds what the source delivers. -/
theorem holds_ofSource {source : Source} {bytes : List UInt8} (h : source.Delivers bytes) :
    (ofSource source).Holds bytes :=
  ⟨rfl, .inr ⟨rfl, bytes, h, rfl⟩⟩

/-- What the lexer answers and becomes, if a scan of all bytes comes to the given conclusion. -/
def Answers (r : Pull × Nat × List UInt8) (answer : Pull × Lexer) : Prop :=
  answer.1 = r.1 ∧ answer.2.offset = r.2.1 ∧ ((∀ e, r.1 ≠ .fault e) → answer.2.Holds r.2.2)

/-- The end of the input is the conclusion of a scan that is under way. -/
theorem answers_close (scan : Scan) (offset : Nat) (source : Source) :
    Answers (Scan.Progress.conclude (.more scan offset)) (close scan offset source) := by
  rw [Scan.Progress.conclude, close]
  cases scan.finish offset with
  | none => exact ⟨rfl, rfl, fun _ => ⟨rfl, .inl ⟨rfl, rfl⟩⟩⟩
  | some result =>
    cases result with
    | ok t => exact ⟨rfl, rfl, fun _ => ⟨rfl, .inl ⟨rfl, rfl⟩⟩⟩
    | error e => exact ⟨rfl, rfl, fun h => absurd rfl (h e)⟩

/-- A scan that reads on as it goes comes to what a scan of all bytes comes to. -/
theorem answers_scanOn {source : Source} {bytes : List UInt8} (h : source.Delivers bytes)
    (scan : Scan) (offset : Nat) (buffer : List UInt8) :
    Answers (scan.run offset (buffer ++ bytes)).conclude (scanOn scan offset buffer source) := by
  rw [scanOn.eq_def]
  cases hrun : scan.run offset buffer with
  | token t offset' rest =>
    rw [Scan.run_append_of_token hrun]
    exact ⟨rfl, rfl, fun _ => ⟨rfl, .inr ⟨rfl, bytes, h, rfl⟩⟩⟩
  | fault e offset' rest =>
    rw [Scan.run_append_of_fault hrun]
    exact ⟨rfl, rfl, fun he => absurd rfl (he e)⟩
  | more scan' offset' =>
    rw [Scan.run_append_of_more hrun]
    cases h with
    | nil => exact answers_close scan' offset' []
    | ended source => exact answers_close scan' offset' source
    | chunk b chunk h => exact answers_scanOn h scan' offset' (b :: chunk)

/-- The next answer is what a scan of all bytes that are still to be taken comes to. -/
theorem next_of_holds {l : Lexer} {bytes : List UInt8} (h : l.Holds bytes) :
    Answers (Scan.blank.run l.offset bytes).conclude l.next := by
  obtain ⟨hfault, ⟨hended, rfl⟩ | ⟨hended, rest, hd, rfl⟩⟩ := h
  · simp only [next, hfault, hended]
    exact ⟨rfl, rfl, fun _ => ⟨hfault, .inl ⟨hended, rfl⟩⟩⟩
  · simp only [next, hfault, hended]
    exact answers_scanOn hd .blank l.offset l.buffer

/-! ## The tokens of the bytes -/

/-- The tokens that a lexer yields are those that its bytes consist of. -/
theorem tokenized_of_yields {ts : List Token} {l : Lexer} {bytes : List UInt8} (h : l.Holds bytes)
    (ht : (TokenSource.lexer l).Yields ts) : Tokenized (ts.map Token.lexeme) bytes := by
  induction ts generalizing l bytes with
  | nil =>
    obtain ⟨hpull, -, -⟩ := next_of_holds h
    have hstop : l.next.1 = .stop := TokenSource.yields_nil.1 ht
    exact .nil (Scan.conclude_stop_iff.1 (hpull.symm.trans hstop))
  | cons t ts ih =>
    obtain ⟨next, hnext, ht⟩ := TokenSource.yields_cons.1 ht
    obtain ⟨htoken, rfl⟩ := Prod.mk.inj hnext
    obtain ⟨hpull, -, hholds⟩ := next_of_holds h
    generalize hr : (Scan.blank.run l.offset bytes).conclude = r at hpull hholds
    obtain ⟨p, offset', rest⟩ := r
    obtain rfl : p = .token t := hpull.symm.trans htoken
    obtain ⟨left, token, rfl, hl, htok, ha⟩ := Scan.conclude_token_iff.1 ⟨t, offset', hr, rfl⟩
    exact .cons hl htok ha (ih (hholds nofun) ht)

/-- A lexer whose bytes consist of tokens yields such tokens. -/
theorem yields_of_tokenized {xs : List Value.Lexeme} {l : Lexer} {bytes : List UInt8}
    (h : l.Holds bytes) (hx : Tokenized xs bytes) :
    ∃ ts, (TokenSource.lexer l).Yields ts ∧ ts.map Token.lexeme = xs := by
  induction hx generalizing l with
  | nil hb =>
    obtain ⟨hpull, -, -⟩ := next_of_holds h
    have hstop : l.next.1 = .stop := hpull.trans (Scan.conclude_stop_iff.2 hb)
    exact ⟨[], TokenSource.yields_nil.2 hstop, rfl⟩
  | cons hl ht ha _ ih =>
    obtain ⟨t, offset', hr, rfl⟩ :=
      Scan.conclude_token_iff.2 ⟨_, _, rfl, hl, ht, ha⟩
    obtain ⟨hpull, -, hholds⟩ := next_of_holds h
    rw [hr] at hpull hholds
    obtain ⟨ts, hts, rfl⟩ := ih (hholds nofun)
    have hnext : (TokenSource.lexer l).next = (.token t, .lexer l.next.2) :=
      Prod.ext hpull rfl
    exact ⟨t :: ts, TokenSource.yields_cons.2 ⟨_, hnext, hts⟩, rfl⟩

end Lexer

end JsonShape
