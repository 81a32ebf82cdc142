import JsonShape.Proofs.Token.Reached

/-!
# Reads of any size

A source delivers bytes in chunks, up to the first read that delivers none or fails. A lexer never
looks behind that read, and where one chunk ends and the next begins makes no difference to it:
every lexer answers as the one that has all bytes at hand already does (`Lexer.next_gathered`). So
the answers of a lexer, and the number of bytes that it has taken after each, depend on nothing but
the bytes delivered and on whether a failure comes behind them (`Lexer.call_eq_of_delivered_eq`).
-/

namespace JsonShape

/-! ## What a source delivers -/

namespace Source

/-- The bytes of all reads in front of the first one that delivers none or fails. -/
def delivered : Source → List UInt8
  | .bytes (b :: chunk) :: source => (b :: chunk) ++ delivered source
  | _ => []

/-- The reasons of the failure that comes behind these bytes, if it is not the end of the input that
does. -/
def failure? : Source → Option (List String)
  | .bytes (_ :: _) :: source => failure? source
  | .failure reasons :: _ => some reasons
  | _ => none

/-- The shortest source that delivers nothing and fails, or does not fail, as the source does. -/
def ending (source : Source) : Source :=
  match source.failure? with
  | none => []
  | some reasons => [.failure reasons]

@[simp] theorem delivered_ending (source : Source) : source.ending.delivered = [] := by
  rw [ending]
  cases source.failure? <;> rfl

@[simp] theorem ending_ending (source : Source) : source.ending.ending = source.ending := by
  rw [ending, ending]
  cases source.failure? <;> rfl

/-- The pieces of a text deliver the text, and no failure comes behind it. -/
theorem delivered_pieces {size : Nat} (hsize : size ≠ 0) (bytes : List UInt8) :
    (pieces size bytes).delivered = bytes ∧ (pieces size bytes).failure? = none := by
  fun_induction pieces size bytes with
  | case1 bytes h =>
    rcases h with h | rfl
    · exact absurd h hsize
    · exact ⟨rfl, rfl⟩
  | case2 bytes h ih =>
    obtain ⟨n, rfl⟩ := Nat.exists_eq_succ_of_ne_zero hsize
    cases bytes with
    | nil => exact absurd (.inr rfl) h
    | cons b bytes =>
      refine ⟨?_, ih.2⟩
      show b :: bytes.take n ++ delivered (pieces (n + 1) (bytes.drop n)) = b :: bytes
      rw [show delivered (pieces (n + 1) (bytes.drop n)) = bytes.drop n from ih.1,
        List.cons_append, List.take_append_drop]

/-- A text at hand is delivered, whatever the size of its pieces, and no failure comes behind it. -/
theorem delivered_ofBytes {size : Option Int} (hsize : size ≠ some 0) (bytes : List UInt8) :
    (ofBytes size bytes).delivered = bytes ∧ (ofBytes size bytes).failure? = none := by
  have hwhole : delivered [.bytes bytes] = bytes ∧ failure? [.bytes bytes] = none := by
    cases bytes with
    | nil => exact ⟨rfl, rfl⟩
    | cons b bytes => exact ⟨List.append_nil _, rfl⟩
  cases size with
  | none => exact hwhole
  | some n =>
    rw [ofBytes]
    split
    · exact hwhole
    · next hn =>
      refine delivered_pieces (fun hz => hsize ?_) bytes
      congr
      omega

end Source

namespace Lexer

/-! ## Lexers with all bytes at hand -/

/-- The lexer that has read all bytes in advance. One whose input is over, or that has found a
fault, has nothing to read. -/
def gathered (l : Lexer) : Lexer :=
  if l.ended || l.fault.isSome then { l with source := [], buffer := [] }
  else { l with source := l.source.ending, buffer := l.buffer ++ l.source.delivered }

/-- An answer, and the lexer behind it with all bytes at hand. -/
def gatheredAnswer (answer : Pull × Lexer) : Pull × Lexer :=
  (answer.1, answer.2.gathered)

@[simp] theorem offset_gathered (l : Lexer) : l.gathered.offset = l.offset := by
  rw [gathered]
  split <;> rfl

/-- No read is left for a lexer at the end of its input. -/
theorem gathered_close (scan : Scan) (offset : Nat) (source source' : Source) :
    gatheredAnswer (close scan offset source) = gatheredAnswer (close scan offset source') := by
  rw [close, close]
  cases scan.finish offset with
  | none => rfl
  | some result => cases result <;> rfl

/-- Bytes that leave a scan under way are taken before any others. -/
theorem scanOn_append_of_more {scan scan' : Scan} {offset offset' : Nat} {buffer : List UInt8}
    (h : scan.run offset buffer = .more scan' offset') (bytes : List UInt8) (source : Source) :
    scanOn scan offset (buffer ++ bytes) source = scanOn scan' offset' bytes source := by
  rw [scanOn.eq_def, Scan.run_append_of_more h, ← scanOn.eq_def]

/-- A scan that reads on as it goes comes to what the same scan of all bytes comes to. -/
theorem gathered_scanOn (scan : Scan) (offset : Nat) (buffer : List UInt8) (source : Source) :
    gatheredAnswer (scanOn scan offset buffer source) =
      gatheredAnswer (scanOn scan offset (buffer ++ source.delivered) source.ending) := by
  fun_induction scanOn scan offset buffer source with
  | case1 scan offset buffer source t offset' rest hr =>
    rw [scanOn.eq_def, Scan.run_append_of_token hr]
    simp [gatheredAnswer, gathered]
  | case2 scan offset buffer source e offset' rest hr =>
    rw [scanOn.eq_def, Scan.run_append_of_fault hr]
    rfl
  | case3 scan offset buffer scan' offset' hr =>
    rw [scanOn_append_of_more hr]
    rfl
  | case4 scan offset buffer scan' offset' hr source =>
    rw [scanOn_append_of_more hr]
    exact gathered_close scan' offset' source []
  | case5 scan offset buffer scan' offset' hr b chunk source ih =>
    rw [scanOn_append_of_more hr]
    exact ih
  | case6 scan offset buffer scan' offset' hr reasons source =>
    rw [scanOn_append_of_more hr]
    rfl

/-- The next answer, and all that the later ones depend on, is that of the lexer with all bytes at
hand. -/
theorem next_gathered (l : Lexer) : gatheredAnswer l.next = gatheredAnswer l.gathered.next := by
  obtain ⟨source, buffer, offset, ended, fault⟩ := l
  cases fault with
  | some e => cases ended <;> rfl
  | none =>
    cases ended with
    | true => rfl
    | false => exact gathered_scanOn .blank offset buffer source

/-! ## Successive calls -/

/-- The lexer after so many calls. -/
def after (l : Lexer) : Nat → Lexer
  | 0 => l
  | k + 1 => (l.after k).next.2

/-- Calls are counted on from any of them. -/
theorem after_add (l : Lexer) (k n : Nat) : l.after (k + n) = (l.after k).after n := by
  induction n with
  | zero => rfl
  | succ n ih => rw [Nat.add_succ, after, after, ih]

/-- What the next call after so many others answers, and the number of bytes taken by then. -/
def call (l : Lexer) (k : Nat) : Pull × Nat :=
  ((l.after k).next.1, (l.after k).next.2.offset)

/-- Lexers that are the same with all bytes at hand answer the same, and stay so. -/
theorem gatheredAnswer_next_eq {l m : Lexer} (h : l.gathered = m.gathered) :
    gatheredAnswer l.next = gatheredAnswer m.next := by
  rw [next_gathered, h, ← next_gathered]

/-- After so many calls they are still the same. -/
theorem gathered_after {l m : Lexer} (h : l.gathered = m.gathered) (k : Nat) :
    (l.after k).gathered = (m.after k).gathered := by
  induction k with
  | zero => exact h
  | succ k ih => exact congrArg Prod.snd (gatheredAnswer_next_eq ih)

/-- So each call has the same answer. -/
theorem call_eq_of_gathered_eq {l m : Lexer} (h : l.gathered = m.gathered) (k : Nat) :
    l.call k = m.call k := by
  obtain ⟨hanswer, hlexer⟩ := Prod.mk.inj (gatheredAnswer_next_eq (gathered_after h k))
  have hoffset := congrArg Lexer.offset hlexer
  rw [offset_gathered, offset_gathered] at hoffset
  exact Prod.ext hanswer hoffset

/-- The answers of a lexer and its offsets depend on the bytes that its source delivers and on the
failure that comes behind them, not on how the bytes are cut. A text that is read in pieces of any
size is delivered as it is. -/
theorem call_eq_of_delivered_eq :
    (∀ s t : Source, s.delivered = t.delivered → s.failure? = t.failure? →
      ∀ k, (ofSource s).call k = (ofSource t).call k) ∧
    ∀ (size : Option Int) (bytes : List UInt8), size ≠ some 0 →
      (Source.ofBytes size bytes).delivered = bytes ∧
        (Source.ofBytes size bytes).failure? = none := by
  refine ⟨?_, fun size bytes hsize => Source.delivered_ofBytes hsize bytes⟩
  intro s t hbytes hfailure k
  have h : (ofSource s).gathered = (ofSource t).gathered := by
    simp [gathered, ofSource, Source.ending, hbytes, hfailure]
  exact call_eq_of_gathered_eq h k

/-- The cut falls into a character of two bytes, and different reads come behind the failure. -/
theorem call_eq_of_delivered_eq_character :
    let s : Source := [.bytes [0x22, 0xC3], .bytes [0xA9, 0x22, 0x2D], .failure ["5", "gone"]]
    let t : Source := [.bytes [0x22], .bytes [0xC3, 0xA9, 0x22], .bytes [0x2D],
      .failure ["5", "gone"], .bytes [0x31]]
    let bytes : List UInt8 := [0x22, 0xC3, 0xA9, 0x22]
    s.delivered = t.delivered ∧ s.failure? = t.failure? ∧
      (∀ k, (ofSource s).call k = (ofSource t).call k) ∧
      (ofSource t).call 0 = (.token ⟨.string, some "é", 0⟩, 4) ∧
      (ofSource t).call 1 =
        (.fault ⟨.unavailable (.readFailed "[Errno 5] gone"), none⟩, 5) ∧
      (Source.ofBytes (some 3) bytes).delivered = bytes ∧
      (Source.ofBytes (some 3) bytes).failure? = none := by
  intro s t bytes
  have hbytes : s.delivered = t.delivered := rfl
  have hfailure : s.failure? = t.failure? := rfl
  obtain ⟨hcall, hpieces⟩ := call_eq_of_delivered_eq
  exact ⟨hbytes, hfailure, hcall s t hbytes hfailure, by decide +kernel, by decide +kernel,
    hpieces (some 3) bytes (by decide)⟩

end Lexer

end JsonShape
