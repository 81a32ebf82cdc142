import JsonShape.Proofs.Prefix
import JsonShape.Proofs.Token.Placed

/-!
# Lexing first

An inference asks its lexer for a token when it needs one, and may stop asking at any place. Taking
all tokens first (`TokenSource.drain`) and inferring a shape from the list comes to the same
(`Inference.ofDocument_lexer`), but for what a list does not know: the offset of its end, and what
is wrong with the bytes behind the last of its tokens. A fault there is what is wrong with the text,
unless a token in front of it is refused.
-/

namespace JsonShape

/-- The tokens that a source gives, and what it gives when there are no more. -/
def TokenSource.drain (source : TokenSource) : List Token × Pull :=
  match _h : source.next with
  | (.token t, next) =>
    let (ts, last) := next.drain
    (t :: ts, last)
  | (.stop, _) => ([], .stop)
  | (.fault e, _) => ([], .fault e)
termination_by source.unread
decreasing_by exact unread_lt_of_next _h

/-- A source is drained of the tokens that it gives before it gives something else. -/
theorem TokenSource.drain_eq_of_emits {source source' : TokenSource} {ts : List Token}
    (he : source.Emits ts source') (hl : ∀ t, source'.next.1 ≠ .token t) :
    source.drain = (ts, source'.next.1) := by
  induction ts generalizing source with
  | nil =>
    cases he
    rw [drain]
    split
    · next h => exact absurd (congrArg Prod.fst h) (hl _)
    · next h => rw [h]
    · next h => rw [h]
  | cons t ts ih =>
    obtain ⟨next, hn, he⟩ := he
    rw [drain]
    split
    · next h =>
      cases hn.symm.trans h
      rw [ih he]
    · next h => cases hn.symm.trans h
    · next h => cases hn.symm.trans h

/-- The input is not JSON, or it nests too deep. -/
def Failure.isStructural : Failure → Bool
  | input ⟨.invalidJson _, _⟩ | input ⟨.nestingTooDeep _, _⟩ => true
  | _ => false

/-- An input that ends too early does so at the offset. -/
def Failure.endingAt (offset : Nat) : Failure → Failure
  | input ⟨.unexpectedEnd, _⟩ => input ⟨.unexpectedEnd, some offset⟩
  | failure => failure

/-- What is wrong with the structure of an input is not its end. -/
theorem Failure.endingAt_of_isStructural {failure : Failure} (h : failure.isStructural = true)
    (offset : Nat) : failure.endingAt offset = failure := by
  unfold Failure.isStructural at h
  split at h
  · rfl
  · rfl
  · cases h

namespace Inference

/-- Tokens with the texts that they need are refused for their structure. -/
theorem Transition.isStructural_of_read_refused {room : Nat} {ts : List Token} {failure : Failure}
    (htext : ∀ t ∈ ts, t.HasText) (h : start.read room ts = .refused failure) :
    failure.isStructural = true := by
  obtain ⟨-, -, -, -, -, -, ⟨-, rfl⟩ | ⟨-, -, rfl⟩⟩ := cause_of_read_refused htext h <;> rfl

/-- A list of tokens ends too early in no place, and bytes where they end. -/
theorem Transition.conclude_stop {tr : Transition}
    (htr : ∀ failure, tr = refused failure → failure.isStructural = true) (offset : Nat) :
    (∀ offset?, tr.conclude .stop none = .error (.input ⟨.unexpectedEnd, offset?⟩) →
      offset? = none) ∧
    tr.conclude .stop (some offset) = (tr.conclude .stop none).mapError (·.endingAt offset) := by
  cases tr with
  | onward =>
    refine ⟨fun offset? h => ?_, rfl⟩
    cases h
    rfl
  | done => exact ⟨nofun, rfl⟩
  | refused failure =>
    have hstructural := htr failure rfl
    refine ⟨fun offset? h => ?_, ?_⟩
    · cases h
      cases hstructural
    · have hsame := Failure.endingAt_of_isStructural hstructural offset
      exact congrArg Except.error hsame.symm

/-- A fault behind some tokens is what is wrong, unless they are refused for their structure. -/
theorem Transition.conclude_fault_cases {tr : Transition}
    (htr : ∀ failure, tr = refused failure → failure.isStructural = true) (e : InputError)
    (offset? : Option Nat) :
    (∀ failure, tr.conclude .stop none = .error failure → failure.isStructural = true →
      tr.conclude (.fault e) offset? = .error failure) ∧
    ((∀ failure, tr.conclude .stop none = .error failure → failure.isStructural = false) →
      tr.conclude (.fault e) offset? = .error (.input e)) := by
  cases tr with
  | onward =>
    refine ⟨fun failure h hstructural => ?_, fun _ => rfl⟩
    cases h
    cases hstructural
  | done => exact ⟨nofun, fun _ => rfl⟩
  | refused failure =>
    refine ⟨fun failure' h _ => ?_, fun h => ?_⟩
    · cases h
      rfl
    · exact absurd ((htr failure rfl).symm.trans (h failure rfl)) nofun

/-- A lexer is drained of the tokens of its bytes. -/
theorem drain_lexer {source : Source} {bytes : List UInt8} {ts : List Token} {answer : Pull}
    {taken : Nat} (h : source.Delivers bytes) (hx : Scan.Lexes 0 bytes ts answer taken) :
    (TokenSource.lexer (.ofSource source)).drain = (ts, answer) := by
  obtain ⟨l, he, hanswer, -⟩ := Lexer.emits_of_lexes (Lexer.holds_ofSource h) hx
  have hlast : (TokenSource.lexer l).next.1 = answer := hanswer
  have hl : ∀ t, (TokenSource.lexer l).next.1 ≠ .token t := fun t ht =>
    hx.ne_token t (hlast.symm.trans ht)
  rw [TokenSource.drain_eq_of_emits he hl, hlast]

/-- A lexer either ends or finds a fault behind its tokens. If it ends, it has the shape that the
list of its tokens has, or the same is wrong with it, but an input that ends too early does so
behind the last byte, and a list nowhere. If it finds a fault, that is what is wrong, unless
something is wrong with the structure of the list. -/
theorem ofDocument_lexer {source : Source} {bytes : List UInt8} (h : source.Delivers bytes) :
    let lexer : TokenSource := .lexer (.ofSource source)
    let lexed := lexer.drain
    let eager := (ofDocument (.tokens lexed.1)).1
    let lazy := (ofDocument lexer).1
    (lexed.2 = .stop ∧
      (∀ offset?, eager = .error (.input ⟨.unexpectedEnd, offset?⟩) → offset? = none) ∧
      lazy = eager.mapError (·.endingAt bytes.length)) ∨
    ∃ e, lexed.2 = .fault e ∧
      (∀ failure, eager = .error failure → failure.isStructural = true →
        lazy = .error failure) ∧
      ((∀ failure, eager = .error failure → failure.isStructural = false) →
        lazy = .error (.input e)) := by
  intro lexer lexed eager lazy
  obtain ⟨ts, answer, taken, hx⟩ := Scan.exists_lexes 0 bytes
  have hlexed : lexed = (ts, answer) := drain_lexer h hx
  have heager : eager = (Transition.start.read limit ts).conclude .stop none := by
    simp only [eager, hlexed, ofDocument_tokens]
  have hlazy : lazy = (Transition.start.read limit ts).conclude answer (some taken) :=
    Schema.survey_eq_conclude h hx
  have htr : ∀ failure, Transition.start.read limit ts = .refused failure →
      failure.isStructural = true :=
    fun _ => Transition.isStructural_of_read_refused hx.hasText
  rw [hlexed, heager, hlazy]
  cases answer with
  | token t => exact absurd rfl (hx.ne_token t)
  | stop =>
    obtain rfl : taken = bytes.length := hx.taken_of_stop.trans (Nat.zero_add _)
    exact .inl ⟨rfl, Transition.conclude_stop htr _⟩
  | fault e => exact .inr ⟨e, rfl, Transition.conclude_fault_cases htr e _⟩

/-- A character with which no token starts is wrong behind a number, although the number alone has a
shape. -/
theorem ofDocument_lexer_behind_number :
    let bytes := [0x31, 0x20, 0x78]
    let lexer : TokenSource := .lexer (.ofSource (.ofBytes (some 2) bytes))
    let e : InputError := ⟨.invalidJson (.unexpectedCharacter 0x78), some 2⟩
    (Source.ofBytes (some 2) bytes).Delivers bytes ∧ lexer.drain.2 = .fault e ∧
      (ofDocument (.tokens lexer.drain.1)).1 = .ok .int ∧
      (ofDocument lexer).1 = .error (.input e) := by
  intro bytes lexer e
  have hsource : (Source.ofBytes (some 2) bytes).Delivers bytes :=
    Source.delivers_ofBytes (by decide) bytes
  have hx : Scan.Lexes 0 bytes [⟨.number, some "1", 0⟩] (.fault e) 2 := .token rfl (.last rfl nofun)
  have hdrain : lexer.drain = ([⟨.number, some "1", 0⟩], .fault e) := drain_lexer hsource hx
  have heager : (ofDocument (.tokens lexer.drain.1)).1 = .ok .int := by
    rw [hdrain, ofDocument_tokens]
    rfl
  refine ⟨hsource, by rw [hdrain], heager, ?_⟩
  rcases ofDocument_lexer hsource with ⟨hstop, -⟩ | ⟨e', he', -, hlazy⟩
  · cases (congrArg Prod.snd hdrain).symm.trans hstop
  · cases (congrArg Prod.snd hdrain).symm.trans he'
    exact hlazy fun failure hfailure => by cases heager.symm.trans hfailure

end Inference

end JsonShape
