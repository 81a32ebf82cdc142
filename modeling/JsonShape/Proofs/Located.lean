import JsonShape.Proofs.Inference.Viable
import JsonShape.Proofs.Prefix
import JsonShape.Proofs.Token.Flaw

/-!
# Errors and the bytes that they show

A schema is made of every text, or the text ends too early, or an error shows one of its bytes
(`Schema.ofBytes_cases`). `Schema.PointsAt` says which byte is shown for which cause: the token that
makes those in front of it no beginning of a value, at its first byte, or a flawed token, at the
byte that `Scan.Flaw` says.
-/

namespace JsonShape

open Grammar

/-- The byte is one that an error of the cause may show. -/
def Cause.ShownBy (b : UInt8) : Cause → Prop
  | invalidEscape character => character = .ofByte b
  | nestingTooDeep _ => b = 0x7B ∨ b = 0x5B
  | invalidUtf8 => b = 0x22 ∨ b = 0x75
  | invalidJson .controlCharacter => b < 0x20
  | invalidJson (.unexpectedCharacter byte) => b = byte
  | invalidJson _ => True
  | described _ | unavailable _ | unexpectedEnd => False

/-- A flaw is shown at a byte that fits its cause. -/
theorem Scan.Flaw.exists_cons {front bytes : List UInt8} {cause : Cause}
    (h : Flaw front bytes cause) : ∃ b rest, bytes = b :: rest ∧ cause.ShownBy b := by
  cases h with
  | character | escape | digit => exact ⟨_, _, rfl, rfl⟩
  | control _ _ hb => exact ⟨_, _, rfl, hb⟩
  | undecodable => exact ⟨_, _, rfl, .inl rfl⟩
  | surrogate => exact ⟨_, _, rfl, .inr rfl⟩
  | @word w taken owed rest next b h hne hb =>
    cases taken with
    | nil => exact absurd rfl hne
    | cons c taken => exact ⟨c, _, rfl, trivial⟩
  | @number run rest hne =>
    cases run with
    | nil => exact absurd rfl hne
    | cons c run =>
      obtain ⟨b, bytes, hb⟩ := Utf8.exists_cons_of_encodeString c run
      exact ⟨b, bytes ++ rest, by rw [hb, List.cons_append], trivial⟩

namespace Schema

open Inference (Transition limit Viable)

/-- What an error of the cause shows in a text: some bytes come first, and then those that start
with the one which is shown. -/
inductive PointsAt : List UInt8 → List UInt8 → Cause → Prop where
  /-- The token behind some whole ones is flawed. -/
  | flaw {xs : List Value.Lexeme} {front inside rest : List UInt8} {cause : Cause}
      (hxs : Tokenized xs front) (h : Scan.Flaw inside rest cause) :
      PointsAt (front ++ inside) rest cause
  /-- The token behind some others may not stand there, and the cause names its kind. -/
  | token {ts : List Token} {t : Token} {front token rest : List UInt8} {defect : Defect}
      (hts : Tokenized (ts.map Token.lexeme) front) (ht : TokenBytes t.lexeme token)
      (ha : t.lexeme.1 = .number → Apart rest) (hv : Viable ts) (hn : ¬Viable (ts ++ [t]))
      (hd : defect.found? = some t.kind) : PointsAt front (token ++ rest) (.invalidJson defect)
  /-- The token behind some others opens one level too many. -/
  | level {ts : List Token} {t : Token} {front token rest : List UInt8}
      (hts : Tokenized (ts.map Token.lexeme) front) (ht : TokenBytes t.lexeme token)
      (hv : Viable ts) (hn : ¬Viable (ts ++ [t])) (ho : t.kind.opens = true) :
      PointsAt front (token ++ rest) (.nestingTooDeep limit)

/-- An error shows a byte that fits its cause. -/
theorem PointsAt.exists_cons {front bytes : List UInt8} {cause : Cause}
    (h : PointsAt front bytes cause) : ∃ b rest, bytes = b :: rest ∧ cause.ShownBy b := by
  cases h with
  | flaw _ h => exact h.exists_cons
  | @token ts t _ _ _ defect _ ht _ _ _ hd =>
    obtain ⟨b, token, rfl, -⟩ := ht.exists_cons
    refine ⟨b, _, rfl, ?_⟩
    cases defect with
    | expectedValue | expectedKey | expected | trailing => trivial
    | unspecified | described | unexpectedCharacter | misspelled | invalidNumber
    | controlCharacter => cases hd
  | level _ ht _ _ ho =>
    obtain ⟨b, token, rfl, hb⟩ := ht.exists_cons
    exact ⟨b, _, rfl, hb ho⟩

end Schema

end JsonShape
