import JsonShape.Proofs.Inference.Effect
import JsonShape.Proofs.Schema
import JsonShape.Proofs.Token.Prefix

/-!
# Texts that are cut off or go on

What a text comes to depends on all of its tokens, on what comes behind these, and on the offset of
its end (`Schema.survey_eq_conclude`). So the beginning of a text that has a shape has a shape too,
or it ends too early, at its last byte and nowhere else (`Schema.survey_front_of_ok`). And if some
bytes are wrong for any other reason than their end, they are wrong for that reason whatever comes
behind them (`Schema.survey_append_of_error`).
-/

namespace JsonShape

namespace Inference

/-! ## Tokens in front of a cut -/

namespace Transition

/-- Where one number may not stand, no other number may. -/
theorem refused_of_number {room : Nat} {tr : Transition} {failure : Failure} {short : String}
    {start : Int} (h : tr.next room ⟨.number, some short, start⟩ = refused failure)
    (long : String) : ∃ failure', tr.next room ⟨.number, some long, start⟩ = refused failure' := by
  cases tr with
  | onward state key =>
    obtain ⟨holes, place⟩ := state
    cases place with
    | value => exact absurd h (settle_ne_refused holes (.ofNumeral short) failure)
    | firstElement =>
      exact absurd h (settle_ne_refused (.element .bottom :: holes) (.ofNumeral short) failure)
    | afterElement | firstMember | key | colon | afterMember => exact ⟨_, rfl⟩
  | done | refused => exact ⟨_, rfl⟩

/-- No token in front of a cut is refused if all tokens together complete a shape. -/
theorem read_ne_refused_of_cut {room : Nat} {tr : Transition} {us ts : List Token} {s : Shape}
    (hc : Scan.Cut us ts) (hs : tr.read room ts = done s) (failure : Failure) :
    tr.read room us ≠ refused failure := by
  induction hc generalizing tr with
  | nil ts =>
    intro h
    rw [read_nil] at h
    subst h
    exact read_refused_ne_done room failure ts s hs
  | number short long start ts =>
    intro h
    obtain ⟨failure', hlong⟩ := refused_of_number h long
    rw [read_cons, hlong] at hs
    exact read_refused_ne_done room failure' ts s hs
  | cons t _ ih => exact ih hs

end Transition

end Inference

namespace Schema

open Inference (Transition limit)

/-- What a source delivers has the shape that its tokens complete, or the first thing is wrong that
is wrong with them. -/
theorem survey_eq_conclude {source : Source} {bytes : List UInt8} {ts : List Token} {answer : Pull}
    {taken : Nat} (h : source.Delivers bytes) (hx : Scan.Lexes 0 bytes ts answer taken) :
    (survey source).result =
      (Transition.start.read limit ts).conclude answer (some taken) := by
  obtain ⟨l, he, hanswer, htaken⟩ := Lexer.emits_of_lexes (Lexer.holds_ofSource h) hx
  have hl : ∀ t, (TokenSource.lexer l).next.1 ≠ .token t := by
    intro t ht
    exact hx.ne_token t (hanswer.symm.trans ht)
  have hresult : (survey source).result =
      (Inference.ofDocument (.lexer (.ofSource source))).1 := rfl
  rw [hresult, Inference.ofDocument_eq_conclude he hl]
  subst hanswer htaken
  rfl

/-- If a text has a shape, each beginning of it has a shape too, or it ends too early. -/
theorem survey_front_of_ok {bytes front : List UInt8} {s : Shape}
    (hs : (survey (.ofBytes (some Source.defaultChunk) bytes)).result = .ok s)
    (hp : front <+: bytes) :
    (∃ s', (survey (.ofBytes (some Source.defaultChunk) front)).result = .ok s') ∨
      (survey (.ofBytes (some Source.defaultChunk) front)).result =
        .error (.input ⟨.unexpectedEnd, some front.length⟩) := by
  obtain ⟨more, rfl⟩ := hp
  obtain ⟨ts, answer, taken, hx⟩ := Scan.exists_lexes 0 (front ++ more)
  obtain ⟨us, last, taken', hu⟩ := Scan.exists_lexes 0 front
  rw [survey_eq_conclude (delivers_defaultChunk _) hx,
    Transition.conclude_eq_ok hx.ne_token] at hs
  obtain ⟨hdone, rfl⟩ := hs
  obtain ⟨hcut, htaken, hlast⟩ := hx.of_append hu
  rw [Nat.zero_add] at htaken
  subst htaken
  rw [survey_eq_conclude (delivers_defaultChunk _) hu]
  have hnot := Transition.read_ne_refused_of_cut hcut hdone
  generalize Transition.start.read limit us = tr at hnot
  rcases hlast with rfl | rfl
  · cases tr with
    | onward => exact .inr rfl
    | done s' => exact .inl ⟨s', rfl⟩
    | refused failure => exact absurd rfl (hnot failure)
  · cases tr with
    | onward | done => exact .inr rfl
    | refused failure => exact absurd rfl (hnot failure)

/-- A number that is cut behind its point ends too early. -/
theorem survey_front_of_ok_point :
    let bytes := [0x31, 0x2E, 0x35]
    let front := [0x31, 0x2E]
    (survey (.ofBytes (some Source.defaultChunk) bytes)).result = .ok .float ∧
      front <+: bytes ∧
      (survey (.ofBytes (some Source.defaultChunk) front)).result =
        .error (.input ⟨.unexpectedEnd, some 2⟩) := by
  intro bytes front
  have hx : Scan.Lexes 0 bytes [⟨.number, some "1.5", 0⟩] .stop 3 := .token rfl (.last rfl nofun)
  have hu : Scan.Lexes 0 front [] (.fault ⟨.unexpectedEnd, some 2⟩) 2 := .last rfl nofun
  have hs : (survey (.ofBytes (some Source.defaultChunk) bytes)).result = .ok .float :=
    survey_eq_conclude (delivers_defaultChunk bytes) hx
  have hp : front <+: bytes := ⟨[0x35], rfl⟩
  refine ⟨hs, hp, (survey_front_of_ok hs hp).resolve_left ?_⟩
  rintro ⟨s, hfront⟩
  rw [survey_eq_conclude (delivers_defaultChunk front) hu] at hfront
  cases hfront

/-- What is wrong with some bytes is wrong with them whatever comes behind, unless it is their end.
The bytes must not end in a number that goes on. -/
theorem survey_append_of_error {bytes more : List UInt8} {failure : Failure}
    (hsep : Grammar.Separate bytes more)
    (he : (survey (.ofBytes (some Source.defaultChunk) bytes)).result = .error failure)
    (hend : ∀ offset, failure ≠ .input ⟨.unexpectedEnd, offset⟩) :
    (survey (.ofBytes (some Source.defaultChunk) (bytes ++ more))).result = .error failure := by
  obtain ⟨ts, answer, taken, hx⟩ := Scan.exists_lexes 0 bytes
  obtain ⟨us, answer', taken', hu, hsettled⟩ := hx.append hsep
  rw [survey_eq_conclude (delivers_defaultChunk _) hx] at he
  rw [survey_eq_conclude (delivers_defaultChunk _) hu, Transition.read_append]
  rcases Transition.conclude_error_cases he with hrefused | ⟨e, rfl, rfl⟩ | rfl
  · rw [hrefused, Transition.read_refused]
    rfl
  · -- A fault that is not the end is settled, so no tokens come behind it.
    have hcause : e.cause ≠ .unexpectedEnd := by
      obtain ⟨cause, offset⟩ := e
      rintro (rfl : cause = .unexpectedEnd)
      exact hend offset rfl
    obtain ⟨rfl, rfl⟩ := hsettled hcause
    exact (Transition.conclude_fault _ e _ _).trans he
  · exact absurd rfl (hend _)

/-- A missing comma is missing whatever comes behind the second number. -/
theorem survey_append_of_error_comma :
    let bytes := [0x5B, 0x31, 0x20, 0x32]
    let more := [0x2C, 0x33, 0x5D]
    let failure : Failure := .input ⟨.invalidJson (.expected .comma .number), some 3⟩
    Grammar.Separate bytes more ∧
      (survey (.ofBytes (some Source.defaultChunk) bytes)).result = .error failure ∧
      (∀ offset, failure ≠ .input ⟨.unexpectedEnd, offset⟩) ∧
      (survey (.ofBytes (some Source.defaultChunk) (bytes ++ more))).result = .error failure := by
  intro bytes more failure
  have hx : Scan.Lexes 0 bytes
      [⟨.arrayStart, none, 0⟩, ⟨.number, some "1", 1⟩, ⟨.number, some "2", 3⟩] .stop 4 :=
    .token rfl (.token rfl (.token rfl (.last rfl nofun)))
  have hsep : Grammar.Separate bytes more := .inr (Grammar.apart_cons rfl)
  have he : (survey (.ofBytes (some Source.defaultChunk) bytes)).result = .error failure :=
    survey_eq_conclude (delivers_defaultChunk bytes) hx
  have hend : ∀ offset, failure ≠ .input ⟨.unexpectedEnd, offset⟩ := by
    intro offset
    simp [failure]
  exact ⟨hsep, he, hend, survey_append_of_error hsep he hend⟩

end Schema

end JsonShape
