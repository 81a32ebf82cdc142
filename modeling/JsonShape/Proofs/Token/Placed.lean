import JsonShape.Proofs.Inference.Effect
import JsonShape.Proofs.Token.Prefix

/-!
# Where tokens stand

The tokens of some bytes are written in them one behind the other, with blanks between them, and
each has the offset of its first byte (`Scan.Lexes.exists_of_append`, `Scan.Lexes.placed`). Every
string and every number among them has its text (`Scan.Lexes.hasText`). If nothing is wrong with the
bytes, all of them are taken in the end (`Scan.Lexes.taken_of_stop`).
-/

namespace JsonShape

open Grammar

/-- A token that is written has a text if it needs one. -/
theorem Token.hasText_of_tokenBytes {t : Token} {bytes : List UInt8}
    (h : TokenBytes t.lexeme bytes) : t.HasText := by
  intro hkind hnone
  have hlex : t.lexeme = (t.kind, none) := by rw [Token.lexeme, if_pos hkind, hnone]
  rw [hlex] at h
  rcases hkind with hkind | hkind <;> rw [hkind] at h <;> cases h

/-- A token has a first byte, and it is a brace or a bracket if the token opens a level. -/
theorem Grammar.TokenBytes.exists_cons {x : Value.Lexeme} {bytes : List UInt8}
    (h : TokenBytes x bytes) :
    ∃ b rest, bytes = b :: rest ∧ (x.1.opens = true → b = 0x7B ∨ b = 0x5B) := by
  cases h with
  | objectStart => exact ⟨_, _, rfl, fun _ => .inl rfl⟩
  | arrayStart => exact ⟨_, _, rfl, fun _ => .inr rfl⟩
  | objectEnd | arrayEnd | colon | comma => exact ⟨_, _, rfl, nofun⟩
  | word w => cases w <;> exact ⟨_, _, rfl, nofun⟩
  | string h =>
    obtain ⟨inner, -, rfl⟩ := h
    exact ⟨_, _, rfl, nofun⟩
  | @number literal h =>
    obtain ⟨c, cs, hliteral, -⟩ := h.exists_cons
    obtain ⟨b, bytes, hb⟩ := Utf8.exists_cons_of_encodeString c cs
    rw [← hliteral, String.ofList_toList] at hb
    exact ⟨b, bytes, hb, nofun⟩

namespace Scan

/-- The token that bytes start with is written behind blanks, at its offset. It has no text but that
of a string or a number. -/
theorem exists_of_conclude_token {offset offset' : Nat} {bytes rest : List UInt8} {t : Token}
    (h : (blank.run offset bytes).conclude = (.token t, offset', rest)) :
    ∃ left token, bytes = left ++ (token ++ rest) ∧ Blanks left ∧ TokenBytes t.lexeme token ∧
      (t.lexeme.1 = .number → Apart rest) ∧
      t = ⟨t.lexeme.1, t.lexeme.2, ↑(offset + left.length)⟩ ∧
      offset' = offset + (left ++ token).length := by
  obtain ⟨left, token, rfl, hl, ht, ha⟩ := conclude_token_iff.1 ⟨t, offset', h, rfl⟩
  obtain ⟨offset'', h'⟩ := conclude_token hl ht ha offset
  obtain ⟨taken, htaken, hcount⟩ := exists_taken_of_conclude h
  rw [← List.append_assoc] at htaken
  obtain rfl := List.append_cancel_right htaken
  exact ⟨left, token, rfl, hl, ht, ha, Pull.token.inj (congrArg Prod.fst (h.symm.trans h')), hcount⟩

/-- Every token of some bytes has a text if it needs one. -/
theorem Lexes.hasText {offset taken : Nat} {bytes : List UInt8} {ts : List Token} {answer : Pull}
    (h : Lexes offset bytes ts answer taken) : ∀ t ∈ ts, t.HasText := by
  induction h with
  | last => exact nofun
  | token h _ ih =>
    obtain ⟨left, token, -, -, ht, -⟩ := exists_of_conclude_token h
    exact List.forall_mem_cons.2 ⟨Token.hasText_of_tokenBytes ht, ih⟩

/-- All bytes are taken if they end behind a token. -/
theorem Lexes.taken_of_stop {offset taken : Nat} {bytes : List UInt8} {ts : List Token}
    (h : Lexes offset bytes ts .stop taken) : taken = offset + bytes.length := by
  have hwhole : Lexes offset (bytes ++ []) ts .stop taken := by rwa [List.append_nil]
  obtain ⟨-, htaken, -⟩ := hwhole.of_append h
  exact htaken

/-- Bytes that consist of the first tokens come in front of those of the others. -/
theorem Lexes.exists_of_append {offset taken : Nat} {bytes : List UInt8} {us vs : List Token}
    {answer : Pull} (h : Lexes offset bytes (us ++ vs) answer taken) :
    ∃ front rest, bytes = front ++ rest ∧ Tokenized (us.map Token.lexeme) front ∧
      Lexes (offset + front.length) rest vs answer taken := by
  induction us generalizing offset bytes with
  | nil => exact ⟨[], bytes, rfl, .nil blanks_nil, h⟩
  | cons u us ih =>
    cases h with
    | token hu h =>
      obtain ⟨left, token, rfl, hl, ht, ha, -, rfl⟩ := exists_of_conclude_token hu
      obtain ⟨front, rest, rfl, hfront, hrest⟩ := ih h
      refine ⟨left ++ (token ++ front), rest, by simp, .cons hl ht (fun hn => ?_) hfront, ?_⟩
      · exact (ha hn).of_append
      · rw [← List.append_assoc, List.length_append, ← Nat.add_assoc]
        exact hrest

/-- A token of some bytes stands at its offset, behind the bytes of those in front of it. -/
theorem Lexes.placed {taken : Nat} {bytes : List UInt8} {us vs : List Token} {t : Token}
    {answer : Pull} (h : Lexes 0 bytes (us ++ t :: vs) answer taken) :
    ∃ front token rest, bytes = front ++ (token ++ rest) ∧
      Tokenized (us.map Token.lexeme) front ∧ TokenBytes t.lexeme token ∧
      (t.lexeme.1 = .number → Apart rest) ∧ t.offset = front.length := by
  obtain ⟨front, rest, rfl, hfront, hrest⟩ := h.exists_of_append
  cases hrest with
  | token ht hrest =>
    obtain ⟨left, token, rfl, hl, htoken, ha, ht, -⟩ := exists_of_conclude_token ht
    refine ⟨front ++ left, token, _, by simp, hfront.append_blanks hl, htoken, ha, ?_⟩
    rw [congrArg Token.offset ht, List.length_append, Nat.zero_add]

end Scan

end JsonShape
