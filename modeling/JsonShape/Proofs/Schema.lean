import JsonShape.Proofs.Inference.Completion
import JsonShape.Proofs.Token.Lexer
import JsonShape.Proofs.Value.Conformance
import JsonShape.Schema

/-!
# The shape of a text

The layers meet here. A text is read by a lexer, which yields the tokens that the bytes consist of;
these complete a shape exactly if they spell a value that does not nest too deep; and they spell one
exactly if the text holds it. So a text has a shape exactly if it holds a value of at most 128
levels, and then it holds no other one and the shape is that of the value
(`Schema.survey_eq_ok_iff`, `Schema.accepts_exactly`). That shape is principal: it admits the value,
and nothing that another shape which admits the value would not admit (`Schema.principal_shape`).
-/

namespace JsonShape

open Grammar

/-- No token of a text is a string without its text. -/
theorem Inference.texted_of_tokenized {ts : List Token} {bytes : List UInt8}
    (h : Tokenized (ts.map Token.lexeme) bytes) : Texted ts := by
  induction ts generalizing bytes with
  | nil => exact nofun
  | cons t ts ih =>
    obtain ⟨left, token, rest, -, -, ht, hs⟩ := h.exists_of_cons
    refine List.forall_mem_cons.2 ⟨fun e => ?_, ih hs⟩
    rw [e] at ht
    cases ht

namespace Schema

/-- A source has a shape exactly if it delivers a value of few enough levels, and it is the
value's. -/
theorem survey_eq_ok_iff {source : Source} {bytes : List UInt8} (h : source.Delivers bytes)
    {s : Shape} : (survey source).result = .ok s ↔
      ∃ v, Document v bytes ∧ v.levels ≤ Inference.limit ∧ v.shape = s := by
  have hl := Lexer.holds_ofSource h
  have hresult : (survey source).result =
      (Inference.ofDocument (.lexer (.ofSource source))).1 := rfl
  rw [hresult, Inference.ofDocument_eq_ok_iff]
  constructor
  · rintro ⟨ts, hts, hread⟩
    have htok := Lexer.tokenized_of_yields hl hts
    have htext := Inference.texted_of_tokenized htok
    obtain ⟨v, hv, hlevels, hs⟩ := (Inference.read_eq_done_iff htext).1 hread
    exact ⟨v, document_iff.2 (hv ▸ htok), hlevels, hs⟩
  · rintro ⟨v, hv, hlevels, hs⟩
    have htok := document_iff.1 hv
    obtain ⟨ts, hts, hspelled⟩ := Lexer.yields_of_tokenized hl htok
    have htext : Inference.Texted ts := Inference.texted_of_tokenized (hspelled.symm ▸ htok)
    exact ⟨ts, hts, (Inference.read_eq_done_iff htext).2 ⟨v, hspelled, hlevels, hs⟩⟩

/-- A text holds one value at most. -/
theorem document_unique {v w : Value} {bytes : List UInt8} (hv : Document v bytes)
    (hw : Document w bytes) : v = w := by
  have hsource : (Source.ofBytes none bytes).Delivers bytes :=
    Source.delivers_ofBytes (by decide) bytes
  have hl := Lexer.holds_ofSource hsource
  obtain ⟨ts, hts, hvts⟩ := Lexer.yields_of_tokenized hl (document_iff.1 hv)
  obtain ⟨us, hus, hwus⟩ := Lexer.yields_of_tokenized hl (document_iff.1 hw)
  obtain rfl := hts.unique hus
  exact Value.SpelledBy.unique hvts hwus

/-- Reading in pieces of the usual size delivers the text. -/
theorem delivers_defaultChunk (bytes : List UInt8) :
    (Source.ofBytes (some Source.defaultChunk) bytes).Delivers bytes :=
  Source.delivers_ofBytes (by decide) bytes

/-- No text holds two values, and it has a shape exactly if it holds a value that nests at most
128 levels. The shape is that of the value. -/
theorem accepts_exactly (bytes : List UInt8) :
    (∀ v w, Document v bytes → Document w bytes → v = w) ∧
      ∀ s, (survey (.ofBytes (some Source.defaultChunk) bytes)).result = .ok s ↔
        ∃ v, Document v bytes ∧ v.levels ≤ 128 ∧ v.shape = s :=
  ⟨fun _ _ hv hw => document_unique hv hw, fun _ => survey_eq_ok_iff (delivers_defaultChunk bytes)⟩

/-- The shape of a text admits the value that the text holds, and whatever it admits is admitted by
every shape of distinct keys that admits that value. -/
theorem principal_shape {bytes : List UInt8} {v : Value} {s : Shape} (hv : Document v bytes)
    (hs : (survey (.ofBytes (some Source.defaultChunk) bytes)).result = .ok s) :
    v.Conforms s ∧
      ∀ c, c.DistinctKeys → v.Conforms c → ∀ w : Value, w.Conforms s → w.Conforms c := by
  obtain ⟨u, hu, -, rfl⟩ := (survey_eq_ok_iff (delivers_defaultChunk bytes)).1 hs
  obtain rfl := document_unique hv hu
  exact ⟨v.conforms_shape, fun c hc hvc w hw => hw.mono (Value.shape_le hvc hc)⟩

/-- The text of an array of two objects, the second of which lacks the key of the first. -/
theorem document_objects :
    Document (.array [.object [("a", .number "1")], .object []])
      [0x5B, 0x7B, 0x22, 0x61, 0x22, 0x3A, 0x31, 0x7D, 0x2C, 0x7B, 0x7D, 0x5D] := by
  have hkey : SpelledString "a" [0x22, 0x61, 0x22] :=
    ⟨[0x61], .cons (.raw (by decide) (by decide) (by decide)) .nil, rfl⟩
  have hone : Written (.number "1") [0x31] := .number (Numeral.isFinal_reach_iff.1 (by decide))
  have hfirst : Written (.object [("a", .number "1")])
      [0x7B, 0x22, 0x61, 0x22, 0x3A, 0x31, 0x7D] :=
    .object (.last (.mk blanks_nil hkey blanks_nil) (.mk blanks_nil hone blanks_nil))
  have hsecond : Written (.object []) [0x7B, 0x7D] := .emptyObject blanks_nil
  exact .mk blanks_nil (.array (.more (.mk blanks_nil hfirst blanks_nil)
    (.last (.mk blanks_nil hsecond blanks_nil)))) blanks_nil

/-- In the shape of such a text the key is optional, as it has to be. -/
theorem principal_shape_objects :
    let bytes := [0x5B, 0x7B, 0x22, 0x61, 0x22, 0x3A, 0x31, 0x7D, 0x2C, 0x7B, 0x7D, 0x5D]
    let v : Value := .array [.object [("a", .number "1")], .object []]
    let s : Shape := .list (.record [("a", .optional .int)])
    (survey (.ofBytes (some Source.defaultChunk) bytes)).result = .ok s ∧ v.Conforms s ∧
      ∀ c, c.DistinctKeys → v.Conforms c → ∀ w : Value, w.Conforms s → w.Conforms c := by
  intro bytes v s
  have hs : (survey (.ofBytes (some Source.defaultChunk) bytes)).result = .ok s :=
    (survey_eq_ok_iff (delivers_defaultChunk bytes)).2
      ⟨v, document_objects, by decide, by decide +kernel⟩
  exact ⟨hs, principal_shape document_objects hs⟩

end Schema

end JsonShape
