import JsonShape.Proofs.Token.Tiling

/-!
# Strings and their spellings

A lexer finds the text of a string again, whichever of its spellings the characters have been
written in, and it gives no other texts: the bytes of every string that it gives are a spelling of
the text (`Lexer.strings_spelled`). Both directions are read off the tile of a string.
-/

namespace JsonShape.Lexer

open Grammar

/-- A quoted spelling of a text is a single string, and it has that text. Conversely, each string
that a lexer gives has a text, of Unicode scalar values, and its bytes are a quoted spelling of this
text, whatever comes behind it. -/
theorem strings_spelled :
    (∀ (cs : List Char) (inner : List UInt8), SpelledText cs inner →
      ∀ source : Source, source.Delivers (0x22 :: (inner ++ [0x22])) →
        (ofSource source).Gives [⟨.string, some (.ofList cs), 0⟩]) ∧
    ∀ (bytes : List UInt8) (source : Source), source.Delivers bytes → ∀ (k : Nat) (t : Token),
      ((ofSource source).call k).1 = .token t → t.kind = .string →
        ∃ (text : String) (place : Nat) (inner : List UInt8),
          t.text? = some text ∧ t.offset = place ∧
          (∀ c ∈ text.toList, c.toNat < 0xD800 ∨ 0xDFFF < c.toNat ∧ c.toNat < 0x110000) ∧
          SpelledText text.toList inner ∧
          bytes.extract place ((ofSource source).call k).2 = 0x22 :: (inner ++ [0x22]) := by
  refine ⟨fun cs inner h source hsource => ?_, fun bytes source hsource k t ht hkind => ?_⟩
  · have hstring : SpelledString (.ofList cs) (0x22 :: (inner ++ [0x22])) :=
      ⟨inner, by rwa [String.toList_ofList], rfl⟩
    exact (standsIn_ofSource hsource).gives_of_tiles rfl (tiles_singleton (.string hstring) rfl)
  · obtain ⟨place, htile⟩ := (standsIn_ofSource hsource).tile_of_call ht
    have htoken := htile.token
    rw [hkind] at htoken
    generalize htext : t.text? = text? at htoken
    generalize hcut : bytes.extract place ((ofSource source).call k).2 = token at htoken
    cases htoken with
    | @string text _ h =>
      obtain ⟨inner, hinner, rfl⟩ := h
      have hscalar : ∀ c ∈ text.toList,
          c.toNat < 0xD800 ∨ 0xDFFF < c.toNat ∧ c.toNat < 0x110000 := fun c _ => c.valid
      exact ⟨text, place, inner, rfl, htile.offset, hscalar, hinner, hcut⟩

/-- Four characters are spelled in four ways, and the reads cut an escape. In other bytes, a string
comes in front of a number that is none. -/
theorem strings_spelled_mixed :
    let cs : List Char := ['é', '"', 'K', '😀']
    let inner : List UInt8 := [0xC3, 0xA9, 0x5C, 0x22, 0x5C, 0x75, 0x30, 0x30, 0x34, 0x62,
      0x5C, 0x75, 0x64, 0x38, 0x33, 0x44, 0x5C, 0x75, 0x44, 0x65, 0x30, 0x30]
    let source : Source := [.bytes [0x22, 0xC3, 0xA9, 0x5C],
      .bytes [0x22, 0x5C, 0x75, 0x30, 0x30, 0x34, 0x62, 0x5C, 0x75, 0x64, 0x38, 0x33, 0x44, 0x5C,
        0x75, 0x44, 0x65, 0x30, 0x30, 0x22]]
    let bytes : List UInt8 := [0x20, 0x22, 0x5C, 0x2F, 0x22, 0x2D]
    SpelledText cs inner ∧ source.Delivers (0x22 :: (inner ++ [0x22])) ∧
      (ofSource source).Gives [⟨.string, some "é\"K😀", 0⟩] ∧
      ((ofSource [.bytes bytes]).call 0).1 = .token ⟨.string, some "/", 1⟩ ∧
      ∃ inner', SpelledText ['/'] inner' ∧ bytes.extract 1 5 = 0x22 :: (inner' ++ [0x22]) := by
  intro cs inner source bytes
  have hescape : SpelledChar 'K' [0x5C, 0x75, 0x30, 0x30, 0x34, 0x62] :=
    .number (.digits (a := 0) (b := 0) (c := 4) (d := 11) (.inl ⟨by decide, rfl⟩)
      (.inl ⟨by decide, rfl⟩) (.inl ⟨by decide, rfl⟩) (.inr ⟨by decide, by decide, .inr rfl⟩))
  have hhigh : NumberEscape 0xD83D [0x5C, 0x75, 0x64, 0x38, 0x33, 0x44] :=
    .digits (a := 13) (b := 8) (c := 3) (d := 13) (.inr ⟨by decide, by decide, .inr rfl⟩)
      (.inl ⟨by decide, rfl⟩) (.inl ⟨by decide, rfl⟩) (.inr ⟨by decide, by decide, .inl rfl⟩)
  have hlow : NumberEscape 0xDE00 [0x5C, 0x75, 0x44, 0x65, 0x30, 0x30] :=
    .digits (a := 13) (b := 14) (c := 0) (d := 0) (.inr ⟨by decide, by decide, .inl rfl⟩)
      (.inr ⟨by decide, by decide, .inr rfl⟩) (.inl ⟨by decide, rfl⟩) (.inl ⟨by decide, rfl⟩)
  have hpair : SpelledChar '😀'
      ([0x5C, 0x75, 0x64, 0x38, 0x33, 0x44] ++ [0x5C, 0x75, 0x44, 0x65, 0x30, 0x30]) :=
    .pair (by decide) hhigh hlow
  have hraw : SpelledChar 'é' [0xC3, 0xA9] := .raw (by decide) (by decide) (by decide)
  have hshort : SpelledChar '"' [0x5C, 0x22] := .short (by decide)
  have hspelled : SpelledText cs inner :=
    .cons hraw (.cons hshort (.cons hescape (.cons hpair .nil)))
  have hsource : source.Delivers (0x22 :: (inner ++ [0x22])) := .chunk _ _ (.chunk _ _ .nil)
  have hbytes : Source.Delivers [.bytes bytes] bytes := .chunk _ _ .nil
  have hcall : ((ofSource [.bytes bytes]).call 0).1 = .token ⟨.string, some "/", 1⟩ := by
    decide +kernel
  refine ⟨hspelled, hsource, strings_spelled.1 cs inner hspelled source hsource, hcall, ?_⟩
  obtain ⟨text, place, inner', htext, hplace, -, hinner, hcut⟩ :=
    strings_spelled.2 bytes _ hbytes 0 _ hcall rfl
  cases htext
  cases hplace
  have hstop : ((ofSource [.bytes bytes]).call 0).2 = 5 := by decide +kernel
  rw [hstop] at hcut
  exact ⟨inner', hinner, hcut⟩

end JsonShape.Lexer
