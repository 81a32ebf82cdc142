import JsonShape.Grammar.Document
import JsonShape.Proofs.Value.Lexemes
import JsonShape.Token.Scan

/-!
# Texts as sequences of tokens

The grammar of JSON texts says how a value is written, down to the bytes. `Grammar.Tokenized` looks
at the same bytes as one token behind the other, with blanks around them, where a number must not go
on with what follows it. `Grammar.document_iff` says that a text holds a value exactly if it
consists of the tokens of the value.
-/

namespace JsonShape.Grammar

open Value (Lexeme furtherElements furtherMembers)

/-- No character that numbers are made of comes first. -/
def Apart (bytes : List UInt8) : Prop :=
  ∀ b ∈ bytes.head?, Scan.numeralChar? b = none

/-- The bytes consist of the tokens, and of blanks around them. -/
inductive Tokenized : List Lexeme → List UInt8 → Prop where
  | nil {blanks : List UInt8} (h : Blanks blanks) : Tokenized [] blanks
  | cons {x : Lexeme} {xs : List Lexeme} {left bytes rest : List UInt8} (hl : Blanks left)
      (h : TokenBytes x bytes) (apart : x.1 = .number → Apart rest) (hs : Tokenized xs rest) :
      Tokenized (x :: xs) (left ++ (bytes ++ rest))

/-! ## Blanks and marks -/

/-- There may be no blanks. -/
theorem blanks_nil : Blanks [] :=
  nofun

/-- Blanks may stand behind blanks. -/
theorem Blanks.append {left right : List UInt8} (hl : Blanks left) (hr : Blanks right) :
    Blanks (left ++ right) :=
  List.forall_mem_append.2 ⟨hl, hr⟩

/-- Nothing of a number comes where nothing comes. -/
theorem apart_nil : Apart [] :=
  nofun

/-- A byte that is no character of a number keeps the number in front of it apart. -/
theorem apart_cons {b : UInt8} {rest : List UInt8} (h : Scan.numeralChar? b = none) :
    Apart (b :: rest) := by
  rintro _ ⟨⟩
  exact h

/-- What comes first in some bytes comes first with more bytes behind them, too. -/
theorem Apart.of_append {bytes more : List UInt8} (h : Apart (bytes ++ more)) : Apart bytes := by
  cases bytes with
  | nil => exact apart_nil
  | cons b bytes => exact h

/-- A blank is no character of a number. -/
theorem Blanks.apart {blanks rest : List UInt8} (h : Blanks blanks) (hr : Apart rest) :
    Apart (blanks ++ rest) := by
  cases blanks with
  | nil => exact hr
  | cons b blanks =>
    rcases h b List.mem_cons_self with rfl | rfl | rfl | rfl <;> exact apart_cons rfl

/-- Blanks in front of the first token do not count. -/
theorem Tokenized.blanks_append {xs : List Lexeme} {left bytes : List UInt8} (hl : Blanks left)
    (h : Tokenized xs bytes) : Tokenized xs (left ++ bytes) := by
  cases h with
  | nil h => exact .nil (hl.append h)
  | cons hl' h apart hs =>
    rw [← List.append_assoc]
    exact .cons (hl.append hl') h apart hs

/-- Blanks behind the last token do not count. -/
theorem Tokenized.append_blanks {xs : List Lexeme} {bytes right : List UInt8}
    (h : Tokenized xs bytes) (hr : Blanks right) : Tokenized xs (bytes ++ right) := by
  induction h with
  | nil h => exact .nil (h.append hr)
  | @cons x xs left token rest hl h apart hs ih =>
    rw [List.append_assoc, List.append_assoc]
    refine .cons hl h (fun hn => ?_) ih
    cases rest with
    | nil => simpa using hr.apart apart_nil
    | cons b rest => exact apart hn

/-- A token that is no number may stand in front of any other. -/
theorem Tokenized.cons_of_ne {x : Lexeme} {xs : List Lexeme} {bytes rest : List UInt8}
    (h : TokenBytes x bytes) (hx : x.1 ≠ .number) (hs : Tokenized xs rest) :
    Tokenized (x :: xs) (bytes ++ rest) :=
  .cons blanks_nil h (fun e => absurd e hx) hs

/-! ## From values to tokens -/

/-- A key consists of a string, and the colon comes behind it. -/
theorem WrittenKey.tokenized {key : String} {bytes rest : List UInt8} {xs : List Lexeme}
    (h : WrittenKey key bytes) (hs : Tokenized xs rest) :
    Tokenized ((.string, some key) :: (.colon, none) :: xs) (bytes ++ 0x3A :: rest) := by
  cases h with
  | mk hl h hr =>
    have hcolon := (hs.cons_of_ne .colon nofun).blanks_append hr
    simpa using (hcolon.cons_of_ne (.string h) nofun).blanks_append hl

mutual

/-- A value that is written consists of its tokens. -/
theorem Written.tokenized {v : Value} {bytes : List UInt8} :
    Written v bytes → ∀ {xs : List Lexeme} {rest : List UInt8}, Tokenized xs rest → Apart rest →
      Tokenized (v.lexemes ++ xs) (bytes ++ rest)
  | .null, _, _, hs, _ => hs.cons_of_ne (.word .null) nofun
  | .yes, _, _, hs, _ => hs.cons_of_ne (.word .yes) nofun
  | .no, _, _, hs, _ => hs.cons_of_ne (.word .no) nofun
  | .number h, _, _, hs, ha => .cons blanks_nil (.number h) (fun _ => ha) hs
  | .string h, _, _, hs, _ => hs.cons_of_ne (.string h) nofun
  | .emptyArray h, _, _, hs, _ => by
    have hend := (hs.cons_of_ne .arrayEnd nofun).blanks_append h
    simpa [Value.lexemes] using hend.cons_of_ne .arrayStart nofun
  | .array h, _, _, hs, _ => by
    obtain ⟨v, vs, rfl, hvs⟩ := h.tokenized hs
    simpa [Value.lexemes] using hvs.cons_of_ne .arrayStart nofun
  | .emptyObject h, _, _, hs, _ => by
    have hend := (hs.cons_of_ne .objectEnd nofun).blanks_append h
    simpa [Value.lexemes] using hend.cons_of_ne .objectStart nofun
  | .object h, _, _, hs, _ => by
    obtain ⟨key, v, ms, rfl, hms⟩ := h.tokenized hs
    simpa [Value.lexemes] using hms.cons_of_ne .objectStart nofun

/-- Blanks around a value do not count. -/
theorem Document.tokenized {v : Value} {bytes : List UInt8} :
    Document v bytes → ∀ {xs : List Lexeme} {rest : List UInt8}, Tokenized xs rest → Apart rest →
      Tokenized (v.lexemes ++ xs) (bytes ++ rest)
  | .mk hl h hr, _, _, hs, ha => by
    simpa using (h.tokenized (hs.blanks_append hr) (hr.apart ha)).blanks_append hl

/-- Elements that are written consist of their tokens, up to the end of the array. -/
theorem WrittenElements.tokenized {vs : List Value} {bytes : List UInt8} :
    WrittenElements vs bytes → ∀ {xs : List Lexeme} {rest : List UInt8}, Tokenized xs rest →
      ∃ v ws, vs = v :: ws ∧
        Tokenized (v.lexemes ++ (furtherElements ws ++ xs)) (bytes ++ 0x5D :: rest)
  | .last h, _, _, hs =>
    ⟨_, _, rfl, h.tokenized (hs.cons_of_ne .arrayEnd nofun) (apart_cons rfl)⟩
  | .more h hvs, _, _, hs => by
    obtain ⟨w, ws, rfl, hrest⟩ := hvs.tokenized hs
    refine ⟨_, _, rfl, ?_⟩
    have hcomma := hrest.cons_of_ne .comma nofun
    simpa [furtherElements] using h.tokenized hcomma (apart_cons rfl)

/-- Members that are written consist of their tokens, up to the end of the object. -/
theorem WrittenMembers.tokenized {ms : List (String × Value)} {bytes : List UInt8} :
    WrittenMembers ms bytes → ∀ {xs : List Lexeme} {rest : List UInt8}, Tokenized xs rest →
      ∃ key v ns, ms = (key, v) :: ns ∧
        Tokenized ((.string, some key) :: (.colon, none) ::
          (v.lexemes ++ (furtherMembers ns ++ xs))) (bytes ++ 0x7D :: rest)
  | .last hk h, _, _, hs => by
    refine ⟨_, _, _, rfl, ?_⟩
    have hvalue := h.tokenized (hs.cons_of_ne .objectEnd nofun) (apart_cons rfl)
    simpa [furtherMembers] using hk.tokenized hvalue
  | .more hk h hms, _, _, hs => by
    obtain ⟨key, w, ns, rfl, hrest⟩ := hms.tokenized hs
    refine ⟨_, _, _, rfl, ?_⟩
    have hcomma := hrest.cons_of_ne .comma nofun
    have hvalue := h.tokenized hcomma (apart_cons rfl)
    simpa [furtherMembers] using hk.tokenized hvalue

end

/-! ## From tokens to values -/

/-- A first token has blanks in front of it and the other tokens behind it. -/
theorem Tokenized.exists_of_cons {x : Lexeme} {xs : List Lexeme} {bytes : List UInt8}
    (h : Tokenized (x :: xs) bytes) : ∃ left token rest, bytes = left ++ (token ++ rest) ∧
      Blanks left ∧ TokenBytes x token ∧ Tokenized xs rest := by
  cases h with
  | cons hl h _ hs => exact ⟨_, _, _, rfl, hl, h, hs⟩

/-- Bytes that consist of the tokens of the value and of others start with the value. -/
def Starts (v : Value) : Prop :=
  ∀ (xs : List Lexeme) (bytes : List UInt8), Tokenized (v.lexemes ++ xs) bytes →
    ∃ left token rest, bytes = left ++ (token ++ rest) ∧ Blanks left ∧ Written v token ∧
      Tokenized xs rest

/-- A string and a colon are a key that is written. -/
theorem exists_writtenKey {key : String} {xs : List Lexeme} {bytes : List UInt8}
    (h : Tokenized ((.string, some key) :: (.colon, none) :: xs) bytes) :
    ∃ name rest, bytes = name ++ 0x3A :: rest ∧ WrittenKey key name ∧ Tokenized xs rest := by
  obtain ⟨left, name, rest, rfl, hl, ⟨⟩, hcolon⟩ := h.exists_of_cons
  obtain ⟨right, _, rest, rfl, hr, ⟨⟩, hxs⟩ := hcolon.exists_of_cons
  exact ⟨left ++ name ++ right, rest, by simp, .mk hl ‹_› hr, hxs⟩

/-- The tokens of elements are elements that are written. -/
theorem exists_writtenElements {v : Value} {vs : List Value} (hv : Starts v)
    (hvs : ∀ w ∈ vs, Starts w) {xs : List Lexeme} {bytes : List UInt8}
    (h : Tokenized (v.lexemes ++ (furtherElements vs ++ xs)) bytes) :
    ∃ inner rest, bytes = inner ++ 0x5D :: rest ∧ WrittenElements (v :: vs) inner ∧
      Tokenized xs rest := by
  induction vs generalizing v bytes with
  | nil =>
    obtain ⟨left, token, rest, rfl, hl, hw, hend⟩ := hv _ _ h
    obtain ⟨right, _, rest, rfl, hr, ⟨⟩, hxs⟩ := hend.exists_of_cons
    exact ⟨left ++ token ++ right, rest, by simp, .last (.mk hl hw hr), hxs⟩
  | cons w vs ih =>
    rw [List.forall_mem_cons] at hvs
    obtain ⟨left, token, rest, rfl, hl, hw, hcomma⟩ := hv _ _ h
    rw [furtherElements, List.cons_append, List.append_assoc] at hcomma
    obtain ⟨right, _, rest, rfl, hr, ⟨⟩, hrest⟩ := hcomma.exists_of_cons
    obtain ⟨inner, rest, rfl, hws, hxs⟩ := ih hvs.1 hvs.2 hrest
    exact ⟨left ++ token ++ right ++ 0x2C :: inner, rest, by simp, .more (.mk hl hw hr) hws, hxs⟩

/-- The tokens of members are members that are written. -/
theorem exists_writtenMembers {key : String} {v : Value} {ms : List (String × Value)}
    (hv : Starts v) (hms : ∀ m ∈ ms, Starts m.2) {xs : List Lexeme} {bytes : List UInt8}
    (h : Tokenized ((.string, some key) :: (.colon, none) ::
      (v.lexemes ++ (furtherMembers ms ++ xs))) bytes) :
    ∃ inner rest, bytes = inner ++ 0x7D :: rest ∧ WrittenMembers ((key, v) :: ms) inner ∧
      Tokenized xs rest := by
  induction ms generalizing key v bytes with
  | nil =>
    obtain ⟨name, rest, rfl, hk, hvalue⟩ := exists_writtenKey h
    obtain ⟨left, token, rest, rfl, hl, hw, hend⟩ := hv _ _ hvalue
    obtain ⟨right, _, rest, rfl, hr, ⟨⟩, hxs⟩ := hend.exists_of_cons
    exact ⟨name ++ 0x3A :: (left ++ token ++ right), rest, by simp, .last hk (.mk hl hw hr), hxs⟩
  | cons m ms ih =>
    obtain ⟨name, rest, rfl, hk, hvalue⟩ := exists_writtenKey h
    rw [List.forall_mem_cons] at hms
    obtain ⟨left, token, rest, rfl, hl, hw, hcomma⟩ := hv _ _ hvalue
    rw [furtherMembers, List.cons_append, List.cons_append, List.cons_append,
      List.append_assoc] at hcomma
    obtain ⟨right, _, rest, rfl, hr, ⟨⟩, hrest⟩ := hcomma.exists_of_cons
    obtain ⟨inner, rest, rfl, hws, hxs⟩ := ih hms.1 hms.2 hrest
    exact ⟨name ++ 0x3A :: (left ++ token ++ right ++ 0x2C :: inner), rest, by simp,
      .more hk (.mk hl hw hr) hws, hxs⟩

/-- The bytes of the tokens of a value are the value as it is written. -/
theorem starts (v : Value) : Starts v := by
  induction v using Value.induction with
  | null =>
    intro xs bytes h
    obtain ⟨left, token, rest, rfl, hl, ⟨⟩, hxs⟩ := h.exists_of_cons
    exact ⟨left, _, rest, rfl, hl, .null, hxs⟩
  | bool b =>
    intro xs bytes h
    obtain ⟨left, token, rest, rfl, hl, ht, hxs⟩ := h.exists_of_cons
    cases b with
    | false => cases ht; exact ⟨left, _, rest, rfl, hl, .no, hxs⟩
    | true => cases ht; exact ⟨left, _, rest, rfl, hl, .yes, hxs⟩
  | number literal =>
    intro xs bytes h
    obtain ⟨left, token, rest, rfl, hl, ⟨⟩, hxs⟩ := h.exists_of_cons
    exact ⟨left, _, rest, rfl, hl, .number ‹_›, hxs⟩
  | string text =>
    intro xs bytes h
    obtain ⟨left, token, rest, rfl, hl, ⟨⟩, hxs⟩ := h.exists_of_cons
    exact ⟨left, _, rest, rfl, hl, .string ‹_›, hxs⟩
  | array vs ih =>
    intro xs bytes h
    cases vs with
    | nil =>
      obtain ⟨left, _, rest, rfl, hl, ⟨⟩, hend⟩ := h.exists_of_cons
      obtain ⟨blanks, _, rest, rfl, hb, ⟨⟩, hxs⟩ := hend.exists_of_cons
      exact ⟨left, 0x5B :: (blanks ++ [0x5D]), rest, by simp, hl, .emptyArray hb, hxs⟩
    | cons v vs =>
      rw [List.forall_mem_cons] at ih
      rw [Value.lexemes, List.cons_append, List.append_assoc] at h
      obtain ⟨left, _, rest, rfl, hl, ⟨⟩, hvs⟩ := h.exists_of_cons
      obtain ⟨inner, rest, rfl, hws, hxs⟩ := exists_writtenElements ih.1 ih.2 hvs
      exact ⟨left, 0x5B :: (inner ++ [0x5D]), rest, by simp, hl, .array hws, hxs⟩
  | object ms ih =>
    intro xs bytes h
    cases ms with
    | nil =>
      obtain ⟨left, _, rest, rfl, hl, ⟨⟩, hend⟩ := h.exists_of_cons
      obtain ⟨blanks, _, rest, rfl, hb, ⟨⟩, hxs⟩ := hend.exists_of_cons
      exact ⟨left, 0x7B :: (blanks ++ [0x7D]), rest, by simp, hl, .emptyObject hb, hxs⟩
    | cons m ms =>
      obtain ⟨key, v⟩ := m
      rw [Value.lexemes, List.cons_append, List.cons_append, List.cons_append,
        List.append_assoc] at h
      obtain ⟨left, _, rest, rfl, hl, ⟨⟩, hms⟩ := h.exists_of_cons
      obtain ⟨inner, rest, rfl, hws, hxs⟩ := exists_writtenMembers
        (ih key v List.mem_cons_self)
        (fun m hm => ih m.1 m.2 (List.mem_cons_of_mem _ hm)) hms
      exact ⟨left, 0x7B :: (inner ++ [0x7D]), rest, by simp, hl, .object hws, hxs⟩

/-- A text holds a value exactly if it consists of the tokens of the value. -/
theorem document_iff {v : Value} {bytes : List UInt8} :
    Document v bytes ↔ Tokenized v.lexemes bytes := by
  refine ⟨fun h => ?_, fun h => ?_⟩
  · simpa using h.tokenized (.nil blanks_nil) apart_nil
  · obtain ⟨left, token, right, rfl, hl, hw, hr⟩ := starts v [] bytes (by rwa [List.append_nil])
    cases hr with
    | nil hr =>
      rw [← List.append_assoc]
      exact .mk hl hw hr

end JsonShape.Grammar
