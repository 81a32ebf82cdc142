import JsonShape.Proofs.Schema
import JsonShape.Proofs.Shape.Text

/-!
# The lines of a schema

The rows of a shape are the lines that its schema is meant to have: one for the opening brace, one
for each field and one for each closing brace. The schema consists of them, with line feeds between
them (`Shape.flatMap_rows`), and there is one more of them than there are records and fields
(`Shape.length_rows`). Keys, however, are written as they are, and may hold line feeds of their own.
So a schema has a line feed for each record, for each field and for each one in a key, and its rows
are its lines exactly if no key has any (`Schema.lines_ofBytes`).
-/

namespace JsonShape

namespace Shape

/-- The number of line feeds in some texts. -/
def lineFeeds (texts : List String) : Nat :=
  (texts.flatMap String.toList).count '\n'

@[simp] theorem lineFeeds_nil : lineFeeds [] = 0 :=
  rfl

@[simp] theorem lineFeeds_cons (t : String) (texts : List String) :
    lineFeeds (t :: texts) = t.toList.count '\n' + lineFeeds texts := by
  rw [lineFeeds, List.flatMap_cons, List.count_append, ← lineFeeds]

@[simp] theorem lineFeeds_append (texts others : List String) :
    lineFeeds (texts ++ others) = lineFeeds texts + lineFeeds others := by
  rw [lineFeeds, List.flatMap_append, List.count_append, ← lineFeeds, ← lineFeeds]

/-- Spaces are no line feeds. -/
@[simp] theorem count_lineFeed_margin (level : Nat) : (margin level).toList.count '\n' = 0 := by
  rw [List.count_eq_zero]
  simp

mutual

/-- The rows of a shape are the lines of its text. -/
theorem flatMap_rows (indent level : Nat) (before after : String) :
    (s : Shape) → (s.rows indent level before after).flatMap (fun row => row.toList ++ ['\n']) =
      before.toList ++ ((s.text indent level).toList ++ (after.toList ++ ['\n']))
  | .optional s => by
    rw [rows, flatMap_rows indent level before ("?" ++ after) s]
    simp [text]
  | .list s => by
    rw [rows, flatMap_rows indent level before ("[]" ++ after) s]
    simp [text]
  | .record f => by
    rw [rows, List.flatMap_cons, List.flatMap_append, flatMap_fieldsRows]
    simp [text]
  | .bottom | .top | .bool | .str | .int | .float => by simp [rows, text]

/-- The rows of fields are their lines. -/
theorem flatMap_fieldsRows (indent level : Nat) :
    (f : List (String × Shape)) →
      (fieldsRows indent level f).flatMap (fun row => row.toList ++ ['\n']) =
        (fieldsText indent level f).toList
  | [] => rfl
  | (key, s) :: f => by
    rw [fieldsRows, List.flatMap_append, flatMap_rows, flatMap_fieldsRows]
    simp [fieldsText]

end

mutual

/-- There is a row for the first line, and one for each record and each field. -/
theorem length_rows (indent level : Nat) (before after : String) :
    (s : Shape) → (s.rows indent level before after).length = s.lineCount + 1
  | .optional s | .list s => by
    rw [rows, length_rows, lineCount]
  | .record f => by
    rw [rows, List.length_cons, List.length_append, length_fieldsRows, lineCount,
      List.length_singleton]
    omega
  | .bottom | .top | .bool | .str | .int | .float => rfl

/-- Each field has a row of its own, in front of those of the records in it. -/
theorem length_fieldsRows (indent level : Nat) :
    (f : List (String × Shape)) → (fieldsRows indent level f).length = fieldsLineCount f
  | [] => rfl
  | (key, s) :: f => by
    rw [fieldsRows, List.length_append, length_rows, length_fieldsRows, fieldsLineCount]
    omega

end

mutual

/-- The rows of a shape have the line feeds of the keys in it, and those of the texts around it. -/
theorem lineFeeds_rows (indent level : Nat) (before after : String) :
    (s : Shape) → lineFeeds (s.rows indent level before after) =
      before.toList.count '\n' + after.toList.count '\n' + lineFeeds s.allKeys
  | .optional s => by
    rw [rows, lineFeeds_rows, allKeys]
    simp
  | .list s => by
    rw [rows, lineFeeds_rows, allKeys]
    simp
  | .record f => by
    have hopen : "\x7b".toList.count '\n' = 0 := rfl
    have hclose : "\x7d".toList.count '\n' = 0 := rfl
    simp only [rows, allKeys, lineFeeds_cons, lineFeeds_append, lineFeeds_nil, lineFeeds_fieldsRows,
      String.toList_append, List.count_append, count_lineFeed_margin, hopen, hclose]
    omega
  | .bottom | .top | .bool | .str | .int | .float => by simp [rows, allKeys, text]

/-- The rows of fields have the line feeds of the keys in them. -/
theorem lineFeeds_fieldsRows (indent level : Nat) :
    (f : List (String × Shape)) →
      lineFeeds (fieldsRows indent level f) = lineFeeds (fieldsAllKeys f)
  | [] => rfl
  | (key, s) :: f => by
    have hcolon : ": ".toList.count '\n' = 0 := rfl
    have hcomma : ",".toList.count '\n' = 0 := rfl
    simp only [fieldsRows, fieldsAllKeys, lineFeeds_cons, lineFeeds_append, lineFeeds_rows,
      lineFeeds_fieldsRows, String.toList_append, List.count_append, count_lineFeed_margin, hcolon,
      hcomma]
    omega

end

/-- Texts have no line feeds if none of them has one. -/
theorem lineFeeds_eq_zero_iff {texts : List String} :
    lineFeeds texts = 0 ↔ ∀ t ∈ texts, '\n' ∉ t.toList := by
  rw [lineFeeds, List.count_eq_zero]
  simp

/-- Lines have a line feed each, and those inside them. -/
theorem count_flatMap_lineFeed (lines : List String) :
    (lines.flatMap fun line => line.toList ++ ['\n']).count '\n' =
      lines.length + lineFeeds lines := by
  induction lines with
  | nil => rfl
  | cons line lines ih =>
    rw [List.flatMap_cons, List.count_append, List.count_append, ih, lineFeeds_cons,
      List.length_cons, List.count_singleton_self]
    omega

end Shape

namespace Schema

open Grammar Shape

/-- The schema of a text has a line feed for each record and each field of the shape, and for each
line feed in a key: so only those exactly if no key has one. It consists of the rows of the shape,
with a line feed between each and the next; and these are its lines, without a line feed in any of
them, under the same condition. -/
theorem lines_ofBytes {bytes : List UInt8} {s : Shape} (layout : Layout)
    (h : (survey (.ofBytes (some Source.defaultChunk) bytes)).result = .ok s) :
    ∃ schema, ofBytes bytes layout = .ok schema ∧
      schema.toList.count '\n' = s.lineCount + lineFeeds s.allKeys ∧
      (schema.toList.count '\n' = s.lineCount ↔ s.Unbroken) ∧
      schema.toList ++ ['\n'] =
        (s.rows layout.indent 0 "" "").flatMap (fun row => row.toList ++ ['\n']) ∧
      (s.rows layout.indent 0 "" "").length = s.lineCount + 1 ∧
      ((∀ row ∈ s.rows layout.indent 0 "" "", '\n' ∉ row.toList) ↔ s.Unbroken) := by
  have hofBytes : ofBytes bytes layout = .ok (s.render layout) := by
    rw [ofBytes, ofSource, h]
    rfl
  have hrows : (s.render layout).toList ++ ['\n'] =
      (s.rows layout.indent 0 "" "").flatMap (fun row => row.toList ++ ['\n']) := by
    rw [flatMap_rows, render, write_singleton]
    rfl
  have hlength := length_rows layout.indent 0 "" "" s
  have hfeeds : lineFeeds (s.rows layout.indent 0 "" "") = lineFeeds s.allKeys := by
    rw [lineFeeds_rows]
    simp
  have hcount : (s.render layout).toList.count '\n' = s.lineCount + lineFeeds s.allKeys := by
    have hboth := congrArg (List.count '\n') hrows
    rw [count_flatMap_lineFeed, hlength, hfeeds, List.count_append,
      List.count_singleton_self] at hboth
    omega
  have hunbroken : lineFeeds s.allKeys = 0 ↔ s.Unbroken := lineFeeds_eq_zero_iff
  refine ⟨_, hofBytes, hcount, ?_, hrows, hlength, ?_⟩
  · rw [← hunbroken, hcount]
    omega
  · rw [← lineFeeds_eq_zero_iff, hfeeds, hunbroken]

/-- An object with a key that is spelled by an escape. -/
theorem written_escaped {c : Char} {b : UInt8} (h : (c, b) ∈ shortEscapes) :
    Written (.object [(.ofList ['a', c], .number "1")])
      [0x7B, 0x22, 0x61, 0x5C, b, 0x22, 0x3A, 0x31, 0x7D] := by
  have htext : SpelledText ['a', c] [0x61, 0x5C, b] :=
    .cons (.raw (by decide) (by decide) (by decide)) (.cons (.short h) .nil)
  have hkey : SpelledString (.ofList ['a', c]) [0x22, 0x61, 0x5C, b, 0x22] :=
    ⟨[0x61, 0x5C, b], by rwa [String.toList_ofList], rfl⟩
  have hone : Written (.number "1") [0x31] := .number (Numeral.isFinal_reach_iff.1 (by decide))
  exact .object (.last (.mk blanks_nil hkey blanks_nil) (.mk blanks_nil hone blanks_nil))

/-- A tab in a key is not in the way: `{"k": [{"a\t": 1}, {}]}` has two records and two fields. -/
theorem lines_ofBytes_nested :
    let bytes : List UInt8 := [0x7B, 0x22, 0x6B, 0x22, 0x3A, 0x5B, 0x7B, 0x22, 0x61, 0x5C, 0x74,
      0x22, 0x3A, 0x31, 0x7D, 0x2C, 0x7B, 0x7D, 0x5D, 0x7D]
    let s : Shape := .record [("k", .list (.record [("a\t", .optional .int)]))]
    (survey (.ofBytes (some Source.defaultChunk) bytes)).result = .ok s ∧ s.Unbroken ∧
      s.rows 2 0 "" "" = ["\x7b", "  k: \x7b", "    a\t: int?,", "  \x7d[],", "\x7d"] ∧
      ∃ schema, ofBytes bytes ⟨2⟩ = .ok schema ∧ schema.toList.count '\n' = 4 := by
  intro bytes s
  have hkey : SpelledString "k" [0x22, 0x6B, 0x22] :=
    ⟨[0x6B], .cons (.raw (by decide) (by decide) (by decide)) .nil, rfl⟩
  have hfirst := written_escaped (c := '\t') (b := 0x74) (by decide)
  have hsecond : Written (.object []) [0x7B, 0x7D] := .emptyObject blanks_nil
  have harray : Written (.array [.object [("a\t", .number "1")], .object []])
      [0x5B, 0x7B, 0x22, 0x61, 0x5C, 0x74, 0x22, 0x3A, 0x31, 0x7D, 0x2C, 0x7B, 0x7D, 0x5D] :=
    .array (.more (.mk blanks_nil hfirst blanks_nil)
      (.last (.mk blanks_nil hsecond blanks_nil)))
  have hdocument : Document (.object [("k", .array [.object [("a\t", .number "1")],
      .object []])]) bytes :=
    .mk blanks_nil (.object (.last (.mk blanks_nil hkey blanks_nil)
      (.mk blanks_nil harray blanks_nil))) blanks_nil
  have hs : (survey (.ofBytes (some Source.defaultChunk) bytes)).result = .ok s :=
    (survey_eq_ok_iff (delivers_defaultChunk bytes)).2
      ⟨_, hdocument, by decide, by decide +kernel⟩
  have hunbroken : s.Unbroken := by decide +kernel
  obtain ⟨schema, hschema, -, hcount, -⟩ := lines_ofBytes ⟨2⟩ hs
  exact ⟨hs, hunbroken, by decide +kernel, schema, hschema, hcount.2 hunbroken⟩

/-- The key of `{"a\n": 1}` holds a line feed, and the schema of one record with one field has three
of them. -/
theorem lines_ofBytes_broken_key :
    let bytes : List UInt8 := [0x7B, 0x22, 0x61, 0x5C, 0x6E, 0x22, 0x3A, 0x31, 0x7D]
    let s : Shape := .record [("a\n", .int)]
    let schema := "\x7b\n    a\n: int,\n\x7d"
    (survey (.ofBytes (some Source.defaultChunk) bytes)).result = .ok s ∧
      ofBytes bytes ⟨4⟩ = .ok schema ∧ s.lineCount = 2 ∧ schema.toList.count '\n' = 3 ∧
      schema.toList.count '\n' ≠ s.lineCount := by
  intro bytes s schema
  have hdocument : Document (.object [("a\n", .number "1")]) bytes :=
    .mk blanks_nil (written_escaped (c := '\n') (b := 0x6E) (by decide)) blanks_nil
  have hs : (survey (.ofBytes (some Source.defaultChunk) bytes)).result = .ok s :=
    (survey_eq_ok_iff (delivers_defaultChunk bytes)).2
      ⟨_, hdocument, by decide, by decide +kernel⟩
  have hschema : ofBytes bytes ⟨4⟩ = .ok schema := by
    rw [ofBytes, ofSource, hs]
    exact congrArg Except.ok (by decide +kernel)
  have hcount : schema.toList.count '\n' = 3 := by decide +kernel
  refine ⟨hs, hschema, rfl, hcount, ?_⟩
  rw [hcount]
  decide

end Schema

end JsonShape
