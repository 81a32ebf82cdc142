import JsonShape.Inference.Basic
import JsonShape.Shape.Render

/-!
# Schemas

A sample in, its schema out: `Schema.ofSource` reads one JSON text from a source, infers its shape
and renders it. `Schema.survey` is the first half, with what there is to tell about the reading:
the keys that stood in their object again, and the number of bytes read.
-/

namespace JsonShape.Schema

/-- What reading one JSON text gives. -/
structure Survey where
  /-- The shape of the text. -/
  result : Except Failure Shape
  /-- The keys that were found to stand in their object again, in order. -/
  repeated : List String
  /-- The number of bytes read. -/
  bytesRead : Nat

/-- Reads one JSON text. -/
def survey (source : Source) : Survey :=
  let (result, i) := Inference.ofDocument (.lexer (.ofSource source))
  { result, repeated := i.repeated.reverse, bytesRead := i.cursor.source.offset?.getD 0 }

/-- The schema of the JSON text in a source. -/
def ofSource (source : Source) (layout : Layout) : Except Failure String :=
  (survey source).result.map (·.render layout)

/-- The schema of a JSON text that is at hand as bytes. -/
def ofBytes (bytes : List UInt8) (layout : Layout) : Except Failure String :=
  ofSource (.ofBytes (some Source.defaultChunk) bytes) layout

/-- The schema of a JSON text that is at hand as a text. -/
def ofText (text : Text) (layout : Layout) : Except Failure String :=
  ofBytes (Utf8.encode text) layout

/-- The layout with a given number of spaces for each level. -/
def layout (indent : Int) : Except Failure Layout :=
  match Layout.ofIndent? indent with
  | some layout => .ok layout
  | none => .error (.negativeIndent indent)

end JsonShape.Schema
