import JsonShape.Value.Basic

/-!
# Values of a shape

`Value.Conforms v s` says that the shape admits the value. Bottom admits nothing and top everything
but null; an optional shape admits null besides what its inner shape admits. A record admits the
objects that have no other keys than it has, values that its fields admit, also where a key occurs
again, and all keys but those that are optional.
-/

namespace JsonShape

/-- A shape admits a value. -/
inductive Value.Conforms : Value → Shape → Prop where
  | top {v : Value} (h : v ≠ .null) : Conforms v .top
  | bool (b : Bool) : Conforms (.bool b) .bool
  | str (text : String) : Conforms (.string text) .str
  | int {literal : String}
      (h : '.' ∉ literal.toList ∧ 'e' ∉ literal.toList ∧ 'E' ∉ literal.toList) :
      Conforms (.number literal) .int
  | float (literal : String) : Conforms (.number literal) .float
  | null (s : Shape) : Conforms .null (.optional s)
  | optional {v : Value} {s : Shape} (h : Conforms v s) : Conforms v (.optional s)
  | list {vs : List Value} {s : Shape} (h : ∀ v ∈ vs, Conforms v s) :
      Conforms (.array vs) (.list s)
  | record {ms : List (String × Value)} {f : Fields}
      (known : ∀ m ∈ ms, m.1 ∈ f.keys)
      (admitted : ∀ key v s, (key, v) ∈ ms → (key, s) ∈ f → Conforms v s)
      (absent : ∀ key s, (key, s) ∈ f → key ∉ ms.map (·.1) → s.isOptional = true) :
      Conforms (.object ms) (.record f)

end JsonShape
