import JsonShape.Shape.Render
import JsonShape.Shape.Text

/-!
# What rendering writes

Rendering works through a list of pieces, texts and shapes mixed, and puts new pieces in front of
it. What all pending pieces come to, `Pending.textOfAll`, stays the same when a shape is taken apart
into pieces: so each step of the writing appends what it takes off the list, and the whole appends
what the list comes to (`Shape.write_eq_append`). A schema therefore is the text of its shape
(`Shape.render_eq_text`).
-/

namespace JsonShape.Shape

/-- The text that a piece comes to. -/
def Pending.textOf (indent : Nat) : Pending → String
  | text t => t
  | shape s level => s.text indent level

/-- The text that some pieces come to, one behind the other. -/
def Pending.textOfAll (indent : Nat) : List Pending → String
  | [] => ""
  | p :: pending => p.textOf indent ++ textOfAll indent pending

/-- A run of spaces is what stands in front of a line. -/
theorem spaces_eq_margin (level : Nat) : spaces level = margin level := by
  rw [← String.toList_inj, toList_margin, spaces, String.toList_ofList]

/-- The pieces of a record's fields come to the lines of these fields. -/
theorem textOfAll_fieldLines (indent child : Nat) (f : List (String × Shape))
    (rest : List Pending) :
    Pending.textOfAll indent (fieldLines child f rest) =
      fieldsText indent child f ++ Pending.textOfAll indent rest := by
  induction f with
  | nil =>
    rw [fieldLines, fieldsText, String.empty_append]
  | cons p f ih =>
    obtain ⟨key, s⟩ := p
    simp only [fieldLines, Pending.textOfAll, Pending.textOf, fieldsText, spaces_eq_margin, ih,
      String.append_assoc]

/-- Writing appends the text that the pending pieces come to. -/
theorem write_eq_append (layout : Layout) (pending : List Pending) (written : String) :
    write layout pending written = written ++ Pending.textOfAll layout.indent pending := by
  fun_induction write layout pending written with
  | case1 written => rw [Pending.textOfAll, String.append_empty]
  | case2 t rest written ih =>
    rw [ih, Pending.textOfAll, Pending.textOf, String.append_assoc]
  | case3 level rest written s ih =>
    simp only [ih, Pending.textOfAll, Pending.textOf, text, String.append_assoc]
  | case4 level rest written s ih =>
    simp only [ih, Pending.textOfAll, Pending.textOf, text, String.append_assoc]
  | case5 level rest written f ih =>
    rw [ih]
    simp only [Pending.textOfAll, Pending.textOf, text, textOfAll_fieldLines, spaces_eq_margin,
      String.append_assoc]
  | case6 s level rest written hoptional hlist hrecord ih =>
    have htext : s.text layout.indent level = s.scalarName := by
      cases s with
      | optional s => exact absurd rfl (hoptional s)
      | list s => exact absurd rfl (hlist s)
      | record f => exact absurd rfl (hrecord f)
      | _ => rfl
    rw [ih, Pending.textOfAll, Pending.textOf, htext, String.append_assoc]

/-- Writing a shape on its own gives its text. -/
theorem write_singleton (layout : Layout) (s : Shape) (level : Nat) :
    write layout [.shape s level] "" = s.text layout.indent level := by
  rw [write_eq_append, Pending.textOfAll, Pending.textOfAll, Pending.textOf, String.empty_append,
    String.append_empty]

/-- The schema of a shape is its text, at any depth and for every layout. -/
theorem render_eq_text (layout : Layout) (s : Shape) :
    s.render layout = s.text layout.indent 0 := by
  rw [render, write_singleton]

end JsonShape.Shape
