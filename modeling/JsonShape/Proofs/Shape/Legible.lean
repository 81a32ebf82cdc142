import JsonShape.Proofs.Shape.Text
import JsonShape.Shape.JoinByRules

/-!
# Reading a schema

A schema determines its shape, even though keys are written as they are and may look like anything
else in it, as long as none breaks its line (`Shape.eq_of_render_eq`). Two facts carry this. A shape
is a scalar or a record with marks behind it, and both tell where they end (`Shape.markedInduction`,
`Shape.marks_determined`). And the only colons of a schema are those behind keys and those inside
keys: no schema has one on its first line (`Shape.colonFree_text`), nor has a closing brace, so the
last colon of a line is the one behind its key (`Shape.key_determined`).
-/

namespace JsonShape.Shape

/-! ## Marks behind a shape -/

/-- What may be written behind the schema of a shape. -/
inductive Mark where
  | optional
  | list

/-- The characters of a mark. -/
def Mark.chars : Mark → List Char
  | optional => ['?']
  | list => ['[', ']']

/-- The shape with a mark behind it. -/
def Mark.put : Mark → Shape → Shape
  | optional, s => .optional s
  | list, s => .list s

/-- The shape with marks behind it, one by one. -/
def marked (s : Shape) (ms : List Mark) : Shape :=
  ms.foldl (fun s m => m.put s) s

/-- Marks are written behind the schema of the shape. -/
theorem text_marked_append (indent level : Nat) (s : Shape) (ms : List Mark) (rest : List Char) :
    ((s.marked ms).text indent level).toList ++ rest =
      (s.text indent level).toList ++ (ms.flatMap Mark.chars ++ rest) := by
  induction ms generalizing s with
  | nil => rfl
  | cons m ms ih =>
    have hput : ((m.put s).text indent level).toList =
        (s.text indent level).toList ++ m.chars := by
      cases m <;> simp [Mark.put, Mark.chars, text]
    rw [marked, List.foldl_cons, ← marked, ih, hput, List.flatMap_cons, List.append_assoc,
      List.append_assoc]

/-- Marks have no keys. -/
theorem allKeys_marked (s : Shape) (ms : List Mark) : (s.marked ms).allKeys = s.allKeys := by
  induction ms generalizing s with
  | nil => rfl
  | cons m ms ih =>
    have hput : (m.put s).allKeys = s.allKeys := by
      cases m <;> rfl
    rw [marked, List.foldl_cons, ← marked, ih, hput]

/-- Induction over shapes with marks behind them: of a record the fields are known. -/
theorem markedInduction {motive : Shape → Prop}
    (scalar : ∀ (s : Shape) (ms : List Mark), s.isScalar = true → motive (s.marked ms))
    (record : ∀ (f : List (String × Shape)) (ms : List Mark), (∀ p ∈ f, motive p.2) →
      motive ((record f).marked ms)) : (s : Shape) → (ms : List Mark) → motive (s.marked ms)
  | .optional s, ms => markedInduction scalar record s (.optional :: ms)
  | .list s, ms => markedInduction scalar record s (.list :: ms)
  | .record f, ms => record f ms fun (key, s) hs => by
    have := sizeOf_lt_of_mem hs
    exact markedInduction scalar record s []
  | .bottom, ms | .top, ms | .bool, ms | .str, ms | .int, ms | .float, ms => scalar _ ms rfl
termination_by s => sizeOf s

/-- Every shape is a scalar or a record with marks behind it. -/
theorem exists_marked (s : Shape) : ∃ (core : Shape) (ms : List Mark),
    s = core.marked ms ∧ (core.isScalar = true ∨ ∃ f, core = record f) :=
  markedInduction (motive := fun s => ∃ core ms, s = marked core ms ∧
      (core.isScalar = true ∨ ∃ f, core = .record f))
    (fun s ms h => ⟨s, ms, rfl, .inl h⟩) (fun f ms _ => ⟨_, ms, rfl, .inr ⟨f, rfl⟩⟩) s []

/-! ## Lines without a colon -/

/-- No colon stands on the first line. -/
def ColonFree (cs : List Char) : Prop :=
  ∀ left right, cs = left ++ ':' :: right → '\n' ∈ left

/-- There is none on an empty line. -/
theorem colonFree_nil : ColonFree [] := by
  intro left right h
  simp at h

/-- Nothing behind the end of the line is on it. -/
theorem colonFree_lineFeed (cs : List Char) : ColonFree ('\n' :: cs) := by
  intro left right h
  cases left with
  | nil => cases h
  | cons c left =>
    cases h
    exact List.mem_cons_self

/-- Other characters make no difference. -/
theorem ColonFree.append {cs : List Char} (h : ColonFree cs) (xs : List Char) (hx : ':' ∉ xs) :
    ColonFree (xs ++ cs) := by
  induction xs with
  | nil => exact h
  | cons x xs ih =>
    rw [List.mem_cons, not_or] at hx
    intro left right e
    cases left with
    | nil =>
      cases e
      exact absurd rfl hx.1
    | cons c left =>
      obtain ⟨-, e⟩ := List.cons.inj e
      exact List.mem_cons_of_mem c (ih hx.2 left right e)

/-- A key cannot go on with a colon and have one more behind it, where none follows the first one on
its line. -/
theorem eq_nil_of_colonFree {left right cs cs' : List Char} (hkey : '\n' ∉ left ++ right)
    (hcs : ColonFree cs) (h : ':' :: cs = right ++ ':' :: cs') : right = [] := by
  cases right with
  | nil => rfl
  | cons c right =>
    cases h
    have hfeed := hcs right cs' rfl
    exact absurd (List.mem_append_right left (List.mem_cons_of_mem _ hfeed)) hkey

/-- Where the colons that are not in keys stand, the key is what is in front of the last one. -/
theorem key_determined {key key' : List Char} {cs cs' : List Char} (hkey : '\n' ∉ key)
    (hkey' : '\n' ∉ key') (hcs : ColonFree cs) (hcs' : ColonFree cs')
    (h : key ++ ':' :: cs = key' ++ ':' :: cs') : key = key' ∧ cs = cs' := by
  -- Otherwise one key would go on with the colon behind the other.
  rcases List.append_eq_append_iff.1 h with ⟨right, rfl, e⟩ | ⟨right, rfl, e⟩
  · obtain rfl := eq_nil_of_colonFree hkey' hcs e
    exact ⟨(List.append_nil key).symm, (List.cons.inj e).2⟩
  · obtain rfl := eq_nil_of_colonFree hkey hcs' e
    exact ⟨List.append_nil key', (List.cons.inj e).2.symm⟩

/-! ## What a schema starts with -/

/-- What may stand behind a schema: nothing, or the end of a line of a record. -/
def Ends (rest : List Char) : Prop :=
  rest = [] ∨ ∃ more, rest = ',' :: '\n' :: more

/-- The end of a line has no colon. -/
theorem Ends.colonFree {rest : List Char} (h : Ends rest) : ColonFree rest := by
  rcases h with rfl | ⟨more, rfl⟩
  · exact colonFree_nil
  · exact (colonFree_lineFeed more).append [','] (by decide)

/-- Marks have no colon. -/
theorem colonFree_marks {rest : List Char} (h : ColonFree rest) (ms : List Mark) :
    ColonFree (ms.flatMap Mark.chars ++ rest) := by
  refine h.append _ ?_
  simp only [List.mem_flatMap, not_exists, not_and]
  intro m _
  cases m <;> decide

/-- The marks of a shape, and what comes behind them, are told by the characters. -/
theorem marks_determined {ms ns : List Mark} {rest rest' : List Char} (hrest : Ends rest)
    (hrest' : Ends rest') (h : ms.flatMap Mark.chars ++ rest = ns.flatMap Mark.chars ++ rest') :
    ms = ns ∧ rest = rest' := by
  induction ms generalizing ns with
  | nil =>
    cases ns with
    | nil => exact ⟨rfl, h⟩
    | cons n ns => rcases hrest with rfl | ⟨more, rfl⟩ <;> cases n <;> cases h
  | cons m ms ih =>
    cases ns with
    | nil => rcases hrest' with rfl | ⟨more, rfl⟩ <;> cases m <;> cases h
    | cons n ns =>
      simp only [List.flatMap_cons, List.append_assoc] at h
      have hfirst : m = n ∧
          ms.flatMap Mark.chars ++ rest = ns.flatMap Mark.chars ++ rest' := by
        cases m <;> cases n <;> simp_all [Mark.chars]
      obtain ⟨rfl, hothers⟩ := hfirst
      obtain ⟨rfl, hends⟩ := ih hothers
      exact ⟨rfl, hends⟩

/-- Scalars have different names, none of which starts another one. -/
theorem scalar_determined {indent level : Nat} {s t : Shape} {rest rest' : List Char}
    (hs : s.isScalar = true) (ht : t.isScalar = true)
    (h : (s.text indent level).toList ++ rest = (t.text indent level).toList ++ rest') :
    s = t ∧ rest = rest' := by
  cases s <;> cases hs <;> cases t <;> cases ht <;> simp_all [text]

/-- A record is written from its opening to its closing brace. -/
theorem text_record_append (indent level : Nat) (f : List (String × Shape)) (rest : List Char) :
    ((record f).text indent level).toList ++ rest = '{' :: '\n' ::
      ((fieldsText indent (level + indent) f).toList ++
        (List.replicate level ' ' ++ '}' :: rest)) := by
  simp [text]

/-- The line of a field comes in front of those of the others. -/
theorem fieldsText_cons_append (indent level : Nat) (key : String) (s : Shape)
    (f : List (String × Shape)) (rest : List Char) :
    (fieldsText indent level ((key, s) :: f)).toList ++ rest = List.replicate level ' ' ++
      (key.toList ++ ':' :: ' ' :: ((s.text indent level).toList ++
        ',' :: '\n' :: ((fieldsText indent level f).toList ++ rest))) := by
  simp [fieldsText]

/-- No scalar is written with a colon. -/
theorem colon_not_mem_text {s : Shape} (h : s.isScalar = true) (indent level : Nat) :
    ':' ∉ (s.text indent level).toList := by
  cases s <;> cases h <;> simp [text]

/-- No scalar is written like a record. -/
theorem text_append_ne {indent level : Nat} {s : Shape} (h : s.isScalar = true)
    (rest more : List Char) : (s.text indent level).toList ++ rest ≠ '{' :: more := by
  cases s <;> cases h <;> simp [text]

/-- The first line of a schema has no colon. -/
theorem colonFree_text (indent level : Nat) (s : Shape) {rest : List Char} (h : ColonFree rest) :
    ColonFree ((s.text indent level).toList ++ rest) := by
  obtain ⟨core, ms, rfl, hcore | ⟨f, rfl⟩⟩ := exists_marked s
  · rw [text_marked_append]
    exact (colonFree_marks h ms).append _ (colon_not_mem_text hcore indent level)
  · rw [text_marked_append, text_record_append]
    exact (colonFree_lineFeed _).append ['{'] (by decide)

/-- Behind the colon of a field, the rest of the line has none. -/
theorem colonFree_value (indent level : Nat) (s : Shape) (more : List Char) :
    ColonFree (' ' :: ((s.text indent level).toList ++ ',' :: '\n' :: more)) := by
  have hend : Ends (',' :: '\n' :: more) := .inr ⟨more, rfl⟩
  exact (colonFree_text indent level s hend.colonFree).append [' '] (by decide)

/-- The line of a closing brace has no colon. -/
theorem colonFree_closing (level : Nat) (ms : List Mark) {rest : List Char} (h : ColonFree rest) :
    ColonFree (List.replicate level ' ' ++ '}' :: (ms.flatMap Mark.chars ++ rest)) := by
  have hbrace := (colonFree_marks h ms).append ['}'] (by decide)
  exact hbrace.append (List.replicate level ' ') (by simp)

/-! ## Shapes from schemas -/

/-- A schema tells its shape, and where it ends. -/
def Determined (indent : Nat) (s : Shape) : Prop :=
  ∀ (t : Shape) (level : Nat) (rest rest' : List Char), s.Unbroken → t.Unbroken → Ends rest →
    Ends rest' → (s.text indent level).toList ++ rest = (t.text indent level).toList ++ rest' →
      s = t ∧ rest = rest'

/-- The keys of a record are those of its fields and of the values in them. -/
theorem unbroken_cons {key : String} {s : Shape} {f : List (String × Shape)} :
    (record ((key, s) :: f)).Unbroken ↔
      '\n' ∉ key.toList ∧ s.Unbroken ∧ (record f).Unbroken := by
  simp only [Unbroken, allKeys, fieldsAllKeys, List.forall_mem_cons, List.forall_mem_append]

/-- The key of a field has a colon behind it. -/
theorem not_colonFree_fieldsText (indent level : Nat) {key : String} (hkey : '\n' ∉ key.toList)
    (s : Shape) (f : List (String × Shape)) (rest : List Char) :
    ¬ColonFree ((fieldsText indent level ((key, s) :: f)).toList ++ rest) := by
  rw [fieldsText_cons_append, ← List.append_assoc]
  intro h
  have hline := h _ _ rfl
  rw [List.mem_append, List.mem_replicate] at hline
  rcases hline with ⟨-, hspace⟩ | hline
  · cases hspace
  · exact hkey hline

/-- The lines of fields tell the fields, and where they end. -/
theorem fields_determined {indent level : Nat} {f g : List (String × Shape)}
    {rest rest' : List Char} (ih : ∀ p ∈ f, Determined indent p.2) (hf : (record f).Unbroken)
    (hg : (record g).Unbroken) (hrest : ColonFree rest) (hrest' : ColonFree rest')
    (h : (fieldsText indent level f).toList ++ rest =
      (fieldsText indent level g).toList ++ rest') : f = g ∧ rest = rest' := by
  induction f generalizing g with
  | nil =>
    cases g with
    | nil => exact ⟨rfl, h⟩
    | cons q g =>
      have hkey := (unbroken_cons.1 hg).1
      exact absurd (h ▸ hrest) (not_colonFree_fieldsText indent level hkey q.2 g rest')
  | cons p f ihf =>
    obtain ⟨key, s⟩ := p
    obtain ⟨hkey, hs, hfs⟩ := unbroken_cons.1 hf
    cases g with
    | nil => exact absurd (h ▸ hrest') (not_colonFree_fieldsText indent level hkey s f rest)
    | cons q g =>
      obtain ⟨key', t⟩ := q
      obtain ⟨hkey', ht, hgs⟩ := unbroken_cons.1 hg
      obtain ⟨ihs, ihfs⟩ := List.forall_mem_cons.1 ih
      rw [fieldsText_cons_append, fieldsText_cons_append] at h
      obtain ⟨hkeys, hvalues⟩ := key_determined hkey hkey' (colonFree_value indent level s _)
        (colonFree_value indent level t _) (List.append_cancel_left h)
      obtain ⟨rfl, hmore⟩ := ihs t level _ _ hs ht (.inr ⟨_, rfl⟩) (.inr ⟨_, rfl⟩)
        (List.cons.inj hvalues).2
      have hothers := (List.cons.inj (List.cons.inj hmore).2).2
      obtain ⟨rfl, hrests⟩ := ihf ihfs hfs hgs hothers
      obtain rfl := String.toList_inj.1 hkeys
      exact ⟨rfl, hrests⟩

/-- Every schema tells its shape. -/
theorem determined (indent : Nat) (s : Shape) : Determined indent s := by
  refine markedInduction ?scalar ?record s []
  case scalar =>
    intro s ms hs u level rest rest' _ _ hrest hrest' h
    obtain ⟨t, ns, rfl, ht | ⟨g, rfl⟩⟩ := exists_marked u
    · rw [text_marked_append, text_marked_append] at h
      obtain ⟨rfl, hmarks⟩ := scalar_determined hs ht h
      obtain ⟨rfl, hends⟩ := marks_determined hrest hrest' hmarks
      exact ⟨rfl, hends⟩
    · rw [text_marked_append, text_marked_append, text_record_append] at h
      exact absurd h (text_append_ne hs _ _)
  case record =>
    intro f ms ih u level rest rest' hf hu hrest hrest' h
    obtain ⟨t, ns, rfl, ht | ⟨g, rfl⟩⟩ := exists_marked u
    · rw [text_marked_append, text_marked_append, text_record_append] at h
      exact absurd h.symm (text_append_ne ht _ _)
    · rw [Unbroken, allKeys_marked] at hf hu
      rw [text_marked_append, text_marked_append, text_record_append, text_record_append] at h
      obtain ⟨rfl, htail⟩ := fields_determined ih hf hu (colonFree_closing level ms hrest.colonFree)
        (colonFree_closing level ns hrest'.colonFree) (List.cons.inj (List.cons.inj h).2).2
      obtain ⟨-, hmarks⟩ := List.cons.inj (List.append_cancel_left htail)
      obtain ⟨rfl, hends⟩ := marks_determined hrest hrest' hmarks
      exact ⟨rfl, hends⟩

/-- Shapes with the same schema are the same, whatever is in their keys but for line feeds. -/
theorem eq_of_render_eq {layout : Layout} {s t : Shape} (hs : s.Unbroken) (ht : t.Unbroken)
    (h : s.render layout = t.render layout) : s = t := by
  have hchars : (s.text layout.indent 0).toList ++ [] = (t.text layout.indent 0).toList ++ [] := by
    rw [← write_singleton, ← write_singleton, ← render, h, render]
  exact (determined layout.indent s t 0 [] [] hs ht (.inl rfl) (.inl rfl) hchars).1

/-- Keys that look like fields, like a closing brace or like nothing, and one that comes twice. The
second shape is the join of two others. -/
theorem eq_of_render_eq_raw_keys :
    let s := record [("a: \x7b", optional int), ("\x7d,", record [("", str), ("", bool)])]
    let t := (record [("a: \x7b", int), ("\x7d,", record [("", str), ("", bool)])]).join
      (record [("\x7d,", record [("", str), ("", bool)])])
    s.Unbroken ∧ t.Unbroken ∧ s.render ⟨0⟩ = t.render ⟨0⟩ ∧ s = t := by
  intro s t
  have hs : s.Unbroken := by decide +kernel
  have ht : t.Unbroken := by decide +kernel
  have h : s.render ⟨0⟩ = t.render ⟨0⟩ := by decide +kernel
  exact ⟨hs, ht, h, eq_of_render_eq hs ht h⟩

/-- A key with a line feed in it may look like two fields. -/
example : (record [("a: int,\nb", int)]).render ⟨0⟩ =
    (record [("a", int), ("b", int)]).render ⟨0⟩ := by
  decide +kernel

end JsonShape.Shape
