import JsonShape.Proofs.Value.Shape

/-!
# The tokens of values

The tokens of a value start it and end it: `Value.determined` says that they determine the value
even if other tokens follow. So a list of tokens spells one value at most
(`Value.SpelledBy.unique`). Every string among them has its text (`Value.texted`).
-/

namespace JsonShape

namespace Token

/-- What a token is includes its kind. -/
theorem kind_of_lexeme {t : Token} {kind : TokenKind} {text? : Option String}
    (h : t.lexeme = (kind, text?)) : t.kind = kind :=
  congrArg Prod.fst h

/-- What a token is includes the text of a string or a number. -/
theorem text?_of_lexeme {t : Token} {kind : TokenKind} {text : String}
    (h : t.lexeme = (kind, some text)) : t.text? = some text := by
  have := congrArg Prod.snd h
  simp only [lexeme] at this
  split at this
  · exact this
  · cases this

/-- A token that is neither a string nor a number has no text that counts. -/
theorem lexeme_of_kind {t : Token} {kind : TokenKind} (h : t.kind = kind)
    (hk : kind ≠ .string ∧ kind ≠ .number) : t.lexeme = (kind, none) := by
  rw [lexeme, h, if_neg (not_or.2 hk)]

end Token

namespace Value

/-- The first token of a value. -/
def opening : Value → Lexeme
  | null => (.word .null, none)
  | bool b => (.word (if b then .yes else .no), none)
  | number literal => (.number, some literal)
  | string text => (.string, some text)
  | array _ => (.arrayStart, none)
  | object _ => (.objectStart, none)

/-- A value starts with its first token. -/
theorem lexemes_eq_cons (v : Value) : ∃ rest, v.lexemes = v.opening :: rest := by
  cases v with
  | null | bool | number | string => exact ⟨[], by rw [lexemes, opening]⟩
  | array vs => cases vs <;> exact ⟨_, by rw [lexemes, opening]⟩
  | object ms => cases ms <;> exact ⟨_, by rw [lexemes, opening]⟩

/-- No value starts with the end of an array. -/
theorem opening_ne_arrayEnd (v : Value) : v.opening.1 ≠ .arrayEnd := by
  cases v <;> simp [opening]

/-! ## Texts -/

/-- No string among the tokens of the value lacks its text. -/
def Texted (v : Value) : Prop :=
  ∀ x ∈ v.lexemes, x ≠ (.string, none)

/-- Further elements bring no string without a text if none of them has one. -/
theorem texted_furtherElements {vs : List Value} (hv : ∀ v ∈ vs, Texted v) :
    ∀ x ∈ furtherElements vs, x ≠ (.string, none) := by
  induction vs with
  | nil => simp [furtherElements]
  | cons v vs ih =>
    rw [List.forall_mem_cons] at hv
    rw [furtherElements, List.forall_mem_cons, List.forall_mem_append]
    exact ⟨nofun, hv.1, ih hv.2⟩

/-- Further members bring no string without a text if no value of them has one. -/
theorem texted_furtherMembers {ms : List (String × Value)}
    (hv : ∀ key v, (key, v) ∈ ms → Texted v) : ∀ x ∈ furtherMembers ms, x ≠ (.string, none) := by
  induction ms with
  | nil => simp [furtherMembers]
  | cons m ms ih =>
    obtain ⟨key, v⟩ := m
    simp only [furtherMembers, List.forall_mem_cons, List.forall_mem_append]
    exact ⟨nofun, nofun, nofun, hv key v List.mem_cons_self,
      ih fun k w hw => hv k w (List.mem_cons_of_mem _ hw)⟩

/-- No string among the tokens of any value lacks its text. -/
theorem texted (v : Value) : Texted v := by
  induction v using Value.induction with
  | null | bool | number | string => simp [Texted, lexemes]
  | array vs ih =>
    cases vs with
    | nil => simp [Texted, lexemes]
    | cons v vs =>
      rw [List.forall_mem_cons] at ih
      rw [Texted, lexemes, List.forall_mem_cons, List.forall_mem_append]
      exact ⟨nofun, ih.1, texted_furtherElements ih.2⟩
  | object ms ih =>
    cases ms with
    | nil => simp [Texted, lexemes]
    | cons m ms =>
      obtain ⟨key, v⟩ := m
      simp only [Texted, lexemes, List.forall_mem_cons, List.forall_mem_append]
      exact ⟨nofun, nofun, nofun, ih key v List.mem_cons_self,
        texted_furtherMembers fun k w hw => ih k w (List.mem_cons_of_mem _ hw)⟩

/-! ## Unambiguity -/

/-- The tokens of a value determine it, whatever follows them. -/
def Determined (v : Value) : Prop :=
  ∀ (w : Value) (rest rest' : List Lexeme), v.lexemes ++ rest = w.lexemes ++ rest' →
    v = w ∧ rest = rest'

/-- The tokens of further elements determine them. -/
theorem furtherElements_inj {vs ws : List Value} {rest rest' : List Lexeme}
    (hv : ∀ v ∈ vs, Determined v)
    (h : furtherElements vs ++ rest = furtherElements ws ++ rest') : vs = ws ∧ rest = rest' := by
  induction vs generalizing ws with
  | nil =>
    cases ws with
    | nil => simpa [furtherElements] using h
    | cons w ws => simp [furtherElements] at h
  | cons v vs ih =>
    rw [List.forall_mem_cons] at hv
    cases ws with
    | nil => simp [furtherElements] at h
    | cons w ws =>
      simp only [furtherElements, List.cons_append, List.append_assoc, List.cons.injEq,
        true_and] at h
      obtain ⟨hw, hrest⟩ := hv.1 w _ _ h
      obtain ⟨hws, hend⟩ := ih hv.2 hrest
      exact ⟨by rw [hw, hws], hend⟩

/-- The tokens of further members determine them. -/
theorem furtherMembers_inj {ms ns : List (String × Value)} {rest rest' : List Lexeme}
    (hv : ∀ key v, (key, v) ∈ ms → Determined v)
    (h : furtherMembers ms ++ rest = furtherMembers ns ++ rest') : ms = ns ∧ rest = rest' := by
  induction ms generalizing ns with
  | nil =>
    cases ns with
    | nil => simpa [furtherMembers] using h
    | cons n ns => simp [furtherMembers] at h
  | cons m ms ih =>
    obtain ⟨key, v⟩ := m
    cases ns with
    | nil => simp [furtherMembers] at h
    | cons n ns =>
      obtain ⟨key', w⟩ := n
      simp only [furtherMembers, List.cons_append, List.append_assoc, List.cons.injEq,
        Prod.mk.injEq, Option.some.injEq, true_and] at h
      obtain ⟨hkey, hvalue⟩ := h
      obtain ⟨hw, hrest⟩ := hv key v List.mem_cons_self w _ _ hvalue
      obtain ⟨hns, hend⟩ := ih (fun k u hu => hv k u (List.mem_cons_of_mem _ hu)) hrest
      exact ⟨by rw [hkey, hw, hns], hend⟩

/-- Values that start one list of tokens start with the same one. -/
theorem opening_eq_of_append_eq {v w : Value} {rest rest' : List Lexeme}
    (h : v.lexemes ++ rest = w.lexemes ++ rest') : v.opening = w.opening := by
  obtain ⟨tail, hv⟩ := lexemes_eq_cons v
  obtain ⟨tail', hw⟩ := lexemes_eq_cons w
  rw [hv, hw] at h
  exact (List.cons.inj h).1

/-- An array without elements is not spelled as one that has some. -/
theorem lexemes_array_nil_ne (v : Value) (vs : List Value) (rest rest' : List Lexeme) :
    (array []).lexemes ++ rest ≠ (array (v :: vs)).lexemes ++ rest' := by
  intro h
  obtain ⟨tail, hv⟩ := lexemes_eq_cons v
  rw [lexemes, lexemes, hv] at h
  simp only [List.cons_append, List.cons.injEq, true_and] at h
  exact opening_ne_arrayEnd v (congrArg Prod.fst h.1.symm)

/-- An array is determined if its elements are. -/
theorem array_determined {vs : List Value} (hv : ∀ v ∈ vs, Determined v) :
    Determined (array vs) := by
  intro w rest rest' h
  have hopen := opening_eq_of_append_eq h
  cases w with
  | array ws =>
    match vs, ws with
    | [], [] => simpa [lexemes] using h
    | [], w :: ws => exact absurd h (lexemes_array_nil_ne w ws rest rest')
    | v :: vs, [] => exact absurd h.symm (lexemes_array_nil_ne v vs rest' rest)
    | v :: vs, w :: ws =>
      rw [List.forall_mem_cons] at hv
      simp only [lexemes, List.cons_append, List.append_assoc, List.cons.injEq, true_and] at h
      obtain ⟨hw, hrest⟩ := hv.1 w _ _ h
      obtain ⟨hws, hend⟩ := furtherElements_inj hv.2 hrest
      exact ⟨by rw [hw, hws], hend⟩
  | bool b => cases b <;> simp [opening] at hopen
  | _ => simp [opening] at hopen

/-- An object is determined if the values of its members are. -/
theorem object_determined {ms : List (String × Value)}
    (hv : ∀ key v, (key, v) ∈ ms → Determined v) : Determined (object ms) := by
  intro w rest rest' h
  have hopen := opening_eq_of_append_eq h
  cases w with
  | object ns =>
    match ms, ns with
    | [], [] => simpa [lexemes] using h
    | [], n :: ns => simp [lexemes] at h
    | m :: ms, [] => simp [lexemes] at h
    | (key, v) :: ms, (key', w) :: ns =>
      simp only [lexemes, List.cons_append, List.append_assoc, List.cons.injEq, Prod.mk.injEq,
        Option.some.injEq, true_and] at h
      obtain ⟨hkey, hvalue⟩ := h
      obtain ⟨hw, hrest⟩ := hv key v List.mem_cons_self w _ _ hvalue
      obtain ⟨hns, hend⟩ :=
        furtherMembers_inj (fun k u hu => hv k u (List.mem_cons_of_mem _ hu)) hrest
      exact ⟨by rw [hkey, hw, hns], hend⟩
  | bool b => cases b <;> simp [opening] at hopen
  | _ => simp [opening] at hopen

/-- The tokens of a value determine it: the first one tells what it is, and the others what is in
it. -/
theorem determined (v : Value) : Determined v := by
  induction v using induction with
  | null | number | string =>
    intro w rest rest' h
    have hopen := opening_eq_of_append_eq h
    cases w with
    | bool b => cases b <;> simp [opening] at hopen
    | _ => simp_all [opening, lexemes]
  | bool b =>
    intro w rest rest' h
    have hopen := opening_eq_of_append_eq h
    cases w with
    | bool b' => cases b <;> cases b' <;> simp_all [opening, lexemes]
    | _ => cases b <;> simp [opening] at hopen
  | array vs ih => exact array_determined ih
  | object ms ih => exact object_determined ih

/-- At least one token spells a value. -/
theorem SpelledBy.length_pos {v : Value} {ts : List Token} (h : v.SpelledBy ts) :
    0 < ts.length := by
  obtain ⟨tail, hv⟩ := v.lexemes_eq_cons
  obtain ⟨t, us, rfl, -⟩ := List.map_eq_cons_iff.1 (h.trans hv)
  exact Nat.succ_pos _

/-- Tokens spell one value at most. -/
theorem SpelledBy.unique {v w : Value} {ts : List Token} (hv : v.SpelledBy ts)
    (hw : w.SpelledBy ts) : v = w :=
  (determined v w [] [] (by rw [← hv, ← hw])).1

end Value

end JsonShape
