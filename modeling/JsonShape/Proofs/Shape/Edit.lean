import JsonShape.Proofs.Shape.Join
import JsonShape.Shape.Checked

/-!
# Optional shapes under edits

A shape that is built up by edits has no optional shape that is the inner shape of another, at any
depth, after any of them (`Shape.constructible_history`). The check for such shapes is never failed
inside a join, wherever in it an optional shape comes into being (`Shape.join?_eq_some`), so that
the only edit to be refused is the one that marks an optional shape once more.
-/

namespace JsonShape.Shape

/-! ## The check -/

/-- Marking a shape does not fail the check. -/
theorem makeOptional?_eq_some (a : Shape) : a.makeOptional? = some a.makeOptional := by
  cases a <;> rfl

/-- The check fails exactly for a shape that is optional. -/
theorem optional?_eq_none_iff {a : Shape} : a.optional? = none ↔ a.isOptional = true := by
  unfold optional?
  cases a.isOptional <;> simp

/-- If no pair of partners fails the check when it is joined, no pair of fields does. -/
theorem join?_record {f g : Fields}
    (h : ∀ key x y, (key, Pairing.both x y) ∈ Alignment.align f g → join? x y = some (x.join y)) :
    join? (record f) (record g) = some (record (joinFields f g)) := by
  rw [join?.eq_def]
  split
  · next hfg =>
    cases hfg
    rw [← join_record, join_self]
  · dsimp only
    rw [joinFields_eq_map_align, ← List.attach_map_val]
    refine congrArg (Option.map record)
      (Eq.trans (congrArg (List.mapM · _) (funext fun p => ?_)) List.mapM_pure)
    obtain ⟨⟨key, x | x⟩, hp⟩ := p
    · exact congrArg (Option.map (Prod.mk key)) (h key _ _ hp)
    · exact congrArg (Option.map (Prod.mk key)) (makeOptional?_eq_some _)

/-- No optional shape that comes into being in a join fails the check. -/
theorem join?_eq_some (a b : Shape) : join? a b = some (a.join b) := by
  induction a, b using join_rule_induction with
  | same a => rw [join?.eq_def, if_pos rfl, join_self]
  | bottomLeft b =>
    rw [join?.eq_def, join_bottom_left]
    split
    · next h => rw [h]
    · rfl
  | bottomRight a =>
    rw [join?.eq_def, join_bottom_right]
    split
    · rfl
    · cases a <;> rfl
  | widenRight => rw [join?.eq_def, join_int_float]; rfl
  | widenLeft => rw [join?.eq_def, join_float_int]; rfl
  | optionalLeft a b hne hbottom ih =>
    rw [join_optional_left_of_ne hne hbottom, ← makeOptional?_eq_some, join?.eq_def, if_neg hne]
    cases b with
    | bottom => exact absurd rfl hbottom
    | _ => exact congrArg (Option.bind · makeOptional?) ih
  | optionalRight a b hbottom ho ih =>
    rw [join_optional_right_of_ne hbottom ho, ← makeOptional?_eq_some, join?.eq_def,
      if_neg fun e => by rw [e] at ho; cases ho]
    cases a with
    | bottom => exact absurd rfl hbottom
    | optional => cases ho
    | _ => exact congrArg (Option.bind · makeOptional?) ih
  | list a b ih =>
    rw [join_list, join?.eq_def]
    split
    · next h =>
      cases h
      rw [join_self]
    · exact congrArg (Option.map Shape.list) ih
  | record f g ih => rw [join_record, join?_record ih]
  | clash a b hab hc =>
    rw [join_eq_top hab hc, join?.eq_def, if_neg hab]
    cases a <;> cases b <;> first | rfl | cases hc

/-! ## Edits -/

/-- An edit fails the check only where it is refused without one. -/
theorem Edit.build?_eq_perform? (e : Edit) (current : Shape) :
    e.build? current = e.perform? current := by
  cases e with
  | join s => exact join?_eq_some current s
  | joinLeft s => exact join?_eq_some s current
  | makeOptional => exact makeOptional?_eq_some current
  | _ => rfl

/-- The one edit to be refused marks an optional shape once more. -/
theorem Edit.build?_eq_none_iff {e : Edit} {current : Shape} :
    e.build? current = none ↔ e = .optional ∧ current.isOptional = true := by
  rw [build?_eq_perform?]
  cases e with
  | optional => simp [perform?, optional?_eq_none_iff]
  | _ => simp [perform?]

/-- An edit leaves a shape constructible. -/
theorem Edit.Constructible.perform {e : Edit} {current : Shape} (he : e.Constructible)
    (hc : current.Constructible) : (e.perform current).Constructible := by
  cases e with
  | set s => exact he
  | join s => exact hc.join he
  | joinLeft s => exact he.join hc
  | makeOptional => exact hc.makeOptional
  | stripOptional => exact hc.stripOptional
  | optional =>
    rw [Edit.perform, perform?]
    cases h : current.optional? with
    | none => exact hc
    | some next =>
      obtain ⟨ho, rfl⟩ := optional?_eq_some_iff.1 h
      exact ⟨ho, hc⟩
  | list => exact hc
  | record key => exact ⟨hc, trivial⟩

/-! ## Histories -/

/-- All edits together leave every shape on the way constructible. -/
theorem constructible_of_mem_history {current : Shape} {edits : List Edit}
    (hc : current.Constructible) (h : ∀ e ∈ edits, e.Constructible) :
    ∀ s ∈ current :: history current edits, s.Constructible := by
  induction edits generalizing current with
  | nil => exact List.forall_mem_singleton.2 hc
  | cons e edits ih =>
    obtain ⟨he, hedits⟩ := List.forall_mem_cons.1 h
    exact List.forall_mem_cons.2 ⟨hc, ih (he.perform hc) hedits⟩

/-- An edit is made of the shape that the edits in front of it have come to. -/
theorem getElem?_history {current s : Shape} {edits : List Edit} {e : Edit} {i : Nat}
    (he : edits[i]? = some e) (hs : (current :: history current edits)[i]? = some s) :
    (history current edits)[i]? = some (e.perform s) := by
  induction edits generalizing current i with
  | nil => cases he
  | cons e' edits ih =>
    cases i with
    | zero =>
      cases he
      cases hs
      rfl
    | succ i => exact ih he hs

/-- Whatever the edits are, none of the shapes that they come to has an optional shape inside the
mark of another, at any depth. No edit fails the check while it builds its shape, but for the one
that marks an optional shape once more, and that one leaves the shape as it is. A join on either
side is optional exactly if one of the joined shapes is. -/
theorem constructible_history (edits : List Edit) (h : ∀ e ∈ edits, e.Constructible) :
    (∀ s ∈ history bottom edits, s.Constructible) ∧
      ∀ (i : Nat) (e : Edit) (current : Shape), edits[i]? = some e →
        (bottom :: history bottom edits)[i]? = some current →
        (e.build? current = none ↔ e = .optional ∧ current.isOptional = true) ∧
          (history bottom edits)[i]? = some ((e.build? current).getD current) ∧
          ∀ s, e = .join s ∨ e = .joinLeft s →
            ∃ joined, e.build? current = some joined ∧
              (joined.isOptional = true ↔ current.isOptional = true ∨ s.isOptional = true) := by
  have hbottom : bottom.Constructible := trivial
  have hall := constructible_of_mem_history hbottom h
  refine ⟨fun s hs => hall s (List.mem_cons_of_mem _ hs), fun i e current he hcurrent => ?_⟩
  have hc := hall current (List.mem_of_getElem? hcurrent)
  have hedit := h e (List.mem_of_getElem? he)
  refine ⟨Edit.build?_eq_none_iff, ?_, fun s hs => ?_⟩
  · rw [getElem?_history he hcurrent, Edit.build?_eq_perform?, Edit.perform]
  · rcases hs with rfl | rfl
    · refine ⟨_, join?_eq_some current s, ?_⟩
      rw [isOptional_join hc hedit, Bool.or_eq_true]
    · refine ⟨_, join?_eq_some s current, ?_⟩
      rw [isOptional_join hedit hc, Bool.or_eq_true, or_comm]

/-- An optional record is marked once more, and joined with one that has a key thrice; then it stands
on the right of a join. -/
theorem constructible_history_repeated_key :
    let twice := record [("k", int), ("k", optional str)]
    let thrice := record [("k", float), ("k", bool), ("k", bottom)]
    let edits : List Edit := [.set (optional twice), .optional, .join thrice, .joinLeft int]
    let joined := record [("k", float), ("k", optional top), ("k", optional bottom)]
    (∀ e ∈ edits, e.Constructible) ∧
      history bottom edits = [optional twice, optional twice, optional joined, optional top] ∧
      (∀ s ∈ history bottom edits, s.Constructible) ∧
      (Edit.optional.build? (optional twice) = none ↔
        Edit.optional = .optional ∧ (optional twice).isOptional = true) ∧
      ∃ s, Edit.build? (.join thrice) (optional twice) = some s ∧
        (s.isOptional = true ↔ (optional twice).isOptional = true ∨ thrice.isOptional = true) := by
  intro twice thrice edits joined
  have h : ∀ e ∈ edits, e.Constructible := by
    simp [edits, twice, thrice, Edit.Constructible, Constructible, ConstructibleFields, isOptional]
  obtain ⟨hall, hstep⟩ := constructible_history edits h
  have hfirst : (bottom :: history bottom edits)[1]? = some (optional twice) := by decide +kernel
  have hsecond : (bottom :: history bottom edits)[2]? = some (optional twice) := by decide +kernel
  exact ⟨h, by decide +kernel, hall, (hstep 1 .optional _ rfl hfirst).1,
    (hstep 2 (.join thrice) _ rfl hsecond).2.2 thrice (.inl rfl)⟩

end JsonShape.Shape
