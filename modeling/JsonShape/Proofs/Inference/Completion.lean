import JsonShape.Proofs.Inference.Settling

/-!
# The shape that tokens complete

Tokens complete a shape exactly if they spell a value that does not nest too deep, and then it is
the shape of the value (`Inference.read_eq_done_iff`). That the tokens of a value do so is known;
the other direction is an induction over the number of tokens: tokens that lead from a place where a
value may stand to the end start with those of a value (`Inference.startWithValue`).
-/

namespace JsonShape.Inference

open Value (furtherElements furtherMembers)

/-- No string lacks its text. -/
def Texted (ts : List Token) : Prop :=
  ∀ t ∈ ts, t.lexeme ≠ (.string, none)

/-- Tokens that spell a value have the texts of its strings. -/
theorem texted_of_spelledBy {v : Value} {ts : List Token} (h : v.SpelledBy ts) : Texted ts :=
  fun _ ht => v.texted _ (h ▸ List.mem_map_of_mem ht)

/-- If tokens lead from a place where a value may stand to the end, they start with a value. -/
def StartWithValue (room : Nat) (ts : List Token) : Prop :=
  ∀ (holes : List Hole) (repeated : Option String) (s : Shape), Texted ts →
    holes.length ≤ room → (Transition.onward ⟨holes, .value⟩ repeated).read room ts = .done s →
    ∃ (v : Value) (us rest : List Token), ts = us ++ rest ∧ v.SpelledBy us ∧
      holes.length + v.levels ≤ room ∧ (settle holes v.shape).read room rest = .done s

section

variable {room n : Nat} {holes : List Hole} {repeated : Option String} {s : Shape} {ts : List Token}

/-- Tokens that lead from behind an element to the end start with all further elements. -/
theorem furtherElements_of_read (hv : ∀ us : List Token, us.length < n → StartWithValue room us)
    (hn : ts.length ≤ n) (htext : Texted ts) (hopen : holes.length < room) {joined : Shape}
    (h : (Transition.onward ⟨holes, .afterElement joined⟩ repeated).read room ts = .done s) :
    ∃ (vs : List Value) (us rest : List Token), ts = us ++ rest ∧
      us.map Token.lexeme = furtherElements vs ∧ (∀ v ∈ vs, holes.length + 1 + v.levels ≤ room) ∧
      (settle holes (.list ((vs.map Value.shape).foldl Shape.join joined))).read room rest =
        .done s := by
  induction n generalizing ts joined repeated with
  | zero =>
    cases List.length_eq_zero_iff.1 (Nat.le_zero.1 hn)
    cases h
  | succ n ih =>
    cases ts with
    | nil => cases h
    | cons t ts =>
      obtain ⟨-, htext⟩ := List.forall_mem_cons.1 htext
      have hn : ts.length ≤ n := Nat.le_of_succ_le_succ hn
      rw [Transition.read_cons, Transition.next] at h
      rcases step_afterElement_cases room holes joined t with ⟨ht, hstep⟩ | ⟨ht, hstep⟩ |
        ⟨failure, hstep⟩
      · rw [hstep] at h
        exact ⟨[], [t], ts, rfl, by rw [List.map_singleton, ht, furtherElements], by simp, h⟩
      · rw [hstep] at h
        obtain ⟨v, us, rest, rfl, hus, hroom, h⟩ :=
          hv ts (Nat.lt_succ_of_le hn) (.element joined :: holes) none s htext hopen h
        obtain ⟨-, htext⟩ := List.forall_mem_append.1 htext
        rw [List.length_append] at hn
        obtain ⟨vs, us', rest', rfl, hus', hroom', h⟩ :=
          ih (fun ws hw => hv ws (Nat.lt_succ_of_lt hw)) (by omega) htext h
        refine ⟨v :: vs, t :: (us ++ us'), rest', by simp, ?_, ?_, h⟩
        · rw [List.map_cons, List.map_append, ht, hus, hus', furtherElements]
        · exact List.forall_mem_cons.2 ⟨by simpa using hroom, hroom'⟩
      · rw [hstep] at h
        exact absurd h (Transition.read_refused_ne_done room failure ts s)

/-- Tokens that lead from the place of a key to the end start with a member. -/
theorem member_of_read (hv : ∀ us : List Token, us.length < n → StartWithValue room us)
    (hn : ts.length ≤ n) (htext : Texted ts) (hopen : holes.length < room) {fields : Fields}
    (h : (Transition.onward ⟨holes, .key fields⟩ repeated).read room ts = .done s) :
    ∃ (key : String) (v : Value) (us rest : List Token), ts = us ++ rest ∧ rest.length < n ∧
      us.map Token.lexeme = (.string, some key) :: (.colon, none) :: v.lexemes ∧
      holes.length + 1 + v.levels ≤ room ∧
      (settle (.member fields key :: holes) v.shape).read room rest = .done s := by
  cases ts with
  | nil => cases h
  | cons name ts =>
    obtain ⟨-, htext⟩ := List.forall_mem_cons.1 htext
    rw [Transition.read_cons, Transition.next, State.step] at h
    rcases stepKey_cases holes fields name with ⟨key, hname, hstep⟩ | ⟨failure, hstep⟩
    · simp only [hstep] at h
      cases ts with
      | nil => cases h
      | cons t ts =>
        obtain ⟨-, htext⟩ := List.forall_mem_cons.1 htext
        rw [Transition.read_cons, Transition.next] at h
        rcases step_colon_cases room holes fields key t with ⟨ht, hstep⟩ | ⟨failure, hstep⟩
        · rw [hstep] at h
          obtain ⟨v, us, rest, rfl, hus, hroom, h⟩ :=
            hv ts (Nat.lt_of_succ_lt hn) (.member fields key :: holes) none s htext hopen h
          refine ⟨key, v, name :: t :: us, rest, rfl, ?_, ?_, by simpa using hroom, h⟩
          · simp only [List.length_cons, List.length_append] at hn
            omega
          · rw [List.map_cons, List.map_cons, hname, ht, hus]
        · rw [hstep] at h
          exact absurd h (Transition.read_refused_ne_done room failure ts s)
    · simp only [hstep] at h
      exact absurd h (Transition.read_refused_ne_done room failure ts s)

/-- Tokens that lead from behind a member to the end start with all further members. -/
theorem furtherMembers_of_read (hv : ∀ us : List Token, us.length < n → StartWithValue room us)
    (hn : ts.length ≤ n) (htext : Texted ts) (hopen : holes.length < room) {fields : Fields}
    (h : (Transition.onward ⟨holes, .afterMember fields⟩ repeated).read room ts = .done s) :
    ∃ (ms : List (String × Value)) (us rest : List Token), ts = us ++ rest ∧
      us.map Token.lexeme = furtherMembers ms ∧
      (∀ m ∈ ms, holes.length + 1 + m.2.levels ≤ room) ∧
      (settle holes (.record (fields.observeAll (Value.memberShapes ms)))).read room rest =
        .done s := by
  induction n generalizing ts fields repeated with
  | zero =>
    cases List.length_eq_zero_iff.1 (Nat.le_zero.1 hn)
    cases h
  | succ n ih =>
    cases ts with
    | nil => cases h
    | cons t ts =>
      obtain ⟨-, htext⟩ := List.forall_mem_cons.1 htext
      rw [Transition.read_cons, Transition.next] at h
      rcases step_afterMember_cases room holes fields t with ⟨ht, hstep⟩ | ⟨ht, hstep⟩ |
        ⟨failure, hstep⟩
      · rw [hstep] at h
        exact ⟨[], [t], ts, rfl, by rw [List.map_singleton, ht, furtherMembers], by simp, h⟩
      · rw [hstep] at h
        obtain ⟨key, v, us, rest, rfl, hrest, hus, hroom, h⟩ :=
          member_of_read hv (Nat.le_of_succ_le hn) htext hopen h
        obtain ⟨-, htext⟩ := List.forall_mem_append.1 htext
        obtain ⟨ms, us', rest', rfl, hus', hroom', h⟩ :=
          ih (fun ws hw => hv ws (Nat.lt_succ_of_lt hw)) (Nat.le_of_lt_succ hrest) htext h
        refine ⟨(key, v) :: ms, t :: (us ++ us'), rest', by simp, ?_, ?_, h⟩
        · rw [List.map_cons, List.map_append, ht, hus, hus', furtherMembers]
          rfl
        · exact List.forall_mem_cons.2 ⟨hroom, hroom'⟩
      · rw [hstep] at h
        exact absurd h (Transition.read_refused_ne_done room failure ts s)

/-- Tokens that lead from behind an opening bracket to the end start with the rest of an array. -/
theorem array_of_read (hv : ∀ us : List Token, us.length ≤ n → StartWithValue room us)
    (hn : ts.length ≤ n) (htext : Texted ts) (hopen : holes.length < room)
    (h : (Transition.onward ⟨holes, .firstElement⟩ repeated).read room ts = .done s) :
    ∃ (vs : List Value) (us rest : List Token), ts = us ++ rest ∧
      (.arrayStart, none) :: us.map Token.lexeme = (Value.array vs).lexemes ∧
      (∀ v ∈ vs, holes.length + 1 + v.levels ≤ room) ∧
      (settle holes (Value.array vs).shape).read room rest = .done s := by
  cases ts with
  | nil => cases h
  | cons t ts =>
    by_cases hend : t.kind = .arrayEnd
    · have hstep : State.step room ⟨holes, .firstElement⟩ t = settle holes (.list .bottom) :=
        if_pos hend
      rw [Transition.read_cons, Transition.next, hstep] at h
      have ht : t.lexeme = (.arrayEnd, none) := Token.lexeme_of_kind hend (by simp)
      exact ⟨[], [t], ts, rfl, by rw [List.map_singleton, ht, Value.lexemes], by simp, h⟩
    · rw [read_firstElement hend] at h
      obtain ⟨v, us, rest, hsplit, hus, hroom, h⟩ :=
        hv (t :: ts) hn (.element .bottom :: holes) repeated s htext hopen h
      rw [hsplit] at hn htext ⊢
      obtain ⟨-, htext⟩ := List.forall_mem_append.1 htext
      have hpos := hus.length_pos
      rw [List.length_append] at hn
      obtain ⟨vs, us', rest', rfl, hus', hroom', h⟩ :=
        furtherElements_of_read (fun ws hw => hv ws (Nat.le_of_lt hw)) (by omega) htext hopen h
      refine ⟨v :: vs, us ++ us', rest', by simp, ?_, ?_, ?_⟩
      · rw [List.map_append, hus, hus', Value.lexemes]
      · exact List.forall_mem_cons.2 ⟨by simpa using hroom, hroom'⟩
      · rw [Value.shape_array]
        exact h

/-- Tokens that lead from behind an opening brace to the end start with the rest of an object. -/
theorem object_of_read (hv : ∀ us : List Token, us.length < n → StartWithValue room us)
    (hn : ts.length ≤ n) (htext : Texted ts) (hopen : holes.length < room)
    (h : (Transition.onward ⟨holes, .firstMember⟩ repeated).read room ts = .done s) :
    ∃ (ms : List (String × Value)) (us rest : List Token), ts = us ++ rest ∧
      (.objectStart, none) :: us.map Token.lexeme = (Value.object ms).lexemes ∧
      (∀ m ∈ ms, holes.length + 1 + m.2.levels ≤ room) ∧
      (settle holes (Value.object ms).shape).read room rest = .done s := by
  cases ts with
  | nil => cases h
  | cons t ts =>
    by_cases hend : t.kind = .objectEnd
    · have hstep : State.step room ⟨holes, .firstMember⟩ t = settle holes (.record []) :=
        if_pos hend
      rw [Transition.read_cons, Transition.next, hstep] at h
      have ht : t.lexeme = (.objectEnd, none) := Token.lexeme_of_kind hend (by simp)
      exact ⟨[], [t], ts, rfl, by rw [List.map_singleton, ht, Value.lexemes], by simp, h⟩
    · rw [read_firstMember hend] at h
      obtain ⟨key, v, us, rest, hsplit, hrest, hus, hroom, h⟩ := member_of_read hv hn htext hopen h
      rw [hsplit] at htext ⊢
      obtain ⟨-, htext⟩ := List.forall_mem_append.1 htext
      obtain ⟨ms, us', rest', rfl, hus', hroom', h⟩ :=
        furtherMembers_of_read hv (Nat.le_of_lt hrest) htext hopen h
      refine ⟨(key, v) :: ms, us ++ us', rest', by simp, ?_, ?_, ?_⟩
      · rw [List.map_append, hus, hus', Value.lexemes]
        rfl
      · exact List.forall_mem_cons.2 ⟨hroom, hroom'⟩
      · rw [Value.shape, Fields.gather_eq_observeAll]
        exact h

end

/-- Tokens that lead from a place where a value may stand to the end start with a value. -/
theorem startWithValue (room : Nat) (ts : List Token) : StartWithValue room ts := by
  induction hn : ts.length using Nat.strongRecOn generalizing ts with
  | ind n ih =>
    intro holes repeated s htext hopen h
    cases ts with
    | nil => cases h
    | cons t ts =>
      obtain ⟨ht, htext⟩ := List.forall_mem_cons.1 htext
      have hv : ∀ us : List Token, us.length ≤ ts.length → StartWithValue room us :=
        fun us hu => ih us.length (by rw [← hn]; exact Nat.lt_succ_of_le hu) us rfl
      rw [Transition.read_cons, Transition.next, State.step] at h
      rcases stepValue_cases room holes t ht with ⟨v, hlex, hlevels, hstep⟩ |
        ⟨hlex, hroom, hstep⟩ | ⟨hlex, hroom, hstep⟩ | ⟨failure, hstep⟩
      · simp only [hstep] at h
        refine ⟨v, [t], ts, rfl, hlex.symm, ?_, h⟩
        rwa [hlevels]
      · simp only [hstep] at h
        obtain ⟨vs, us, rest, rfl, hus, hvs, h⟩ := array_of_read hv (Nat.le_refl _) htext hroom h
        refine ⟨.array vs, t :: us, rest, rfl, ?_, Value.levels_array_le.2 ⟨hroom, hvs⟩, h⟩
        rw [Value.SpelledBy, List.map_cons, hlex, hus]
      · simp only [hstep] at h
        obtain ⟨ms, us, rest, rfl, hus, hms, h⟩ :=
          object_of_read (fun us hu => hv us (Nat.le_of_lt hu)) (Nat.le_refl _) htext hroom h
        refine ⟨.object ms, t :: us, rest, rfl, ?_, Value.levels_object_le.2 ⟨hroom, hms⟩, h⟩
        rw [Value.SpelledBy, List.map_cons, hlex, hus]
      · simp only [hstep] at h
        exact absurd h (Transition.read_refused_ne_done room failure ts s)

/-- Tokens complete a shape exactly if they spell a value that fits, and it is the value's. -/
theorem read_eq_done_iff {room : Nat} {ts : List Token} {s : Shape} (htext : Texted ts) :
    Transition.start.read room ts = .done s ↔
      ∃ v : Value, v.SpelledBy ts ∧ v.levels ≤ room ∧ v.shape = s := by
  refine ⟨fun h => ?_, ?_⟩
  · obtain ⟨v, us, rest, rfl, hus, hroom, h⟩ :=
      startWithValue room ts [] none s htext (Nat.zero_le _) h
    obtain ⟨rfl, rfl⟩ := Transition.read_done h
    exact ⟨v, by rwa [List.append_nil], by simpa using hroom, rfl⟩
  · rintro ⟨v, hts, hroom, rfl⟩
    exact settles room v [] none ts hts (by simpa using hroom)

end JsonShape.Inference
