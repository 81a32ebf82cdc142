import JsonShape.Shape.Fields

/-!
# Fields by key and rank

A field stands in its record under a key and at a rank: the first field of a key, the second, and so
on. An alignment pairs fields by key and rank, so what it holds for one key depends only on what
both sequences have for that key (`Alignment.ofName_align`). The shape that two joined records have
at a key and a rank is therefore the join of what the two have there
(`Shape.getElem?_values_joinFields`), with `Shape.joinSlot` for a place that one of them lacks.
-/

namespace JsonShape

/-! ## Alignments -/

namespace Alignment

variable {α β : Type}

/-- The values of a name, in order. -/
def ofName (name : String) (f : List (String × α)) : List α :=
  f.filterMap fun (k, x) => if k = name then some x else none

/-- Two sequences of values side by side. What the longer one has more of stays alone. -/
def pair : List α → List α → List (Pairing α)
  | [], ys => ys.map .alone
  | x :: xs, [] => (x :: xs).map .alone
  | x :: xs, y :: ys => .both x y :: pair xs ys

@[simp] theorem ofName_nil (name : String) : ofName name ([] : List (String × α)) = [] := rfl

/-- The values of a name are those of the first field, if it has the name, and of the rest. -/
theorem ofName_cons (name k : String) (x : α) (f : List (String × α)) :
    ofName name ((k, x) :: f) = if k = name then x :: ofName name f else ofName name f := by
  by_cases h : k = name <;> simp [ofName, h]

/-- A value is one of a name exactly if the name stands with it in the sequence. -/
theorem mem_ofName {name : String} {x : α} {f : List (String × α)} :
    x ∈ ofName name f ↔ (name, x) ∈ f := by
  simp [ofName]

/-- Changing the values one by one changes those of a name one by one. -/
theorem ofName_map (name : String) (m : α → β) (f : List (String × α)) :
    ofName name (f.map fun (k, x) => (k, m x)) = (ofName name f).map m := by
  induction f with
  | nil => rfl
  | cons p f ih =>
    obtain ⟨k, x⟩ := p
    rw [List.map_cons, ofName_cons, ofName_cons, ih]
    split <;> rfl

/-- Nothing of a name can be taken out exactly if there is no value of the name. -/
theorem detach?_eq_none {name : String} {g : List (String × α)} (h : detach? name g = none) :
    ofName name g = [] := by
  induction g with
  | nil => rfl
  | cons p g ih =>
    obtain ⟨k, x⟩ := p
    simp only [detach?] at h
    split at h
    · cases h
    · next hk =>
      rw [ofName_cons, if_neg hk]
      exact ih (Option.map_eq_none_iff.1 h)

/-- What is taken out is the first value of the name; the values of other names stay. -/
theorem ofName_of_detach? {name other : String} {g rest : List (String × α)} {y : α}
    (h : detach? name g = some (y, rest)) :
    ofName other g = if name = other then y :: ofName other rest else ofName other rest := by
  induction g generalizing rest with
  | nil => cases h
  | cons p g ih =>
    obtain ⟨k, x⟩ := p
    simp only [detach?] at h
    split at h
    · next hk =>
      cases h
      rw [ofName_cons, hk]
    · next hk =>
      obtain ⟨⟨z, tail⟩, hz, heq⟩ := Option.map_eq_some_iff.1 h
      cases heq
      rw [ofName_cons, ofName_cons, ih hz]
      by_cases ho : name = other
      · rw [if_pos ho, if_pos ho, if_neg (ho ▸ hk), if_neg (ho ▸ hk)]
      · rw [if_neg ho, if_neg ho]

/-- An alignment holds for a name what the two sequences have for it, side by side. -/
theorem ofName_align (name : String) (f g : List (String × α)) :
    ofName name (align f g) = pair (ofName name f) (ofName name g) := by
  induction f generalizing g with
  | nil => exact ofName_map name Pairing.alone g
  | cons p f ih =>
    obtain ⟨k, x⟩ := p
    simp only [align]
    split
    · next hd =>
      rw [ofName_cons, ofName_cons, ih]
      split
      · next hk =>
        rw [← hk, detach?_eq_none hd]
        cases ofName k f <;> rfl
      · rfl
    · next y rest hd =>
      rw [ofName_cons, ofName_cons, ih, ofName_of_detach? hd]
      split <;> rfl

/-- A sequence is aligned with itself value by value. -/
theorem align_self (f : List (String × α)) : align f f = f.map fun (k, x) => (k, .both x x) := by
  induction f with
  | nil => rfl
  | cons p f ih =>
    obtain ⟨k, x⟩ := p
    have hd : detach? k ((k, x) :: f) = some (x, f) := if_pos rfl
    simp only [align, hd, ih, List.map_cons]

/-- At every place of a pairing stands what the two sequences have at that place. -/
theorem getElem?_pair (xs ys : List α) (i : Nat) :
    (pair xs ys)[i]? =
      match xs[i]?, ys[i]? with
      | some x, some y => some (.both x y)
      | some x, none => some (.alone x)
      | none, some y => some (.alone y)
      | none, none => none := by
  induction xs generalizing ys i with
  | nil =>
    rw [pair, List.getElem?_map, List.getElem?_nil]
    cases ys[i]? <;> rfl
  | cons x xs ih =>
    cases ys with
    | nil =>
      rw [pair, List.getElem?_map, List.getElem?_nil]
      cases (x :: xs)[i]? <;> rfl
    | cons y ys =>
      cases i with
      | zero => rfl
      | succ i => simpa only [pair, List.getElem?_cons_succ] using ih ys i

/-- Two values of one name and rank are partners. -/
theorem both_mem_align {name : String} {f g : List (String × α)} {i : Nat} {x y : α}
    (hx : (ofName name f)[i]? = some x) (hy : (ofName name g)[i]? = some y) :
    (name, .both x y) ∈ align f g := by
  have h : (ofName name (align f g))[i]? = some (.both x y) := by
    rw [ofName_align, getElem?_pair, hx, hy]
  exact mem_ofName.1 (List.mem_of_getElem? h)

end Alignment

/-! ## Fields -/

namespace Fields

@[simp] theorem values_nil (key : String) : values [] key = [] := rfl

/-- The shapes of a key are those of the first field, if it has the key, and of the rest. -/
theorem values_cons (key k : String) (s : Shape) (f : Fields) :
    values ((k, s) :: f) key = if k = key then s :: values f key else values f key :=
  Alignment.ofName_cons key k s f

/-- A shape stands under a key at some rank exactly if there is such a field. -/
theorem mem_values {f : Fields} {key : String} {s : Shape} :
    s ∈ f.values key ↔ (key, s) ∈ f :=
  Alignment.mem_ofName

/-- What stands under a key at some rank is a field. -/
theorem mem_of_getElem?_values {f : Fields} {key : String} {i : Nat} {s : Shape}
    (h : (f.values key)[i]? = some s) : (key, s) ∈ f :=
  mem_values.1 (List.mem_of_getElem? h)

/-- A key has a shape exactly if some field has the key. -/
theorem values_eq_nil {f : Fields} {key : String} : f.values key = [] ↔ key ∉ f.keys := by
  rw [List.eq_nil_iff_forall_not_mem]
  constructor
  · rintro h hk
    obtain ⟨⟨_, s⟩, hs, rfl⟩ := List.mem_map.1 hk
    exact h s (mem_values.2 hs)
  · exact fun h s hs => h (List.mem_map.2 ⟨_, mem_values.1 hs, rfl⟩)

/-- Keys are distinct exactly if each of them has one shape. -/
theorem nodup_keys_iff {f : Fields} : f.keys.Nodup ↔ ∀ key, (f.values key).length ≤ 1 := by
  induction f with
  | nil => simp [keys]
  | cons p f ih =>
    obtain ⟨k, s⟩ := p
    rw [show keys ((k, s) :: f) = k :: keys f from rfl, List.nodup_cons, ih, ← values_eq_nil]
    refine ⟨?_, fun h => ?_⟩
    · rintro ⟨hk, hf⟩ key
      rw [values_cons]
      split
      · next h => simp [← h, hk]
      · exact hf key
    · have hk : values f k = [] := by
        have := h k
        rw [values_cons, if_pos rfl, List.length_cons] at this
        exact List.eq_nil_of_length_eq_zero (by omega)
      refine ⟨hk, fun key => ?_⟩
      have := h key
      rw [values_cons] at this
      split at this
      · next he => simp [← he, hk]
      · exact this

/-- In a record of distinct keys a key has the one shape of its field. -/
theorem values_eq_singleton {f : Fields} (hf : f.keys.Nodup) {key : String} {s : Shape}
    (h : (key, s) ∈ f) : f.values key = [s] := by
  have hlen := nodup_keys_iff.1 hf key
  have hmem := mem_values.2 h
  cases hv : f.values key with
  | nil => rw [hv] at hmem; cases hmem
  | cons t ts =>
    rw [hv] at hmem hlen
    cases ts with
    | nil => rw [List.mem_singleton.1 hmem]
    | cons => simp at hlen

end Fields

/-! ## Joined fields -/

namespace Shape

/-- The join of what two records have in one place. What only one of them has may be absent. -/
def joinSlot : Option Shape → Option Shape → Option Shape
  | some a, some b => some (a.join b)
  | some a, none => some a.makeOptional
  | none, some b => some b.makeOptional
  | none, none => none

/-- Joined fields are the alignment of the two, place by place, also where they are the same and
given back as they are. -/
theorem joinFields_eq_map_align (f g : Fields) :
    joinFields f g = (Alignment.align f g).map fun (k, p) => (k, p.resolve join makeOptional) := by
  unfold joinFields
  split
  · next h =>
    rw [← h, Alignment.align_self, List.map_map]
    simp [Function.comp_def, Pairing.resolve, join_self]
  · rfl

/-- Joined fields have at each key and rank the join of what the two have there. -/
theorem getElem?_values_joinFields (f g : Fields) (key : String) (i : Nat) :
    (Fields.values (joinFields f g) key)[i]? =
      joinSlot (f.values key)[i]? (g.values key)[i]? := by
  have hv : Fields.values (joinFields f g) key =
      (Alignment.pair (f.values key) (g.values key)).map (Pairing.resolve join makeOptional) := by
    rw [joinFields_eq_map_align]
    exact (Alignment.ofName_map key _ (Alignment.align f g)).trans
      (congrArg _ (Alignment.ofName_align key f g))
  rw [hv, List.getElem?_map, Alignment.getElem?_pair]
  cases (f.values key)[i]? <;> cases (g.values key)[i]? <;> rfl

end Shape

end JsonShape
