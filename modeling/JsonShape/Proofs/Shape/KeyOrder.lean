import JsonShape.Proofs.Shape.Gather
import Mathlib.Data.List.Nodup

/-!
# In which order a fold lists keys

Two joined records list the keys of the left one and then those that only the right one has
(`Alignment.map_fst_align`). But a join puts what an optional left side says second, so from the
first optional shape of a list on, a fold lists the keys of each further record in front of those
it has: `Shape.precedence` is the order in which it comes to the shapes of the list, and
`Shape.keys_fold` says that the keys are the distinct ones of the shapes in that order. That is the
order of the list itself as long as no shape but the last one is optional;
`Shape.keys_fold_behind_null` is a list where it is not.
-/

namespace JsonShape

/-! ## Keys without repetitions -/

section

variable {α : Type} [BEq α] [LawfulBEq α]

/-- A list without repetitions has none to be erased. -/
theorem eraseDups_of_nodup {xs : List α} (h : xs.Nodup) : xs.eraseDups = xs := by
  induction xs with
  | nil => rfl
  | cons x xs ih =>
    rw [List.nodup_cons] at h
    have hx : xs.filter (fun y => !y == x) = xs :=
      List.filter_eq_self.2 fun y hy => by simpa using fun e : y = x => h.1 (e ▸ hy)
    rw [List.eraseDups_cons, hx, ih h.2]

/-- Repetitions may be erased before or after a list is filtered. -/
theorem eraseDups_filter (p : α → Bool) (xs : List α) :
    (xs.filter p).eraseDups = xs.eraseDups.filter p := by
  induction hn : xs.length using Nat.strongRecOn generalizing xs with
  | ind n ih =>
    cases xs with
    | nil => rfl
    | cons x xs =>
      have hlt : (xs.filter fun y => !y == x).length < n := by
        rw [← hn]
        exact Nat.lt_succ_of_le (List.length_filter_le _ _)
      have hrest := ih _ hlt (xs.filter fun y => !y == x) rfl
      rw [List.eraseDups_cons, List.filter_cons, List.filter_cons, ← hrest]
      split
      · rw [List.eraseDups_cons, List.filter_filter, List.filter_filter]
        simp only [Bool.and_comm]
      · next hx =>
        have hne : ∀ y ∈ xs, p y = (p y && !y == x) := by
          intro y _
          by_cases hy : y = x
          · simp [hy, hx]
          · simp [hy]
        rw [List.filter_filter, List.filter_congr hne]

/-- Repetitions in the front of a list may be erased first. -/
theorem eraseDups_append_left (xs ys : List α) :
    (xs.eraseDups ++ ys).eraseDups = (xs ++ ys).eraseDups := by
  have hrest : ys.removeAll xs.eraseDups = ys.removeAll xs := by simp [List.removeAll]
  rw [List.eraseDups_append, List.eraseDups_append, eraseDups_of_nodup (nodup_eraseDups xs), hrest]

/-- Repetitions in the rest of a list may be erased first. -/
theorem eraseDups_append_right (xs ys : List α) :
    (xs ++ ys.eraseDups).eraseDups = (xs ++ ys).eraseDups := by
  have hrest : (ys.eraseDups.removeAll xs).eraseDups = (ys.removeAll xs).eraseDups := by
    rw [List.removeAll, ← eraseDups_filter, eraseDups_of_nodup (nodup_eraseDups _), List.removeAll]
  rw [List.eraseDups_append, List.eraseDups_append, hrest]

end

/-! ## The keys of joined fields -/

namespace Alignment

variable {α : Type}

/-- What is left when the first value of a name is taken out. -/
theorem map_fst_of_detach? {name : String} {g rest : List (String × α)} {y : α}
    (h : detach? name g = some (y, rest)) :
    rest.map Prod.fst = (g.map Prod.fst).erase name := by
  induction g generalizing rest with
  | nil => cases h
  | cons p g ih =>
    obtain ⟨k, x⟩ := p
    simp only [detach?] at h
    split at h
    · next hk =>
      cases h
      simp [hk]
    · next hk =>
      obtain ⟨⟨z, tail⟩, hz, heq⟩ := Option.map_eq_some_iff.1 h
      cases heq
      simp [ih hz, hk]

/-- Of a name that cannot be taken out there is no value. -/
theorem not_mem_of_detach? {name : String} {g : List (String × α)} (h : detach? name g = none) :
    name ∉ g.map Prod.fst := by
  intro hmem
  obtain ⟨⟨_, x⟩, hx, rfl⟩ := List.mem_map.1 hmem
  have hnone := detach?_eq_none h
  rw [List.eq_nil_iff_forall_not_mem] at hnone
  exact hnone x (mem_ofName.2 hx)

/-- An alignment lists the names on the left, and then those on the right that have no partner. -/
theorem map_fst_align (f g : List (String × α)) :
    (align f g).map Prod.fst = f.map Prod.fst ++ (g.map Prod.fst).diff (f.map Prod.fst) := by
  induction f generalizing g with
  | nil => simp [align]
  | cons p f ih =>
    obtain ⟨k, x⟩ := p
    simp only [align]
    split
    · next hd =>
      rw [List.map_cons, ih, List.map_cons, List.diff_cons, List.erase_of_not_mem]
      · rfl
      · exact not_mem_of_detach? hd
    · next y rest hd =>
      rw [List.map_cons, ih, List.map_cons, List.diff_cons, map_fst_of_detach? hd]
      rfl

end Alignment

namespace Shape

/-- Joined fields have the keys on the left, and then those on the right that have no partner. -/
theorem keys_joinFields_eq_diff (f g : Fields) :
    Fields.keys (joinFields f g) = f.keys ++ g.keys.diff f.keys := by
  rw [joinFields_eq_map_align]
  simpa [Fields.keys, Function.comp_def] using Alignment.map_fst_align f g

/-- Joined fields of distinct keys have the keys on the left, and then the others on the right. -/
theorem keys_joinFields {f g : Fields} (hf : f.keys.Nodup) (hg : g.keys.Nodup) :
    Fields.keys (joinFields f g) = (f.keys ++ g.keys).eraseDups := by
  have hrest : g.keys.diff f.keys = (g.keys.removeAll f.keys).eraseDups := by
    rw [hg.sdiff_eq_filter, List.removeAll, eraseDups_of_nodup (hg.filter _)]
    simp
  rw [keys_joinFields_eq_diff, List.eraseDups_append, eraseDups_of_nodup hf, hrest]

/-! ## The order of the shapes -/

/-- The keys of a record, whether it is optional or not. -/
def recordKeys : Shape → List String
  | optional s => recordKeys s
  | record f => Fields.keys f
  | _ => []

@[simp] theorem recordKeys_stripOptional (a : Shape) :
    a.stripOptional.recordKeys = a.recordKeys := by
  cases a <;> rfl

/-- What is known of objects: nothing yet, or a record of distinct keys. -/
inductive OfObjects : Shape → Prop where
  | bottom : OfObjects bottom
  | record {f : Fields} (h : f.keys.Nodup) : OfObjects (record f)

/-- Nothing that is known of objects is optional. -/
theorem OfObjects.isOptional {a : Shape} (h : a.OfObjects) : a.isOptional = false := by
  cases h <;> rfl

/-- The keys known of objects are distinct. -/
theorem OfObjects.nodup {a : Shape} (h : a.OfObjects) : a.recordKeys.Nodup := by
  cases h with
  | bottom => exact .nil
  | record h => exact h

/-- Of objects more is known when two shapes are joined, and the keys on the left come first. -/
theorem OfObjects.join {a b : Shape} (ha : a.OfObjects) (hb : b.OfObjects) :
    (a.join b).OfObjects ∧ (a.join b).recordKeys = (a.recordKeys ++ b.recordKeys).eraseDups ∧
      (a.join b = Shape.bottom ↔ a = Shape.bottom ∧ b = Shape.bottom) := by
  cases ha with
  | bottom =>
    rw [join_bottom_left]
    exact ⟨hb, (eraseDups_of_nodup hb.nodup).symm, by simp⟩
  | record hf =>
    cases hb with
    | bottom =>
      rw [join_bottom_right]
      have hkeys : recordKeys .bottom = [] := rfl
      refine ⟨.record hf, ?_, by simp⟩
      rw [hkeys, List.append_nil]
      exact (eraseDups_of_nodup hf).symm
    | record hg =>
      have hkeys := keys_joinFields hf hg
      rw [join_record]
      exact ⟨.record (hkeys ▸ nodup_eraseDups _), hkeys, by simp⟩

/-- One more shape behind those that a fold has come to: once one of them is optional, it comes in
front of them. -/
def placed (seen : List Shape) (x : Shape) : List Shape :=
  if seen.any isOptional then x :: seen else seen ++ [x]

/-- The order in which a fold comes to the shapes of a list when it lists their keys. -/
def precedence (xs : List Shape) : List Shape :=
  xs.foldl placed []

/-- A shape tells of objects what some others do, in that order. -/
structure Tracks (a : Shape) (seen : List Shape) : Prop where
  /-- It is a record of distinct keys, optional or not, or it tells nothing. -/
  ofObjects : a.stripOptional.OfObjects
  /-- It is optional if any of the others is. -/
  isOptional : a.isOptional = seen.any Shape.isOptional
  /-- It lists the distinct keys of the others. -/
  keys : a.recordKeys = (seen.flatMap recordKeys).eraseDups
  /-- It tells nothing only if none of the others does. -/
  bottom : a.stripOptional = .bottom ↔ ∀ x ∈ seen, x.stripOptional = .bottom

/-- A shape that is not optional is joined to one of objects inside the mark of that one. -/
theorem join_of_not_isOptional {a x : Shape} (ha : a.OfObjects) (hx : x.stripOptional.OfObjects) :
    (a.join x).stripOptional = a.join x.stripOptional ∧
      (a.join x).isOptional = x.isOptional := by
  have hj := (ha.join hx).1.isOptional
  cases x with
  | optional b =>
    have hb : b.isOptional = false := hx.isOptional
    rw [join_optional_right ha.isOptional hb, stripOptional_makeOptional, isOptional_makeOptional]
    exact ⟨stripOptional_eq_self hj, rfl⟩
  | _ => exact ⟨stripOptional_eq_self hj, hj⟩

/-- A shape is joined to an optional one of objects inside the mark, and what it tells comes
first. -/
theorem join_of_isOptional {a x : Shape} (ha : a.stripOptional.OfObjects)
    (hx : x.stripOptional.OfObjects) (h : a.isOptional = true) :
    (a.join x).stripOptional = x.stripOptional.join a.stripOptional ∧
      (a.join x).isOptional = true := by
  have hj := (hx.join ha).1.isOptional
  cases a with
  | optional a =>
    have ha' : a.isOptional = false := ha.isOptional
    rw [join_optional_left ha', stripOptional_makeOptional, isOptional_makeOptional]
    exact ⟨stripOptional_eq_self hj, rfl⟩
  | _ => cases h

/-- One more shape is joined, and placed. -/
theorem Tracks.join {a x : Shape} {seen : List Shape} (h : a.Tracks seen)
    (hx : x.stripOptional.OfObjects) : (a.join x).Tracks (placed seen x) := by
  have hkeys : (a.join x).stripOptional.recordKeys = (a.join x).recordKeys :=
    recordKeys_stripOptional _
  rw [placed]
  split
  · next hany =>
    obtain ⟨hstrip, hopt⟩ := join_of_isOptional h.ofObjects hx (h.isOptional.trans hany)
    obtain ⟨hof, hkeys', hbot⟩ := hx.join h.ofObjects
    rw [hstrip, hkeys', recordKeys_stripOptional, recordKeys_stripOptional, h.keys,
      eraseDups_append_right] at hkeys
    refine ⟨hstrip ▸ hof, ?_, hkeys.symm, ?_⟩
    · rw [hopt, List.any_cons, hany, Bool.or_true]
    · rw [hstrip, hbot, h.bottom, List.forall_mem_cons]
  · next hany =>
    have ha : a.isOptional = false := h.isOptional.trans (Bool.eq_false_iff.2 hany)
    have hself := stripOptional_eq_self ha
    have hoa := h.ofObjects
    have hbota := h.bottom
    rw [hself] at hoa hbota
    obtain ⟨hstrip, hopt⟩ := join_of_not_isOptional hoa hx
    obtain ⟨hof, hkeys', hbot⟩ := hoa.join hx
    rw [hstrip, hkeys', recordKeys_stripOptional, h.keys, eraseDups_append_left] at hkeys
    refine ⟨hstrip ▸ hof, ?_, ?_, ?_⟩
    · rw [hopt, List.any_append, Bool.eq_false_iff.2 hany, Bool.false_or, List.any_cons,
        List.any_nil, Bool.or_false]
    · rw [← hkeys, List.flatMap_append, List.flatMap_singleton]
    · rw [hstrip, hbot, hbota, List.forall_mem_append, List.forall_mem_singleton]

/-- The fold of a list of such shapes tells what they do, in the order of their precedence. -/
theorem tracks_fold {xs : List Shape} (hxs : ∀ x ∈ xs, x.stripOptional.OfObjects) :
    (fold xs).Tracks (precedence xs) := by
  have hstart : Tracks .bottom [] := ⟨.bottom, rfl, rfl, by simp [stripOptional]⟩
  exact List.foldl_rel hstart fun x hx a seen h => h.join (hxs x hx)

/-- Every shape of a list has its place in the precedence, and no others have. -/
theorem mem_precedence {xs : List Shape} {x : Shape} : x ∈ precedence xs ↔ x ∈ xs := by
  have h : ∀ seen, x ∈ xs.foldl placed seen ↔ x ∈ seen ∨ x ∈ xs := by
    induction xs with
    | nil => simp
    | cons y xs ih =>
      intro seen
      have hplaced : x ∈ placed seen y ↔ x ∈ seen ∨ x = y := by
        rw [placed]
        split <;> simp [or_comm]
      rw [List.foldl_cons, ih, hplaced, List.mem_cons, or_assoc]
  simpa [precedence] using h []

/-- Shapes take precedence in the order of the list if none but the last is optional. -/
theorem precedence_eq_self {xs : List Shape} (h : ∀ x ∈ xs.dropLast, x.isOptional = false) :
    precedence xs = xs := by
  have hplaced : ∀ (ys seen : List Shape), (∀ y ∈ seen ++ ys.dropLast, y.isOptional = false) →
      ys.foldl placed seen = seen ++ ys := by
    intro ys
    induction ys with
    | nil => simp
    | cons y ys ih =>
      intro seen hseen
      have hnone : seen.any isOptional = false := by
        simpa using fun s hs => hseen s (List.mem_append_left _ hs)
      rw [List.foldl_cons, placed, hnone, if_neg Bool.false_ne_true]
      cases ys with
      | nil => rfl
      | cons z ys => rw [ih _ (by simpa using hseen), List.append_assoc, List.singleton_append]
  exact hplaced xs [] h

/-- The fold of shapes of objects, not all of which tell nothing, is a record once its mark is taken
away. Its keys are the distinct keys of all the shapes: in the order of their precedence, which is
that of the list if no shape but the last is optional. -/
theorem keys_fold {xs : List Shape} (hxs : ∀ x ∈ xs, x.stripOptional.OfObjects)
    (hrecord : ∃ x ∈ xs, x.stripOptional ≠ bottom) :
    ∃ f : Fields, (fold xs).stripOptional = record f ∧ f.keys.Nodup ∧
      f.keys = ((precedence xs).flatMap recordKeys).eraseDups ∧
      ((∀ x ∈ xs.dropLast, x.isOptional = false) →
        f.keys = (xs.flatMap recordKeys).eraseDups) := by
  obtain ⟨hof, -, hkeys, hbot⟩ := tracks_fold hxs
  rw [← recordKeys_stripOptional] at hkeys
  generalize (fold xs).stripOptional = s at hof hkeys hbot
  cases hof with
  | bottom =>
    obtain ⟨x, hx, hne⟩ := hrecord
    exact absurd (hbot.1 rfl x (mem_precedence.2 hx)) hne
  | @record f hf =>
    have hf' : f.keys = ((precedence xs).flatMap recordKeys).eraseDups := hkeys
    refine ⟨f, rfl, hf, hf', fun h => ?_⟩
    rw [hf', precedence_eq_self h]

/-- An optional record comes in the middle, and a record with one of its keys behind it. -/
theorem keys_fold_optional :
    let a := record [("x", int), ("y", int)]
    let b := optional (record [("z", str), ("x", float)])
    let c := record [("w", bool), ("z", str)]
    let xs := [a, b, c, optional bottom]
    (∀ x ∈ xs, x.stripOptional.OfObjects) ∧ (∃ x ∈ xs, x.stripOptional ≠ bottom) ∧
      ((precedence xs).flatMap recordKeys).eraseDups = ["w", "z", "x", "y"] ∧
      ∃ f : Fields, (fold xs).stripOptional = record f ∧ f.keys.Nodup ∧
        f.keys = ((precedence xs).flatMap recordKeys).eraseDups ∧
        ((∀ x ∈ xs.dropLast, x.isOptional = false) →
          f.keys = (xs.flatMap recordKeys).eraseDups) := by
  intro a b c xs
  have hxs : ∀ x ∈ xs, x.stripOptional.OfObjects := by
    have ha : a.stripOptional.OfObjects := .record (by decide)
    have hb : b.stripOptional.OfObjects := .record (by decide)
    have hc : c.stripOptional.OfObjects := .record (by decide)
    have hn : (optional bottom).stripOptional.OfObjects := .bottom
    simp [xs, ha, hb, hc, hn]
  have hrecord : ∃ x ∈ xs, x.stripOptional ≠ bottom := ⟨a, List.mem_cons_self, nofun⟩
  exact ⟨hxs, hrecord, by decide +kernel, keys_fold hxs hrecord⟩

/-- Behind a null, of two records the keys of the second come first. -/
theorem keys_fold_behind_null :
    let xs := [optional bottom, record [("a", int)], record [("b", int)]]
    (∀ x ∈ xs, x.stripOptional.OfObjects) ∧ (∃ x ∈ xs, x.stripOptional ≠ bottom) ∧
      (fold xs).stripOptional = record [("b", optional int), ("a", optional int)] ∧
      ¬∃ f : Fields, (fold xs).stripOptional = record f ∧
        f.keys = (xs.flatMap recordKeys).eraseDups := by
  intro xs
  have hfold : (fold xs).stripOptional = record [("b", optional int), ("a", optional int)] := by
    decide +kernel
  have hxs : ∀ x ∈ xs, x.stripOptional.OfObjects := by
    have ha : (record [("a", int)]).stripOptional.OfObjects := .record (by decide)
    have hb : (record [("b", int)]).stripOptional.OfObjects := .record (by decide)
    have hn : (optional bottom).stripOptional.OfObjects := .bottom
    simp [xs, ha, hb, hn]
  refine ⟨hxs, ⟨record [("a", int)], by simp [xs], nofun⟩, hfold, ?_⟩
  rintro ⟨f, hf, hkeys⟩
  rw [hfold] at hf
  cases hf
  exact absurd hkeys (by decide)

end Shape

end JsonShape
