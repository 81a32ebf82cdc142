import JsonShape.Proofs.Shape.Join

/-!
# What a fold depends on

The join of a list of constructible shapes is their least upper bound (`within_fold`,
`fold_within`). Least upper bounds are determined up to the order of fields, so the fold of a list
depends only on which shapes are in it, up to reordering, and not on their order or on how often
they occur; in the same way the join is commutative, associative and idempotent, and respects
reorderings (`fold_reordering`).
-/

namespace JsonShape.Shape

/-- Joining constructible shapes to a constructible one gives a constructible one. -/
theorem constructible_foldl_join {a : Shape} {xs : List Shape} (ha : a.Constructible)
    (hxs : ∀ x ∈ xs, x.Constructible) : (xs.foldl join a).Constructible := by
  induction xs generalizing a with
  | nil => exact ha
  | cons x xs ih =>
    rw [List.forall_mem_cons] at hxs
    exact ih (ha.join hxs.1) hxs.2

/-- The fold of constructible shapes is constructible. -/
theorem constructible_fold {xs : List Shape} (hxs : ∀ x ∈ xs, x.Constructible) :
    (fold xs).Constructible :=
  constructible_foldl_join trivial hxs

/-- Joining constructible shapes of distinct keys to another one gives a shape of distinct keys. -/
theorem distinctKeys_foldl_join {a : Shape} {xs : List Shape} (ca : a.Constructible)
    (ha : a.DistinctKeys) (cxs : ∀ x ∈ xs, x.Constructible) (hxs : ∀ x ∈ xs, x.DistinctKeys) :
    (xs.foldl join a).DistinctKeys := by
  induction xs generalizing a with
  | nil => exact ha
  | cons x xs ih =>
    rw [List.forall_mem_cons] at cxs hxs
    exact ih (ca.join cxs.1) (ha.join hxs.1 ca cxs.1) cxs.2 hxs.2

/-- The fold of constructible shapes of distinct keys has distinct keys. -/
theorem distinctKeys_fold {xs : List Shape} (cxs : ∀ x ∈ xs, x.Constructible)
    (hxs : ∀ x ∈ xs, x.DistinctKeys) : (fold xs).DistinctKeys :=
  distinctKeys_foldl_join trivial trivial cxs hxs

/-- Whatever is joined to a shape, the shape and all that is joined to it lie within the result. -/
theorem within_foldl_join {a : Shape} {xs : List Shape} (ha : a.Constructible)
    (hxs : ∀ x ∈ xs, x.Constructible) :
    a.Within (xs.foldl join a) ∧ ∀ x ∈ xs, x.Within (xs.foldl join a) := by
  induction xs generalizing a with
  | nil => exact ⟨.refl a, fun x hx => nomatch hx⟩
  | cons x xs ih =>
    rw [List.forall_mem_cons] at hxs ⊢
    obtain ⟨hax, hxx⟩ := within_join ha hxs.1
    obtain ⟨hj, hrest⟩ := ih (ha.join hxs.1) hxs.2
    exact ⟨hax.trans hj, hxx.trans hj, hrest⟩

/-- Every shape of a list lies within the fold of the list. -/
theorem within_fold {xs : List Shape} (hxs : ∀ x ∈ xs, x.Constructible) {x : Shape}
    (hx : x ∈ xs) : x.Within (fold xs) :=
  (within_foldl_join (a := bottom) trivial hxs).2 x hx

/-- What a shape lies within, and all that is joined to it, also the result lies within. -/
theorem foldl_join_within {a c : Shape} {xs : List Shape} (ha : a.Constructible)
    (hxs : ∀ x ∈ xs, x.Constructible) (hac : a.Within c) (hxc : ∀ x ∈ xs, x.Within c) :
    (xs.foldl join a).Within c := by
  induction xs generalizing a with
  | nil => exact hac
  | cons x xs ih =>
    rw [List.forall_mem_cons] at hxs hxc
    exact ih (ha.join hxs.1) hxs.2 (join_within ha hxs.1 hac hxc.1) hxc.2

/-- The fold of a list lies within whatever all shapes of the list lie within. -/
theorem fold_within {c : Shape} {xs : List Shape} (hxs : ∀ x ∈ xs, x.Constructible)
    (hxc : ∀ x ∈ xs, x.Within c) : (fold xs).Within c :=
  foldl_join_within trivial hxs (.bottom c) hxc

/-- With distinct keys, every shape of a list is below the fold of the list. -/
theorem le_fold {xs : List Shape} (hxs : ∀ x ∈ xs, x.Constructible ∧ x.DistinctKeys) {x : Shape}
    (hx : x ∈ xs) : x ≤ fold xs :=
  have hc := fun x hx => (hxs x hx).1
  (within_fold hc hx).le (hxs x hx).2 (distinctKeys_fold hc fun x hx => (hxs x hx).2)

/-- With distinct keys, the fold of a list is below whatever all shapes of the list are below. -/
theorem fold_le {c : Shape} {xs : List Shape} (hc : c.DistinctKeys)
    (hxs : ∀ x ∈ xs, x.Constructible ∧ x.DistinctKeys) (hxc : ∀ x ∈ xs, x ≤ c) : fold xs ≤ c := by
  have hcon := fun x hx => (hxs x hx).1
  have hdis := fun x hx => (hxs x hx).2
  have h := fold_within hcon fun x hx => (hxc x hx).within (hdis x hx) hc
  exact h.le (distinctKeys_fold hcon hdis) hc

/-- The fold of a list lies within that of another one in which each of its shapes occurs, up to
reordering. -/
theorem fold_within_fold {xs ys : List Shape} (hxs : ∀ x ∈ xs, x.Constructible)
    (hys : ∀ y ∈ ys, y.Constructible) (h : ∀ x ∈ xs, ∃ y ∈ ys, Reordering x y) :
    (fold xs).Within (fold ys) := by
  refine fold_within hxs fun x hx => ?_
  obtain ⟨y, hy, hxy⟩ := h x hx
  exact hxy.within.trans (within_fold hys hy)

/-- Joining smaller shapes gives a smaller shape. -/
theorem join_within_join {a b a' b' : Shape} (ha : a.Constructible) (hb : b.Constructible)
    (ha' : a'.Constructible) (hb' : b'.Constructible) (haa : a.Within a') (hbb : b.Within b') :
    (a.join b).Within (a'.join b') := by
  obtain ⟨hl, hr⟩ := within_join ha' hb'
  exact join_within ha hb (haa.trans hl) (hbb.trans hr)

/-- The join of two shapes lies within their join the other way round. -/
theorem join_within_swap {a b : Shape} (ha : a.Constructible) (hb : b.Constructible) :
    (a.join b).Within (b.join a) := by
  obtain ⟨hb', ha'⟩ := within_join hb ha
  exact join_within ha hb ha' hb'

/-- Three shapes may be joined from the left or from the right. -/
theorem reordering_join_assoc {a b c : Shape} (ha : a.Constructible) (hb : b.Constructible)
    (hc : c.Constructible) : Reordering ((a.join b).join c) (a.join (b.join c)) := by
  obtain ⟨a_ab, b_ab⟩ := within_join ha hb
  obtain ⟨b_bc, c_bc⟩ := within_join hb hc
  obtain ⟨ab_l, c_l⟩ := within_join (ha.join hb) hc
  obtain ⟨a_r, bc_r⟩ := within_join ha (hb.join hc)
  refine Within.antisymm ?_ ?_
  · exact join_within (ha.join hb) hc (join_within ha hb a_r (b_bc.trans bc_r)) (c_bc.trans bc_r)
  · exact join_within ha (hb.join hc) (a_ab.trans ab_l) (join_within hb hc (b_ab.trans ab_l) c_l)

/-- Records that have the same shapes of every key, in the same order, are reorderings. -/
theorem reordering_of_values_eq {f g : Fields} (h : ∀ key, f.values key = g.values key) :
    Reordering (record f) (record g) := by
  refine .record (fun key => by rw [h]) (fun key i a b ha hb => ?_)
  rw [h, hb] at ha
  cases ha
  exact (Within.refl a).antisymm (.refl a)

/-- Up to the order of fields, a fold depends only on which shapes are folded, and the join is
commutative, associative and idempotent and respects reorderings on both sides. -/
theorem fold_reordering :
    (∀ xs ys : List Shape, (∀ x ∈ xs, x.Constructible) → (∀ y ∈ ys, y.Constructible) →
      (∀ x ∈ xs, ∃ y ∈ ys, Reordering x y) → (∀ y ∈ ys, ∃ x ∈ xs, Reordering y x) →
      Reordering (fold xs) (fold ys)) ∧
    (∀ a b : Shape, a.Constructible → b.Constructible → Reordering (a.join b) (b.join a)) ∧
    (∀ a b c : Shape, a.Constructible → b.Constructible → c.Constructible →
      Reordering ((a.join b).join c) (a.join (b.join c))) ∧
    (∀ a : Shape, Reordering (a.join a) a) ∧
    (∀ a a' b b' : Shape, a.Constructible → a'.Constructible → b.Constructible →
      b'.Constructible → Reordering a a' → Reordering b b' →
      Reordering (a.join b) (a'.join b')) := by
  refine ⟨fun xs ys hxs hys h h' => ?_, fun a b ha hb => ?_, fun a b c => reordering_join_assoc,
    fun a => ?_, fun a a' b b' ha ha' hb hb' haa hbb => ?_⟩
  · exact (fold_within_fold hxs hys h).antisymm (fold_within_fold hys hxs h')
  · exact (join_within_swap ha hb).antisymm (join_within_swap hb ha)
  · rw [join_self]
    exact (Within.refl a).antisymm (.refl a)
  · obtain ⟨h1, h2⟩ := reordering_iff.1 haa
    obtain ⟨h3, h4⟩ := reordering_iff.1 hbb
    exact (join_within_join ha hb ha' hb' h1 h3).antisymm (join_within_join ha' hb' ha hb h2 h4)

/-- Two lists of the same shapes: a record with a repeated key, its fields once in another order,
and null, which occurs once in the one list and twice in the other. -/
theorem fold_reordering_repeated_key :
    let r := record [("a", int), ("b", str), ("a", bool)]
    let r' := record [("a", int), ("a", bool), ("b", str)]
    let null := optional bottom
    (r.Constructible ∧ r'.Constructible ∧ null.Constructible) ∧
      (Reordering r r' ∧ Reordering r' r ∧ Reordering null null) ∧
      Reordering (fold [r, null]) (fold [null, r', null]) := by
  intro r r' null
  have hr : r.Constructible := by simp [r, Constructible, ConstructibleFields]
  have hr' : r'.Constructible := by simp [r', Constructible, ConstructibleFields]
  have hn : null.Constructible := ⟨rfl, trivial⟩
  have hrr : Reordering r r' := reordering_of_values_eq fun key => by
    simp only [Fields.values_cons, Fields.values_nil]
    by_cases ha : "a" = key
    · subst ha; rfl
    · simp only [if_neg ha]
  have hnn : Reordering null null := .optional .bottom
  refine ⟨⟨hr, hr', hn⟩, ⟨hrr, hrr.symm, hnn⟩, ?_⟩
  refine fold_reordering.1 [r, null] [null, r', null] ?_ ?_ ?_ ?_ <;>
    simp [hr, hr', hn, hrr, hrr.symm, hnn]

end JsonShape.Shape
