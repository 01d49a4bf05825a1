import Mathlib

/-! Merge sort with a comparison that has a state of its own. Whatever the comparison
answers, the result is a permutation; where its answers come from a total preorder, the
result is sorted and equivalent elements keep their order. -/
namespace AwaitGlibc.StatefulMerge

variable {α β σ : Type}

/-- Two elements are compared in a state; the answer is a sign. -/
abbrev Compare (α σ : Type) := α → α → σ → ℤ × σ

section Definitions

variable (cmp : Compare α σ)

/-- The first list wins where the answer is not positive. -/
def mergeBy : List α → List α → σ → List α × σ
  | [], ys, st => (ys, st)
  | x :: xs, [], st => (x :: xs, st)
  | x :: xs, y :: ys, st =>
    let answer := cmp x y st
    if answer.1 ≤ 0 then
      let rest := mergeBy xs (y :: ys) answer.2
      (x :: rest.1, rest.2)
    else
      let rest := mergeBy (x :: xs) ys answer.2
      (y :: rest.1, rest.2)
termination_by xs ys => xs.length + ys.length

/-- The halves are sorted from left to right, then merged. -/
def sortBy (xs : List α) (st : σ) : List α × σ :=
  if _h : xs.length ≤ 1 then (xs, st)
  else
    let left := sortBy (xs.take (xs.length / 2)) st
    let right := sortBy (xs.drop (xs.length / 2)) left.2
    mergeBy cmp left.1 right.1 right.2
termination_by xs.length
decreasing_by
  · rw [List.length_take]
    omega
  · rw [List.length_drop]
    omega

end Definitions

variable {cmp : Compare α σ}

@[simp] theorem mergeBy_nil_right (xs : List α) (st : σ) : mergeBy cmp xs [] st = (xs, st) := by
  cases xs <;> rw [mergeBy]

variable {xs : List α} {st : σ}

theorem mergeBy_of_le {x y : α} {ys : List α} (h : (cmp x y st).1 ≤ 0) :
    mergeBy cmp (x :: xs) (y :: ys) st =
      Prod.map (x :: ·) id (mergeBy cmp xs (y :: ys) (cmp x y st).2) := by
  rw [mergeBy, if_pos h]
  rfl

theorem mergeBy_of_gt {x y : α} {ys : List α} (h : ¬(cmp x y st).1 ≤ 0) :
    mergeBy cmp (x :: xs) (y :: ys) st =
      Prod.map (y :: ·) id (mergeBy cmp (x :: xs) ys (cmp x y st).2) := by
  rw [mergeBy, if_neg h]
  rfl

theorem sortBy_of_short (h : xs.length ≤ 1) (st : σ) : sortBy cmp xs st = (xs, st) := by
  rw [sortBy, dif_pos h]

theorem sortBy_of_long (h : ¬xs.length ≤ 1) (st : σ) :
    sortBy cmp xs st =
      let left := sortBy cmp (xs.take (xs.length / 2)) st
      let right := sortBy cmp (xs.drop (xs.length / 2)) left.2
      mergeBy cmp left.1 right.1 right.2 := by
  rw [sortBy, dif_neg h]

/-! ### Any comparison -/

theorem mergeBy_perm (xs ys : List α) (st : σ) : (mergeBy cmp xs ys st).1.Perm (xs ++ ys) := by
  induction xs, ys, st using mergeBy.induct cmp with
  | case1 ys st => rw [mergeBy, List.nil_append]
  | case2 x xs st => rw [mergeBy, List.append_nil]
  | case3 x xs y ys st answer hle ih =>
    rw [mergeBy_of_le hle]
    exact ih.cons x
  | case4 x xs y ys st answer hgt ih =>
    rw [mergeBy_of_gt hgt]
    exact (ih.cons y).trans List.perm_middle.symm

theorem sortBy_perm (xs : List α) (st : σ) : (sortBy cmp xs st).1.Perm xs := by
  induction xs, st using sortBy.induct cmp with
  | case1 xs st hshort => rw [sortBy_of_short hshort]
  | case2 xs st hlong left ihleft ihright =>
    rw [sortBy_of_long hlong]
    have hhalves := ihleft.append ihright
    rw [List.take_append_drop] at hhalves
    exact (mergeBy_perm _ _ _).trans hhalves

theorem mergeBy_map (f : β → α) (xs ys : List β) (st : σ) :
    mergeBy cmp (xs.map f) (ys.map f) st =
      Prod.map (List.map f) id (mergeBy (fun x y => cmp (f x) (f y)) xs ys st) := by
  induction xs, ys, st using mergeBy.induct (fun x y => cmp (f x) (f y)) with
  | case1 ys st => rw [List.map_nil, mergeBy, mergeBy, Prod.map_apply, id]
  | case2 x xs st => rw [List.map_nil, mergeBy_nil_right, mergeBy_nil_right, Prod.map_apply, id]
  | case3 x xs y ys st answer hle ih =>
    rw [List.map_cons, List.map_cons] at *
    have hright : mergeBy (fun x y => cmp (f x) (f y)) (x :: xs) (y :: ys) st = _ :=
      mergeBy_of_le hle
    rw [mergeBy_of_le hle, ih, hright]
    rfl
  | case4 x xs y ys st answer hgt ih =>
    rw [List.map_cons, List.map_cons] at *
    have hright : mergeBy (fun x y => cmp (f x) (f y)) (x :: xs) (y :: ys) st = _ :=
      mergeBy_of_gt hgt
    rw [mergeBy_of_gt hgt, ih, hright]
    rfl

theorem sortBy_map (f : β → α) (xs : List β) (st : σ) :
    sortBy cmp (xs.map f) st =
      Prod.map (List.map f) id (sortBy (fun x y => cmp (f x) (f y)) xs st) := by
  induction xs, st using sortBy.induct (fun x y => cmp (f x) (f y)) with
  | case1 xs st hshort =>
    rw [sortBy_of_short hshort, sortBy_of_short (by rwa [List.length_map])]
    rfl
  | case2 xs st hlong left ihleft ihright =>
    rw [sortBy_of_long (by rwa [List.length_map]), sortBy_of_long hlong]
    simp only [List.length_map, ← List.map_take, ← List.map_drop, ihleft, Prod.map_fst,
      Prod.map_snd, id]
    rw [ihright]
    exact mergeBy_map f _ _ _

/-! ### A total preorder -/

/-- On the elements of a set the answers come from a total preorder. -/
structure Orders (cmp : Compare α σ) (le : α → α → Prop) (elements : Set α) : Prop where
  answer : ∀ x ∈ elements, ∀ y ∈ elements, ∀ st, (cmp x y st).1 ≤ 0 ↔ le x y
  total : ∀ x ∈ elements, ∀ y ∈ elements, le x y ∨ le y x
  trans : ∀ x ∈ elements, ∀ y ∈ elements, ∀ z ∈ elements, le x y → le y z → le x z

def Equivalent (le : α → α → Prop) (x y : α) : Prop := le x y ∧ le y x

/-- The elements with a property that only equivalent elements share stand in the order in which
they stood before. -/
def KeepsOrder (le : α → α → Prop) (before after : List α) : Prop :=
  ∀ p : α → Bool, (∀ x ∈ before, ∀ y ∈ before, p x → p y → Equivalent le x y) →
    after.filter p = before.filter p

variable {le : α → α → Prop} {elements : Set α}

theorem mergeBy_sorted (h : Orders cmp le elements) (xs ys : List α) (st : σ)
    (hx : ∀ x ∈ xs, x ∈ elements) (hy : ∀ y ∈ ys, y ∈ elements) (hxs : xs.Pairwise le)
    (hys : ys.Pairwise le) : (mergeBy cmp xs ys st).1.Pairwise le := by
  induction xs, ys, st using mergeBy.induct cmp with
  | case1 ys st => rwa [mergeBy]
  | case2 x xs st => rwa [mergeBy]
  | case3 x xs y ys st answer hle ih =>
    have hx' := List.forall_mem_cons.mp hx
    have hy' := List.forall_mem_cons.mp hy
    rw [mergeBy_of_le hle]
    rw [List.pairwise_cons] at hxs
    apply List.Pairwise.cons _ (ih hx'.2 hy hxs.2 hys)
    have hxy : le x y := (h.answer x hx'.1 y hy'.1 st).mp hle
    intro z hz
    cases List.mem_append.mp ((mergeBy_perm _ _ _).mem_iff.mp hz) with
    | inl hz => exact hxs.1 z hz
    | inr hz =>
      cases List.mem_cons.mp hz with
      | inl hzy => rwa [hzy]
      | inr hz =>
        exact h.trans x hx'.1 y hy'.1 z (hy'.2 z hz) hxy ((List.pairwise_cons.mp hys).1 z hz)
  | case4 x xs y ys st answer hgt ih =>
    have hx' := List.forall_mem_cons.mp hx
    have hy' := List.forall_mem_cons.mp hy
    rw [mergeBy_of_gt hgt]
    rw [List.pairwise_cons] at hys
    apply List.Pairwise.cons _ (ih hx hy'.2 hxs hys.2)
    have hyx : le y x :=
      (h.total x hx'.1 y hy'.1).resolve_left (mt (h.answer x hx'.1 y hy'.1 st).mpr hgt)
    intro z hz
    cases List.mem_append.mp ((mergeBy_perm _ _ _).mem_iff.mp hz) with
    | inl hz =>
      cases List.mem_cons.mp hz with
      | inl hzx => rwa [hzx]
      | inr hz =>
        exact h.trans y hy'.1 x hx'.1 z (hx'.2 z hz) hyx ((List.pairwise_cons.mp hxs).1 z hz)
    | inr hz => exact hys.1 z hz

theorem mem_of_mem_sortBy (hx : ∀ x ∈ xs, x ∈ elements) :
    ∀ x ∈ (sortBy cmp xs st).1, x ∈ elements :=
  fun x hmem => hx x ((sortBy_perm xs st).mem_iff.mp hmem)

theorem forall_mem_halves {xs : List α} {p : α → Prop} (h : ∀ x ∈ xs, p x) :
    (∀ x ∈ xs.take (xs.length / 2), p x) ∧ ∀ x ∈ xs.drop (xs.length / 2), p x :=
  ⟨fun x hmem => h x (List.mem_of_mem_take hmem), fun x hmem => h x (List.mem_of_mem_drop hmem)⟩

theorem sortBy_sorted (h : Orders cmp le elements) (xs : List α) (st : σ)
    (hx : ∀ x ∈ xs, x ∈ elements) : (sortBy cmp xs st).1.Pairwise le := by
  induction xs, st using sortBy.induct cmp with
  | case1 xs st hshort =>
    rw [sortBy_of_short hshort]
    match xs, hshort with
    | [], _ => exact .nil
    | [x], _ => exact List.pairwise_singleton le x
  | case2 xs st hlong left ihleft ihright =>
    rw [sortBy_of_long hlong]
    obtain ⟨hleft, hright⟩ := forall_mem_halves hx
    exact mergeBy_sorted h _ _ _ (mem_of_mem_sortBy hleft) (mem_of_mem_sortBy hright)
      (ihleft hleft) (ihright hright)

section
variable {p : α → Bool} (h : Orders cmp le elements)
  (hp : ∀ x ∈ elements, ∀ y ∈ elements, p x → p y → Equivalent le x y)
include h hp

/-- Among equivalent elements the merge takes those of the first list first. -/
theorem mergeBy_filter (xs ys : List α) (st : σ)
    (hx : ∀ x ∈ xs, x ∈ elements) (hy : ∀ y ∈ ys, y ∈ elements) (hxs : xs.Pairwise le) :
    (mergeBy cmp xs ys st).1.filter p = xs.filter p ++ ys.filter p := by
  induction xs, ys, st using mergeBy.induct cmp with
  | case1 ys st => rw [mergeBy, List.filter_nil, List.nil_append]
  | case2 x xs st => rw [mergeBy, List.filter_nil, List.append_nil]
  | case3 x xs y ys st answer hle ih =>
    have hx' := List.forall_mem_cons.mp hx
    rw [mergeBy_of_le hle]
    change (x :: (mergeBy cmp xs (y :: ys) answer.2).1).filter p = _
    rw [List.filter_cons, ih hx'.2 hy (List.pairwise_cons.mp hxs).2, List.filter_cons (x := x)]
    split_ifs <;> rfl
  | case4 x xs y ys st answer hgt ih =>
    have hx' := List.forall_mem_cons.mp hx
    have hy' := List.forall_mem_cons.mp hy
    rw [mergeBy_of_gt hgt]
    change (y :: (mergeBy cmp (x :: xs) ys answer.2).1).filter p = _
    rw [List.filter_cons, ih hx hy'.2 hxs, List.filter_cons (x := y)]
    split_ifs with hpy
    · -- everything in the first list comes strictly after `y`
      have hnone : (x :: xs).filter p = [] := by
        apply List.filter_eq_nil_iff.mpr
        intro z hz hpz
        have hxz : le x z := by
          cases List.mem_cons.mp hz with
          | inl hzx => exact hzx ▸ (hp z (hx z hz) z (hx z hz) hpz hpz).1
          | inr hz => exact (List.pairwise_cons.mp hxs).1 z hz
        have hzy : le z y := (hp z (hx z hz) y hy'.1 hpz hpy).1
        have hxy : le x y := h.trans x hx'.1 z (hx z hz) y hy'.1 hxz hzy
        exact hgt ((h.answer x hx'.1 y hy'.1 st).mpr hxy)
      rw [hnone, List.nil_append, List.nil_append]
    · rfl

theorem sortBy_filter (xs : List α) (st : σ)
    (hx : ∀ x ∈ xs, x ∈ elements) : (sortBy cmp xs st).1.filter p = xs.filter p := by
  induction xs, st using sortBy.induct cmp with
  | case1 xs st hshort => rw [sortBy_of_short hshort]
  | case2 xs st hlong left ihleft ihright =>
    rw [sortBy_of_long hlong]
    obtain ⟨hleft, hright⟩ := forall_mem_halves hx
    have hmerged := mergeBy_filter h hp left.1 (sortBy cmp (xs.drop (xs.length / 2)) left.2).1
      (sortBy cmp (xs.drop (xs.length / 2)) left.2).2 (mem_of_mem_sortBy hleft)
      (mem_of_mem_sortBy hright) (sortBy_sorted h _ _ hleft)
    rw [ihleft hleft, ihright hright, ← List.filter_append, List.take_append_drop] at hmerged
    exact hmerged

end

theorem sortBy_keepsOrder (xs : List α) (st : σ) (h : Orders cmp le {x | x ∈ xs}) :
    KeepsOrder le xs (sortBy cmp xs st).1 := by
  intro p hp
  exact sortBy_filter h hp xs st fun x hx => hx

end AwaitGlibc.StatefulMerge
