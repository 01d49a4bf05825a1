import Mathlib.Data.List.Perm.Basic
import Mathlib.Tactic.Common

/-!
# Selection sort on an array

The part of the array still to be sorted is a list. A pass finds the first of its
smallest elements and swaps it with the element in front; the last element needs
no pass of its own.
-/
namespace AwaitGlibc.SelectionSort
variable {α : Type} (key : α → ℕ)

/-- The inner loop from index `j` on: the index of the minimum, given the index
and the value of the smallest element before `j`. -/
def minIndex : List α → ℕ → ℕ → ℕ → ℕ
  | [], _, minIdx, _ => minIdx
  | y :: ys, j, minIdx, minVal =>
    if key y < minVal then minIndex ys (j + 1) j (key y)
    else minIndex ys (j + 1) minIdx minVal

/-- The swap into place: the element that comes to the front and the rest. -/
def swapMin (x : α) (xs : List α) : α × List α :=
  match minIndex key xs 1 0 (key x) with
  | 0 => (x, xs)
  | j + 1 =>
    match xs[j]? with
    | some y => (y, xs.set j x)
    | none => (x, xs)

def passes : ℕ → List α → List α
  | 0, xs => xs
  | _, [] => []
  | n + 1, x :: xs => (swapMin key x xs).1 :: passes n (swapMin key x xs).2

def sort (xs : List α) : List α := passes key (xs.length - 1) xs

/-- The index found is that of a smallest element, which the loop has passed or
which was known before. -/
theorem minIndex_spec (ys : List α) (j minIdx minVal : ℕ) :
    (minIndex key ys j minIdx minVal = minIdx ∧ ∀ y ∈ ys, minVal ≤ key y) ∨
      ∃ i y, minIndex key ys j minIdx minVal = j + i ∧ ys[i]? = some y ∧ key y < minVal ∧
        ∀ z ∈ ys, key y ≤ key z := by
  induction ys generalizing j minIdx minVal with
  | nil => exact .inl ⟨rfl, by simp⟩
  | cons x ys ih =>
    simp only [minIndex]
    by_cases hx : key x < minVal
    · rw [if_pos hx]
      obtain ⟨heq, hall⟩ | ⟨i, y, heq, hy, hlt, hall⟩ := ih (j + 1) j (key x)
      · refine .inr ⟨0, x, by omega, by simp, hx, ?_⟩
        simpa using hall
      · refine .inr ⟨i + 1, y, by omega, by simpa using hy, by omega, ?_⟩
        simp only [List.mem_cons, forall_eq_or_imp]
        exact ⟨by omega, hall⟩
    · rw [if_neg hx]
      obtain ⟨heq, hall⟩ | ⟨i, y, heq, hy, hlt, hall⟩ := ih (j + 1) minIdx minVal
      · refine .inl ⟨heq, ?_⟩
        simp only [List.mem_cons, forall_eq_or_imp]
        exact ⟨by omega, hall⟩
      · refine .inr ⟨i + 1, y, by omega, by simpa using hy, hlt, ?_⟩
        simp only [List.mem_cons, forall_eq_or_imp]
        exact ⟨by omega, hall⟩

theorem cons_set_perm {xs : List α} {j : ℕ} {y : α} (h : xs[j]? = some y) (x : α) :
    (y :: xs.set j x).Perm (x :: xs) := by
  induction xs generalizing j with
  | nil => simp at h
  | cons z zs ih =>
    cases j with
    | zero =>
      simp only [List.getElem?_cons_zero, Option.some.injEq] at h
      subst h
      exact List.Perm.swap x z zs
    | succ j =>
      calc (y :: z :: zs.set j x).Perm (z :: y :: zs.set j x) := List.Perm.swap z y _
        _ |>.Perm (z :: x :: zs) := (ih h).cons z
        _ |>.Perm (x :: z :: zs) := List.Perm.swap x z zs

theorem swapMin_spec (x : α) (xs : List α) :
    ((swapMin key x xs).1 :: (swapMin key x xs).2).Perm (x :: xs) ∧
      ∀ y ∈ x :: xs, key (swapMin key x xs).1 ≤ key y := by
  unfold swapMin
  obtain ⟨heq, hall⟩ | ⟨i, y, heq, hy, hlt, hall⟩ := minIndex_spec key xs 1 0 (key x)
  · rw [heq]
    exact ⟨.refl _, by simpa using hall⟩
  · rw [heq, Nat.add_comm 1 i]
    simp only [hy]
    refine ⟨cons_set_perm hy x, ?_⟩
    simp only [List.mem_cons, forall_eq_or_imp]
    exact ⟨by omega, hall⟩

theorem passes_perm (n : ℕ) (xs : List α) : (passes key n xs).Perm xs := by
  induction n generalizing xs with
  | zero => exact .refl _
  | succ n ih =>
    cases xs with
    | nil => exact .refl _
    | cons x xs => exact ((ih _).cons _).trans (swapMin_spec key x xs).1

theorem passes_sorted (n : ℕ) (xs : List α) (h : xs.length ≤ n + 1) :
    (passes key n xs).Pairwise (key · ≤ key ·) := by
  induction n generalizing xs with
  | zero =>
    match xs, h with
    | [], _ => exact .nil
    | [x], _ => exact List.pairwise_singleton _ x
  | succ n ih =>
    cases xs with
    | nil => exact .nil
    | cons x xs =>
      obtain ⟨hperm, hmin⟩ := swapMin_spec key x xs
      have hlen : (swapMin key x xs).2.length = xs.length := by simpa using hperm.length_eq
      simp only [List.length_cons] at h
      refine List.Pairwise.cons ?_ (ih _ (by omega))
      intro y hy
      have hmem : y ∈ (swapMin key x xs).2 := (passes_perm key n _).mem_iff.mp hy
      exact hmin y (hperm.mem_iff.mp (List.mem_cons_of_mem _ hmem))

theorem sort_perm (xs : List α) : (sort key xs).Perm xs := passes_perm key _ xs

theorem sort_sorted (xs : List α) : (sort key xs).Pairwise (key · ≤ key ·) :=
  passes_sorted key _ xs (by omega)

end AwaitGlibc.SelectionSort
