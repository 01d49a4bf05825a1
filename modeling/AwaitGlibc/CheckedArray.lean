import Mathlib.Data.List.Lemmas
import Mathlib.Tactic.Common

/-!
# Arrays whose accesses are checked

A C array is a list of cells, each either written or not. A store outside the
array, a load outside it and a load of a cell that nothing has written stop the
run with the fault they are; no access is repaired. Capacity is the length of
the list and never changes, so a sequence of stores made from the front either
fits as a whole or stops at the first cell past the end.
-/
namespace AwaitGlibc

theorem ok_bind {ε α β : Type} (a : α) (f : α → Except ε β) : (.ok a >>= f) = f a := rfl

namespace CheckedArray

inductive Fault where
  | storeOutside (size index : ℕ)
  | loadOutside (size index : ℕ)
  | loadUnwritten (index : ℕ)
  | nullPointer
  | unsetField
  | outOfFuel
deriving DecidableEq, Repr

/-- How a run can stop short: an assertion that fails, an error the program itself
ends with or an access outside the meaning of the language. -/
inductive Stop where
  | assertion
  | fatal
  | fault (f : Fault)
deriving DecidableEq, Repr

theorem ok_of_bind {ε α β : Type} {x : Except ε α} {f : α → Except ε β} {b : β}
    (h : x >>= f = .ok b) : ∃ a, x = .ok a ∧ f a = .ok b := by
  cases x with
  | error e => cases h
  | ok a => exact ⟨a, rfl, h⟩

structure Block (α : Type) where
  cells : List (Option α)
deriving DecidableEq, Repr

namespace Block
variable {α : Type}

/-- Fresh memory: no cell has been written. -/
def alloc (size : ℕ) : Block α := ⟨List.replicate size none⟩

/-- Memory cleared by its allocation or by an initializer. -/
def filled (size : ℕ) (a : α) : Block α := ⟨List.replicate size (some a)⟩

def size (b : Block α) : ℕ := b.cells.length

def store (b : Block α) (i : ℕ) (a : α) : Except Fault (Block α) :=
  if i < b.size then .ok ⟨b.cells.set i (some a)⟩ else .error (.storeOutside b.size i)

def load (b : Block α) (i : ℕ) : Except Fault α :=
  match b.cells[i]? with
  | some (some a) => .ok a
  | some none => .error (.loadUnwritten i)
  | none => .error (.loadOutside b.size i)

/-- A block of another size with the old cells in front; cells added are not
written. -/
def realloc (b : Block α) (size : ℕ) : Block α :=
  ⟨b.cells.take size ++ List.replicate (size - b.cells.length) none⟩

/-- Consecutive stores from index `i` on, the shape of `memcpy` and `strncpy`. -/
def storeAll : Block α → ℕ → List α → Except Fault (Block α)
  | b, _, [] => .ok b
  | b, i, a :: as => do
      let b ← b.store i a
      storeAll b (i + 1) as

def loadAll (b : Block α) : ℕ → ℕ → Except Fault (List α)
  | _, 0 => .ok []
  | i, n + 1 => do
      let a ← b.load i
      let as ← b.loadAll (i + 1) n
      return a :: as

/-- Loads cell after cell; the index, counted from `i`, of the first value that
`stop` accepts. -/
def scanCells (stop : α → Bool) (size : ℕ) : List (Option α) → ℕ → Except Fault ℕ
  | [], i => .error (.loadOutside size i)
  | none :: _, i => .error (.loadUnwritten i)
  | some a :: cells, i => if stop a then .ok i else scanCells stop size cells (i + 1)

def scan (b : Block α) (stop : α → Bool) (i : ℕ) : Except Fault ℕ :=
  scanCells stop b.size (b.cells.drop i) i

@[simp] theorem size_alloc (n : ℕ) : (alloc n : Block α).size = n := by simp [alloc, size]

@[simp] theorem size_filled (n : ℕ) (a : α) : (filled n a).size = n := by simp [filled, size]

variable {b : Block α} {i : ℕ}

theorem store_of_lt (h : i < b.size) (a : α) :
    b.store i a = .ok ⟨b.cells.set i (some a)⟩ := by
  rw [store, if_pos h]

theorem store_of_le (h : b.size ≤ i) (a : α) :
    b.store i a = .error (.storeOutside b.size i) := by
  rw [store, if_neg (by omega)]

variable {a : α}

theorem size_of_store {c : Block α} (h : b.store i a = .ok c) :
    c.size = b.size := by
  unfold store at h
  split_ifs at h
  cases h
  simp [size]

/-- A run of stores succeeds exactly when its last cell is inside the array;
an empty run stores nothing and always succeeds. -/
theorem storeAll_isOk (b : Block α) (i : ℕ) (as : List α) :
    (∃ c, b.storeAll i as = .ok c) ↔ as = [] ∨ i + as.length ≤ b.size := by
  induction as generalizing b i with
  | nil => simp [storeAll]
  | cons a as ih =>
    simp only [storeAll, List.length_cons, reduceCtorEq, false_or]
    by_cases h : i < b.size
    · rw [store_of_lt h]
      have hs : (⟨b.cells.set i (some a)⟩ : Block α).size = b.size := by simp [size]
      change (∃ c, storeAll _ _ _ = _) ↔ _
      rw [ih, hs]
      constructor
      · rintro (rfl | h')
        · exact h
        · omega
      · intro h'
        exact .inr (by omega)
    · rw [store_of_le (by omega)]
      constructor
      · rintro ⟨c, hc⟩
        cases hc
      · intro h'
        omega

theorem storeAll_append (b : Block α) (i : ℕ) (as cs : List α) :
    b.storeAll i (as ++ cs) = b.storeAll i as >>= fun c => c.storeAll (i + as.length) cs := by
  induction as generalizing b i with
  | nil => simp [storeAll, bind, Except.bind]
  | cons a as ih =>
    simp only [List.cons_append, storeAll, bind_assoc, ih, List.length_cons]
    congr
    funext c
    rw [Nat.add_right_comm i 1, Nat.add_assoc]

theorem storeAll_singleton (b : Block α) (i : ℕ) (a : α) : b.storeAll i [a] = b.store i a := by
  unfold storeAll
  cases b.store i a <;> rfl

variable {as : List α}

theorem size_of_storeAll {c : Block α} (h : b.storeAll i as = .ok c) : c.size = b.size := by
  induction as generalizing b i with
  | nil => cases h; rfl
  | cons a as ih =>
    obtain ⟨d, hstore, h⟩ := ok_of_bind h
    exact (ih h).trans (size_of_store hstore)

/-- An array filled from the front: `written` holds its values so far. -/
def ofWritten (n : ℕ) (written : List α) : Block α :=
  ⟨written.map some ++ List.replicate (n - written.length) none⟩

theorem alloc_eq_ofWritten (n : ℕ) : (alloc n : Block α) = ofWritten n [] := by
  simp [alloc, ofWritten]

variable {n : ℕ} {written : List α}

theorem size_ofWritten (h : written.length ≤ n) :
    (ofWritten n written).size = n := by
  simp [ofWritten, size]
  omega

theorem realloc_ofWritten {m : ℕ} (hn : written.length ≤ n)
    (hm : written.length ≤ m) : (ofWritten n written).realloc m = ofWritten m written := by
  simp only [realloc, ofWritten, Block.mk.injEq, List.length_append, List.length_map,
    List.length_replicate]
  rw [List.take_append, List.take_of_length_le (by simpa using hm), List.take_replicate,
    List.append_assoc, List.replicate_append_replicate, List.length_map]
  congr 2
  omega

theorem store_ofWritten (written : List α) (h : written.length < n) (a : α) :
    (ofWritten n written).store written.length a = .ok (ofWritten n (written ++ [a])) := by
  rw [store_of_lt (by rw [size_ofWritten h.le]; exact h)]
  have hn : n - written.length = (n - (written ++ [a]).length) + 1 := by
    rw [List.length_append, List.length_singleton]
    omega
  simp only [ofWritten, hn, List.replicate_succ, Except.ok.injEq, Block.mk.injEq]
  simp

theorem store_ofWritten_full (written : List α) (h : written.length = n) (a : α) :
    (ofWritten n written).store written.length a = .error (.storeOutside n n) := by
  rw [store_of_le (by rw [size_ofWritten h.le]; exact h.ge), size_ofWritten h.le, h]

theorem load_ofWritten (h : written[i]? = some a) : (ofWritten n written).load i = .ok a := by
  obtain ⟨hi, ha⟩ := List.getElem?_eq_some_iff.mp h
  have hc : (ofWritten n written).cells[i]? = some (some a) := by
    rw [ofWritten, List.getElem?_append_left (by simpa using hi)]
    simp [h]
  simp [load, hc]

theorem load_ofWritten_past
    (h : written.length ≤ i) : ∃ f, (ofWritten n written).load i = .error f := by
  have hc : ∀ a, (ofWritten n written).cells[i]? ≠ some (some a) := by
    intro a
    rw [ofWritten, List.getElem?_append_right (by simpa using h), List.getElem?_replicate]
    split_ifs <;> simp
  unfold load
  split
  next a ha => exact (hc a ha).elim
  next => exact ⟨_, rfl⟩
  next => exact ⟨_, rfl⟩

theorem loadAll_ofWritten {rest : List α}
    (h : written.drop i = as ++ rest) : (ofWritten n written).loadAll i as.length = .ok as := by
  induction as generalizing i with
  | nil => rfl
  | cons a as ih =>
    have hload : written[i]? = some a := by
      rw [← List.head?_drop, h]
      rfl
    have hnext : written.drop (i + 1) = as ++ rest := by
      rw [← List.tail_drop, h]
      rfl
    rw [List.length_cons, loadAll, load_ofWritten hload]
    simp only [bind, Except.bind, ih hnext]
    rfl

theorem scanCells_map {stop : α → Bool} {pre : List α}
    (hpre : ∀ x ∈ pre, stop x = false) (ha : stop a = true) (cells : List (Option α)) (size i : ℕ) :
    scanCells stop size (pre.map some ++ some a :: cells) i = .ok (i + pre.length) := by
  induction pre generalizing i with
  | nil => simp [scanCells, ha]
  | cons x pre ih =>
    rw [List.map_cons, List.cons_append, scanCells, hpre x List.mem_cons_self]
    simp only [Bool.false_eq_true, if_false]
    rw [ih fun y hy => hpre y (List.mem_cons_of_mem x hy), List.length_cons]
    congr 1
    omega

theorem scan_ofWritten {pre post : List α} {stop : α → Bool}
    (h : written.drop i = pre ++ a :: post) (hpre : ∀ x ∈ pre, stop x = false)
    (ha : stop a = true) : (ofWritten n written).scan stop i = .ok (i + pre.length) := by
  have hi : i ≤ written.length := by
    by_contra hlt
    rw [List.drop_eq_nil_of_le (by omega)] at h
    simp at h
  unfold scan ofWritten
  rw [List.drop_append_of_le_length (by simpa using hi), ← List.map_drop, h, List.map_append,
    List.map_cons, List.append_assoc]
  exact scanCells_map hpre ha _ _ i

theorem scanCells_bounds {stop : α → Bool} {size j : ℕ} {cells : List (Option α)}
    (h : scanCells stop size cells i = .ok j) : i ≤ j ∧ j < i + cells.length := by
  induction cells generalizing i with
  | nil => cases h
  | cons c cells ih =>
    cases c with
    | none => cases h
    | some a =>
      rw [List.length_cons]
      unfold scanCells at h
      split_ifs at h
      · cases h
        omega
      · have := ih h
        omega

theorem scan_bounds {stop : α → Bool} {j : ℕ} (h : b.scan stop i = .ok j) : i ≤ j ∧ j < b.size := by
  have hbounds := scanCells_bounds h
  rw [List.length_drop] at hbounds
  unfold size
  omega

theorem storeAll_eq (h : i + as.length ≤ b.size) :
    b.storeAll i as = .ok ⟨b.cells.take i ++ as.map some ++ b.cells.drop (i + as.length)⟩ := by
  induction as generalizing b i with
  | nil => simp [storeAll]
  | cons a as ih =>
    rw [List.length_cons] at h
    have hi : i < b.cells.length := by unfold size at h; omega
    rw [storeAll, store_of_lt hi]
    change Block.storeAll ⟨b.cells.set i (some a)⟩ (i + 1) as = _
    rw [ih (by unfold size at h ⊢; rw [List.length_set]; omega)]
    congr 2
    dsimp only
    rw [List.take_add_one, List.take_set_of_le le_rfl, List.drop_set_of_lt (by omega)]
    simp [hi, Nat.add_comm, Nat.add_left_comm]

/-- Stores that do not write `a` leave it, at most, behind them. -/
theorem load_ne_of_storeAll {c : Block α} {j : ℕ} (h : b.storeAll i as = .ok c) (ha : a ∉ as)
    (hj : i ≤ j) (hrest : i + as.length ≤ j → b.load j ≠ .ok a) : c.load j ≠ .ok a := by
  rcases (storeAll_isOk b i as).mp ⟨c, h⟩ with rfl | hle
  · cases h
    exact hrest hj
  rw [storeAll_eq hle, Except.ok.injEq] at h
  subst h
  have htake : (b.cells.take i).length = i := by
    rw [List.length_take]
    unfold size at hle
    omega
  unfold load at hrest ⊢
  dsimp only
  rw [List.append_assoc, List.getElem?_append_right (by omega), htake]
  by_cases hlt : j - i < as.length
  · rw [List.getElem?_append_left (by simpa using hlt), List.getElem?_map,
      List.getElem?_eq_getElem hlt]
    intro heq
    exact ha (Except.ok.inj heq ▸ List.getElem_mem hlt)
  · rw [List.getElem?_append_right (by simpa using hlt), List.length_map, List.getElem?_drop,
      show i + as.length + (j - i - as.length) = j by omega]
    have hbehind := hrest (by omega)
    intro heq
    split at heq
    next x hx => exact hbehind (by rw [hx, Except.ok.inj heq])
    next => cases heq
    next => cases heq

theorem storeAll_ofWritten (hn : written.length ≤ n) (h : i + as.length ≤ written.length) :
    (ofWritten n written).storeAll i as =
      .ok (ofWritten n (written.take i ++ as ++ written.drop (i + as.length))) := by
  have hlength : (written.take i ++ as ++ written.drop (i + as.length)).length = written.length := by
    simp only [List.length_append, List.length_take, List.length_drop]
    omega
  rw [storeAll_eq (by rw [size_ofWritten hn]; omega), ofWritten, ofWritten, hlength,
    List.take_append_of_le_length (by rw [List.length_map]; omega),
    List.drop_append_of_le_length (by rw [List.length_map]; omega)]
  simp

end Block

end CheckedArray

end AwaitGlibc
