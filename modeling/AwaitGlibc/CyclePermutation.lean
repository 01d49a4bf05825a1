import Mathlib

/-! An array permuted in place along the cycles of a permutation that is kept in a table
of links, Knuth vol. 3 (2nd ed.) exercise 5.2-10. A link that has been followed points to
its own place from then on. -/
namespace AwaitGlibc.CyclePermutation

variable {α : Type}

/-- A cell and the place that its new contents come from. -/
structure Table (α : Type) where
  link : ℕ → ℕ
  cell : ℕ → α

def Table.settle (T : Table α) (j : ℕ) (x : α) : Table α :=
  ⟨Function.update T.link j j, Function.update T.cell j x⟩

theorem Table.settle_of_ne {T : Table α} {j d : ℕ} {x : α} (h : d ≠ j) :
    (T.settle j x).link d = T.link d ∧ (T.settle j x).cell d = T.cell d :=
  ⟨Function.update_of_ne h _ _, Function.update_of_ne h _ _⟩

theorem Table.settle_self (T : Table α) (j : ℕ) (x : α) :
    (T.settle j x).link j = j ∧ (T.settle j x).cell j = x :=
  ⟨Function.update_self _ _ _, Function.update_self _ _ _⟩

variable (n : ℕ) (σ : ℕ → ℕ) (before : ℕ → α)

/-- Between two cycles, the cells in `rest` are as they were and the others have their new contents. -/
structure Between (T : Table α) (rest : Finset ℕ) : Prop where
  lt : ∀ d ∈ rest, d < n
  waiting : ∀ d ∈ rest, T.link d = σ d ∧ T.cell d = before d
  settled : ∀ d < n, d ∉ rest → T.link d = d ∧ T.cell d = before (σ d)
  closed : ∀ d ∈ rest, σ d ∈ rest

/-- On the cycle that starts at `i`, the cell `j` is free for its new contents. -/
structure Inside (i : ℕ) (T : Table α) (rest : Finset ℕ) (j : ℕ) : Prop where
  lt : ∀ d ∈ rest, d < n
  free : j < n
  waiting : ∀ d ∈ rest, T.link d = σ d ∧ T.cell d = before d
  settled : ∀ d < n, d ∉ rest → d ≠ j → T.link d = d ∧ T.cell d = before (σ d)
  notMem : j ∉ rest
  start : i ∉ rest
  next : σ j ∈ rest
  closed : ∀ d ∈ insert j rest, σ d ∈ rest ∨ σ d = i

variable {n σ before}

theorem Between.initial {T : Table α} (hσ : ∀ d < n, σ d < n)
    (h : ∀ d < n, T.link d = σ d ∧ T.cell d = before d) :
    Between n σ before T (Finset.range n) where
  lt _ hd := Finset.mem_range.mp hd
  waiting d hd := h d (Finset.mem_range.mp hd)
  settled _ hd hrest := absurd (Finset.mem_range.mpr hd) hrest
  closed d hd := Finset.mem_range.mpr (hσ d (Finset.mem_range.mp hd))

variable {T : Table α} {rest : Finset ℕ} {i j : ℕ} (hinj : Set.InjOn σ (Set.Iio n))

include hinj

/-- A cell whose link points to its own place has its new contents. -/
theorem Between.fixed (h : Between n σ before T rest) (hi : i < n) (hlink : T.link i = i) :
    Between n σ before T (rest.erase i) := by
  have hself : i ∈ rest → σ i = i := by
    intro hmem
    rw [← (h.waiting i hmem).1, hlink]
  constructor
  case lt => exact fun d hd => h.lt d (Finset.mem_of_mem_erase hd)
  case waiting => exact fun d hd => h.waiting d (Finset.mem_of_mem_erase hd)
  case settled =>
    intro d hd hrest
    by_cases hmem : d ∈ rest
    · have hdi : d = i := by
        by_contra hne
        exact hrest (Finset.mem_erase.mpr ⟨hne, hmem⟩)
      subst hdi
      rw [hself hmem]
      exact ⟨hlink, (h.waiting d hmem).2⟩
    · exact h.settled d hd hmem
  case closed =>
    intro d hd
    obtain ⟨hne, hmem⟩ := Finset.mem_erase.mp hd
    apply Finset.mem_erase.mpr
    constructor
    · intro hσd
      have hi' : i ∈ rest := hσd ▸ h.closed d hmem
      exact hne (hinj (h.lt d hmem) hi (hσd.trans (hself hi').symm))
    · exact h.closed d hmem

omit hinj in
theorem Between.enter (h : Between n σ before T rest) (hi : i < n) (hlink : T.link i ≠ i) :
    i ∈ rest ∧ Inside n σ before i T (rest.erase i) i := by
  have hmem : i ∈ rest := by
    by_contra hrest
    exact hlink (h.settled i hi hrest).1
  have hnext : σ i ≠ i := fun heq => hlink ((h.waiting i hmem).1.trans heq)
  refine ⟨hmem, ?_⟩
  constructor
  case lt => exact fun d hd => h.lt d (Finset.mem_of_mem_erase hd)
  case free => exact hi
  case waiting => exact fun d hd => h.waiting d (Finset.mem_of_mem_erase hd)
  case settled =>
    intro d hd hrest hne
    exact h.settled d hd fun hd' => hrest (Finset.mem_erase.mpr ⟨hne, hd'⟩)
  case notMem => exact Finset.notMem_erase i rest
  case start => exact Finset.notMem_erase i rest
  case next => exact Finset.mem_erase.mpr ⟨hnext, h.closed i hmem⟩
  case closed =>
    intro d hd
    rw [Finset.insert_erase hmem] at hd
    by_cases hσd : σ d = i
    · exact .inr hσd
    · exact .inl (Finset.mem_erase.mpr ⟨hσd, h.closed d hd⟩)

section
variable (h : Inside n σ before i T rest j)
include h

/-- What stood in the next cell of the cycle is in the free one now. -/
theorem Inside.moved {T' : Table α} (hT' : T' = T.settle j (T.cell (σ j))) :
    (∀ d ∈ rest.erase (σ j), T'.link d = σ d ∧ T'.cell d = before d) ∧
      (∀ d < n, d ∉ rest.erase (σ j) → d ≠ σ j → T'.link d = d ∧ T'.cell d = before (σ d)) ∧
      ∀ d ∈ rest, σ d ≠ σ j := by
  subst hT'
  refine ⟨?_, ?_, fun d hd heq => h.notMem (hinj (h.lt d hd) h.free heq ▸ hd)⟩
  · intro d hd
    have hd' := Finset.mem_of_mem_erase hd
    have hdj : d ≠ j := fun heq => h.notMem (heq ▸ hd')
    rw [(T.settle_of_ne hdj).1, (T.settle_of_ne hdj).2]
    exact h.waiting d hd'
  · intro d hd hrest hdk
    by_cases hdj : d = j
    · subst hdj
      rw [(T.settle_self _ _).1, (T.settle_self _ _).2]
      exact ⟨rfl, (h.waiting _ h.next).2⟩
    · rw [(T.settle_of_ne hdj).1, (T.settle_of_ne hdj).2]
      exact h.settled d hd (fun hd' => hrest (Finset.mem_erase.mpr ⟨hdk, hd'⟩)) hdj

/-- The next cell of the cycle is moved and becomes free. -/
theorem Inside.step (hnext : σ (σ j) ≠ i) :
    Inside n σ before i (T.settle j (T.cell (σ j))) (rest.erase (σ j)) (σ j) := by
  obtain ⟨hwaiting, hsettled, hback⟩ := h.moved hinj rfl
  constructor
  case lt => exact fun d hd => h.lt d (Finset.mem_of_mem_erase hd)
  case free => exact h.lt _ h.next
  case waiting => exact hwaiting
  case settled => exact hsettled
  case notMem => exact Finset.notMem_erase _ _
  case start => exact fun hi => h.start (Finset.mem_of_mem_erase hi)
  case next =>
    apply Finset.mem_erase.mpr
    exact ⟨hback _ h.next, (h.closed _ (Finset.mem_insert_of_mem h.next)).resolve_right hnext⟩
  case closed =>
    intro d hd
    rw [Finset.insert_erase h.next] at hd
    apply (h.closed d (Finset.mem_insert_of_mem hd)).imp_left
    exact fun hσd => Finset.mem_erase.mpr ⟨hback d hd, hσd⟩

theorem Inside.leave (hlast : σ (σ j) = i) :
    Between n σ before ((T.settle j (T.cell (σ j))).settle (σ j) (before i))
      (rest.erase (σ j)) := by
  obtain ⟨hwaiting, hsettled, hback⟩ := h.moved hinj rfl
  constructor
  case lt => exact fun d hd => h.lt d (Finset.mem_of_mem_erase hd)
  case waiting =>
    intro d hd
    have hdk := Finset.ne_of_mem_erase hd
    rw [(Table.settle_of_ne hdk).1, (Table.settle_of_ne hdk).2]
    exact hwaiting d hd
  case settled =>
    intro d hd hrest
    by_cases hdk : d = σ j
    · subst hdk
      rw [(Table.settle_self _ _ _).1, (Table.settle_self _ _ _).2, hlast]
      exact ⟨rfl, rfl⟩
    · rw [(Table.settle_of_ne hdk).1, (Table.settle_of_ne hdk).2]
      exact hsettled d hd hrest hdk
  case closed =>
    intro d hd
    obtain ⟨hdk, hd'⟩ := Finset.mem_erase.mp hd
    cases h.closed d (Finset.mem_insert_of_mem hd') with
    | inl hσd => exact Finset.mem_erase.mpr ⟨hback d hd', hσd⟩
    | inr hσd => exact absurd (hinj (h.lt d hd') (h.lt _ h.next) (hσd.trans hlast.symm)) hdk

end

end AwaitGlibc.CyclePermutation
