import AwaitGlibc.CheckedArray
import AwaitGlibc.CyclePermutation
import AwaitGlibc.MsortRefines

/-! The last part of the indirect sort, which moves the elements to where the sorted
pointers say. The pointers are the links of a permutation, and the loop follows its cycles. -/
namespace AwaitGlibc.Msort
open ByteMemory CyclePermutation

/-- The array, the pointers to its elements and room for one element behind them. -/
structure Layout (areas : List Area) (b s tp n : ℕ) : Prop where
  array : Owned areas b (n * s)
  pointers : Owned areas tp (n * wordSize)
  storage : Owned areas (tp + n * wordSize) s
  apart : b + n * s ≤ tp ∨ tp + n * wordSize + s ≤ b
  pos : 0 < s
  fits : b + n * s ≤ 2 ^ 64

/-- The memory holds the cells and, as pointers, the links of a table. -/
structure Represents (b s tp n : ℕ) (m : Memory) (T : Table Bytes) : Prop where
  cell : ∀ d < n, bytes m (b + d * s) s = T.cell d
  link : ∀ d < n, bytes m (tp + d * wordSize) wordSize = ByteLayout.encode wordSize (b + T.link d * s)
  bound : ∀ d < n, T.link d < n

theorem slot_le {d n : ℕ} (s : ℕ) (h : d < n) : d * s + s ≤ n * s := by
  rw [← Nat.succ_mul]
  exact Nat.mul_le_mul_right s h

theorem slot_apart {d e : ℕ} (s : ℕ) (h : d ≠ e) : d * s + s ≤ e * s ∨ e * s + s ≤ d * s := by
  cases Nat.lt_or_gt_of_ne h with
  | inl h => exact .inl (slot_le s h)
  | inr h => exact .inr (slot_le s h)

variable {areas : List Area} {b s tp n : ℕ} {m : Memory} {T : Table Bytes} {i j : ℕ}

section
variable (hlay : Layout areas b s tp n)
include hlay

theorem decode_pointer {d : ℕ} (hd : d < n) :
    ByteLayout.decode (ByteLayout.encode wordSize (b + d * s)) = b + d * s := by
  rw [ByteLayout.decode_encode, Nat.mod_eq_of_lt]
  have hslot := slot_le s hd
  have hpos := hlay.pos
  have hfits := hlay.fits
  calc b + d * s < b + n * s := by omega
    _ ≤ 2 ^ 64 := hfits
    _ = 256 ^ wordSize := by decide

theorem address_inj {d e : ℕ} (h : b + d * s = b + e * s) : d = e :=
  Nat.eq_of_mul_eq_mul_right hlay.pos (Nat.add_left_cancel h)

theorem readPointer_eq (h : Represents b s tp n m T) {d : ℕ}
    (hd : d < n) : readPointer areas m tp d = .ok (b + T.link d * s) := by
  have hslot := slot_le wordSize hd
  have howned : Owned areas (tp + d * wordSize) wordSize :=
    hlay.pointers.mono (by omega) (by omega)
  rw [readPointer, load_eq howned, h.link d hd]
  exact congrArg Except.ok (decode_pointer hlay (h.bound d hd))

/-- `tp[j] = jp; memcpy (jp, src, s);` settles the cell `j`. -/
theorem settle_eq (h : Represents b s tp n m T) (hj : j < n) {src : ℕ}
    (hsrc : Owned areas src s) (hapart : src + s ≤ tp ∨ tp + n * wordSize ≤ src) :
    ∃ m₁ m₂, writePointer areas m tp j (b + j * s) = .ok m₁ ∧
      memcpy areas m₁ (b + j * s) src s = .ok m₂ ∧
      Represents b s tp n m₂ (T.settle j (bytes m src s)) ∧
      Set.EqOn m₂ m (span b (n * s) ∪ span tp (n * wordSize))ᶜ := by
  have hslot := slot_le s hj
  have hslot' := slot_le wordSize hj
  have hlayout := hlay.apart
  have hlen : (ByteLayout.encode wordSize (b + j * s)).length = wordSize :=
    ByteLayout.length_encode _ _
  have howned : Owned areas (tp + j * wordSize) (ByteLayout.encode wordSize (b + j * s)).length := by
    exact hlay.pointers.mono (by omega) (by omega)
  have hdst : Owned areas (b + j * s) s := hlay.array.mono (by omega) (by omega)
  obtain ⟨m₁, hm₁⟩ : ∃ m₁, m₁ = put m (tp + j * wordSize) (ByteLayout.encode wordSize (b + j * s)) :=
    ⟨_, rfl⟩
  obtain ⟨m₂, hm₂⟩ : ∃ m₂, m₂ = put m₁ (b + j * s) (bytes m₁ src s) := ⟨_, rfl⟩
  have hframe₁ : Set.EqOn m₁ m (span (tp + j * wordSize) wordSize)ᶜ := by
    have hput := put_eqOn m (tp + j * wordSize) (ByteLayout.encode wordSize (b + j * s))
    rwa [hlen, ← hm₁] at hput
  have hframe₂ : Set.EqOn m₂ m₁ (span (b + j * s) s)ᶜ := by
    have hput := put_eqOn m₁ (b + j * s) (bytes m₁ src s)
    rwa [length_bytes, ← hm₂] at hput
  have hmoved : bytes m₁ src s = bytes m src s :=
    bytes_congr (hframe₁.mono (span_subset_compl (by omega)))
  refine ⟨m₁, m₂, hm₁ ▸ store_eq howned, hm₂ ▸ memcpy_eq hdst hsrc, ?_, ?_⟩
  · constructor
    case cell =>
      intro d hd
      have hslotd := slot_le s hd
      by_cases hdj : d = j
      · subst hdj
        have hself := bytes_put_self m₁ (b + d * s) (bytes m₁ src s)
        rw [length_bytes, ← hm₂] at hself
        rw [hself, hmoved, (T.settle_self _ _).2]
      · have hother := slot_apart s hdj
        rw [(T.settle_of_ne hdj).2, ← h.cell d hd]
        exact (bytes_congr (hframe₂.mono (span_subset_compl (by omega)))).trans
          (bytes_congr (hframe₁.mono (span_subset_compl (by omega))))
    case link =>
      intro d hd
      have hslotd := slot_le wordSize hd
      have hkept : bytes m₂ (tp + d * wordSize) wordSize = bytes m₁ (tp + d * wordSize) wordSize :=
        bytes_congr (hframe₂.mono (span_subset_compl (by omega)))
      by_cases hdj : d = j
      · subst hdj
        have hself := bytes_put_self m (tp + d * wordSize) (ByteLayout.encode wordSize (b + d * s))
        rw [hlen, ← hm₁] at hself
        rw [hkept, hself, (T.settle_self _ _).1]
      · have hother := slot_apart wordSize hdj
        rw [hkept, (T.settle_of_ne hdj).1, ← h.link d hd]
        exact bytes_congr (hframe₁.mono (span_subset_compl (by omega)))
    case bound =>
      intro d hd
      by_cases hdj : d = j
      · subst hdj
        rwa [(T.settle_self _ _).1]
      · rw [(T.settle_of_ne hdj).1]
        exact h.bound d hd
  · rw [Set.compl_union]
    apply (hframe₂.mono _).trans (hframe₁.mono _)
    · apply Set.inter_subset_left.trans
      exact Set.compl_subset_compl.mpr (span_subset (by omega) (by omega))
    · apply Set.inter_subset_right.trans
      exact Set.compl_subset_compl.mpr (span_subset (by omega) (by omega))

end

/-- What the loop leaves alone: everything but the array, the pointers and the room behind them. -/
abbrev Kept (b s tp n : ℕ) (m m' : Memory) : Prop :=
  Set.EqOn m' m (span b (n * s) ∪ span tp (n * wordSize + s))ᶜ

theorem Kept.of_settle {m' : Memory}
    (h : Set.EqOn m' m (span b (n * s) ∪ span tp (n * wordSize))ᶜ) : Kept b s tp n m m' := by
  apply h.mono
  apply Set.compl_subset_compl.mpr
  exact Set.union_subset_union_right _ (span_subset le_rfl (by omega))

theorem storage_settle (hlay : Layout areas b s tp n) {m' : Memory}
    (h : Set.EqOn m' m (span b (n * s) ∪ span tp (n * wordSize))ᶜ) :
    bytes m' (tp + n * wordSize) s = bytes m (tp + n * wordSize) s := by
  have hlayout := hlay.apart
  apply bytes_congr
  apply h.mono
  rw [Set.compl_union]
  apply Set.subset_inter
  · exact span_subset_compl (by omega)
  · exact span_subset_compl (.inr le_rfl)

theorem keep_eq (hlay : Layout areas b s tp n) (hrep : Represents b s tp n m T) (hi : i < n) :
    ∃ m', memcpy areas m (tp + n * wordSize) (b + i * s) s = .ok m' ∧
      Represents b s tp n m' T ∧ bytes m' (tp + n * wordSize) s = T.cell i ∧
      Kept b s tp n m m' := by
  have hslot := slot_le s hi
  have hlayout := hlay.apart
  obtain ⟨m', hm'⟩ : ∃ m', m' = put m (tp + n * wordSize) (bytes m (b + i * s) s) := ⟨_, rfl⟩
  have hframe : Set.EqOn m' m (span (tp + n * wordSize) s)ᶜ := by
    have hput := put_eqOn m (tp + n * wordSize) (bytes m (b + i * s) s)
    rwa [length_bytes, ← hm'] at hput
  refine ⟨m', ?_, ?_, ?_, ?_⟩
  · rw [hm']
    exact memcpy_eq hlay.storage (hlay.array.mono (by omega) (by omega))
  · constructor
    case cell =>
      intro d hd
      have hslotd := slot_le s hd
      rw [← hrep.cell d hd]
      exact bytes_congr (hframe.mono (span_subset_compl (by omega)))
    case link =>
      intro d hd
      have hslotd := slot_le wordSize hd
      rw [← hrep.link d hd]
      exact bytes_congr (hframe.mono (span_subset_compl (by omega)))
    case bound => exact hrep.bound
  · have hself := bytes_put_self m (tp + n * wordSize) (bytes m (b + i * s) s)
    rw [length_bytes, ← hm'] at hself
    rw [hself, hrep.cell i hi]
  · apply hframe.mono
    apply Set.compl_subset_compl.mpr
    exact (span_subset (by omega) (by omega)).trans Set.subset_union_right

section Permute

variable {σ : ℕ → ℕ} {before : ℕ → Bytes} {rest : Finset ℕ} (hinj : Set.InjOn σ (Set.Iio n))

include hinj

/-- The loop along a cycle ends at the cell that takes what stood in the first one. -/
theorem followCycle_eq (hlay : Layout areas b s tp n) {fuel : ℕ} (hfuel : rest.card ≤ fuel)
    (hrep : Represents b s tp n m T) (h : Inside n σ before i T rest j)
    (hstorage : bytes m (tp + n * wordSize) s = before i) :
    ∃ m' T' rest' j', followCycle areas b s tp (b + i * s) fuel m j (b + j * s) (b + σ j * s) =
        .ok (some (m', j', b + j' * s)) ∧
      j' < n ∧ Represents b s tp n m' T' ∧
      Between n σ before (T'.settle j' (before i)) rest' ∧ rest' ⊆ rest ∧
      bytes m' (tp + n * wordSize) s = before i ∧ Kept b s tp n m m' := by
  induction fuel generalizing m T rest j with
  | zero =>
    have hempty := Finset.card_eq_zero.mp (Nat.le_zero.mp hfuel)
    exact absurd (hempty ▸ h.next) (Finset.notMem_empty _)
  | succ fuel ih =>
    have hk : σ j < n := h.lt _ h.next
    have hslot := slot_le s hk
    have hlayout := hlay.apart
    have hpos := hlay.pos
    have hindex : (b + σ j * s - b) / s = σ j := by
      rw [Nat.add_sub_cancel_left, Nat.mul_div_cancel _ hpos]
    obtain ⟨m₁, m₂, hwrite, hcopy, hrep₂, hframe⟩ := settle_eq hlay hrep h.free
      (hlay.array.mono (by omega) (by omega) : Owned areas (b + σ j * s) s) (by omega)
    rw [hrep.cell _ hk] at hrep₂
    have hread := readPointer_eq hlay hrep₂ hk
    have hne : σ j ≠ j := fun heq => h.notMem (heq ▸ h.next)
    rw [(T.settle_of_ne hne).1, (h.waiting _ h.next).1] at hread
    have hstorage₂ := (storage_settle hlay hframe).trans hstorage
    rw [followCycle, hindex, hwrite, ok_bind, hcopy, ok_bind, hread]
    by_cases hlast : σ (σ j) = i
    · refine ⟨m₂, _, _, σ j, if_pos ?_, hk, hrep₂, h.leave hinj hlast, Finset.erase_subset _ _,
        hstorage₂, Kept.of_settle hframe⟩
      rw [hlast]
    · have hcard : (rest.erase (σ j)).card ≤ fuel := by
        rw [Finset.card_erase_of_mem h.next]
        omega
      obtain ⟨m', T', rest', j', hrun, hj', hrep', hbetween, hsub, hstorage', hkept⟩ :=
        ih hcard hrep₂ (h.step hinj hlast) hstorage₂
      refine ⟨m', T', rest', j', (if_neg ?_).trans hrun, hj', hrep', hbetween,
        hsub.trans (Finset.erase_subset _ _), hstorage', hkept.trans (Kept.of_settle hframe)⟩
      exact fun heq => hlast (address_inj hlay heq)

/-- The loop over the entries gives every cell its new contents. -/
theorem permute_eq (hlay : Layout areas b s tp n) {left : ℕ} (hleft : i + left = n)
    (hrep : Represents b s tp n m T) (h : Between n σ before T rest) (hfrom : ∀ d ∈ rest, i ≤ d) :
    ∃ m', permute areas b s tp (tp + n * wordSize) n left i m = .ok (some m') ∧
      (∀ d < n, bytes m' (b + d * s) s = before (σ d)) ∧ Kept b s tp n m m' := by
  induction left generalizing i m T rest with
  | zero =>
    refine ⟨m, rfl, ?_, Set.eqOn_refl m _⟩
    intro d hd
    have hmem : d ∉ rest := fun hmem => absurd (hfrom d hmem) (by omega)
    rw [hrep.cell d hd, (h.settled d hd hmem).2]
  | succ left ih =>
    have hi : i < n := by omega
    have hnext : ∀ rest' ⊆ rest.erase i, ∀ d ∈ rest', i + 1 ≤ d := by
      intro rest' hsub d hd
      obtain ⟨hne, hmem⟩ := Finset.mem_erase.mp (hsub hd)
      have := hfrom d hmem
      omega
    rw [permute, readPointer_eq hlay hrep hi]
    by_cases hlink : T.link i = i
    · obtain ⟨m', hrun, hcells, hkept⟩ := ih (by omega) hrep (h.fixed hinj hi hlink)
        (hnext _ subset_rfl)
      refine ⟨m', (if_pos ?_).trans hrun, hcells, hkept⟩
      rw [hlink]
    · obtain ⟨hmem, hinside⟩ := h.enter hi hlink
      obtain ⟨m₁, hkeep, hrep₁, hstorage₁, hkept₁⟩ := keep_eq hlay hrep hi
      rw [(h.waiting i hmem).2] at hstorage₁
      have hcard : (rest.erase i).card ≤ n := by
        have hsub : rest.erase i ⊆ Finset.range n := fun d hd =>
          Finset.mem_range.mpr (h.lt d (Finset.mem_of_mem_erase hd))
        exact (Finset.card_le_card hsub).trans_eq (Finset.card_range n)
      obtain ⟨m₂, T₂, rest₂, j, hrun₂, hj, hrep₂, hbetween, hsub, hstorage₂, hkept₂⟩ :=
        followCycle_eq hinj hlay hcard hrep₁ hinside hstorage₁
      obtain ⟨m₃, m₄, hwrite, hcopy, hrep₄, hframe⟩ :=
        settle_eq hlay hrep₂ hj hlay.storage (.inr le_rfl)
      rw [hstorage₂] at hrep₄
      obtain ⟨m', hrun, hcells, hkept⟩ := ih (by omega) hrep₄ hbetween (hnext _ hsub)
      refine ⟨m', (if_neg fun heq => hlink (address_inj hlay heq)).trans ?_, hcells,
        hkept.trans ((Kept.of_settle hframe).trans (hkept₂.trans hkept₁))⟩
      rw [hkeep, (h.waiting i hmem).1]
      change (followCycle areas b s tp _ n m₁ i _ _ >>= _) = _
      rw [hrun₂]
      change (writePointer areas m₂ tp j _ >>= _) = _
      rw [hwrite]
      change (memcpy areas m₃ _ _ _ >>= _) = _
      rw [hcopy]
      exact hrun

end Permute

end AwaitGlibc.Msort
