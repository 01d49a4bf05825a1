import AwaitGlibc.CheckedArray
import AwaitGlibc.Msort

/-! `msort_with_tmp` is the merge sort of the elements as a list, in each of its variants.
It touches the sorted part of the array and as much of the temporary buffer, and no more. -/
namespace AwaitGlibc.Msort
open ByteMemory StatefulMerge

variable {σ : Type} {areas : List Area}

/-! ### One element -/

/-- The element sizes for which a variant copies whole elements. -/
def Var.Fits (s : ℕ) : Var → Prop
  | .word32 => s = 4
  | .word64 => s = 8
  | .pointers => s = wordSize
  | .words => wordSize ∣ s
  | .bytes => True

variable {m : Memory}

theorem copyWords_eq {k : ℕ} {tmpl bl : ℕ} (hdst : Owned areas tmpl (k * wordSize))
    (hsrc : Owned areas bl (k * wordSize))
    (hapart : bl + k * wordSize ≤ tmpl ∨ tmpl + k * wordSize ≤ bl) :
    copyWords areas m tmpl bl (k * wordSize) = .ok (put m tmpl (bytes m bl (k * wordSize))) := by
  induction k generalizing m tmpl bl with
  | zero =>
    rw [Nat.zero_mul, copyWords, dif_pos rfl]
    exact congrArg Except.ok (put_nil m tmpl).symm
  | succ k ih =>
    have hword : (k + 1) * wordSize - wordSize = k * wordSize := by
      rw [Nat.succ_mul, Nat.add_sub_cancel]
    have hne : (k + 1) * wordSize ≠ 0 := Nat.mul_ne_zero k.succ_ne_zero (by decide)
    rw [copyWords, dif_neg hne, hword]
    rw [Nat.succ_mul] at hdst hsrc hapart
    rw [memcpy_eq (hdst.mono le_rfl (by omega)) (hsrc.mono le_rfl (by omega))]
    change copyWords areas _ _ _ _ = _
    rw [ih (hdst.mono (by omega) (by omega)) (hsrc.mono (by omega) (by omega)) (by omega)]
    -- the words that are still to be read lie beside the word that was written
    have hrest : bytes (put m tmpl (bytes m bl wordSize)) (bl + wordSize) (k * wordSize) =
        bytes m (bl + wordSize) (k * wordSize) := by
      apply bytes_congr
      apply (put_eqOn m tmpl _).mono
      apply span_subset_compl
      rw [length_bytes]
      omega
    have happend := put_append m tmpl (bytes m bl wordSize)
      (bytes m (bl + wordSize) (k * wordSize))
    rw [length_bytes] at happend
    rw [hrest, happend, ← bytes_append, Nat.succ_mul, Nat.add_comm wordSize]

theorem Param.copy_eq {p : Param σ} (hfits : p.var.Fits p.s) {tmp src : ℕ}
    (hdst : Owned areas tmp p.s) (hsrc : Owned areas src p.s)
    (hapart : src + p.s ≤ tmp ∨ tmp + p.s ≤ src) :
    p.copy areas m tmp src = .ok (put m tmp (bytes m src p.s)) := by
  unfold Param.copy
  cases hvar : p.var with
  | words =>
    rw [hvar] at hfits
    obtain ⟨k, hk⟩ := hfits
    rw [Nat.mul_comm] at hk
    rw [hk] at hdst hsrc hapart ⊢
    exact copyWords_eq hdst hsrc hapart
  | bytes => exact memcpy_eq hdst hsrc
  | word32 | word64 | pointers =>
    rw [hvar] at hfits
    rw [show p.s = _ from hfits] at hdst hsrc ⊢
    exact memcpy_eq hdst hsrc

theorem Param.stride_eq {p : Param σ} (hfits : p.var.Fits p.s) : p.stride = p.s := by
  unfold Param.stride
  cases hvar : p.var with
  | words | bytes => rfl
  | word32 | word64 | pointers =>
    rw [hvar] at hfits
    exact Eq.symm hfits

/-- The parameters of a sort inside the addresses `W` of a memory `m₀`: where only `W` changed,
the comparison gets `seen x` for every element `x` that is `good`. -/
structure Setting (areas : List Area) (p : Param σ) (m₀ : Memory) (W : Set ℕ)
    (good : Bytes → Prop) (seen : Bytes → Bytes) : Prop where
  fits : p.var.Fits p.s
  view : ∀ m a, Set.EqOn m m₀ Wᶜ → Owned areas a p.s → good (bytes m a p.s) →
    p.view areas m a = .ok (seen (bytes m a p.s))

variable {p : Param σ} {m₀ : Memory} {W : Set ℕ} {good : Bytes → Prop} {seen : Bytes → Bytes}

abbrev Param.compareSeen (p : Param σ) (seen : Bytes → Bytes) : Compare Bytes σ :=
  fun x y => p.cmp (seen x) (seen y)

theorem eqOn_compl_trans {m' m₀ : Memory} {V W : Set ℕ} (h : Set.EqOn m' m Vᶜ)
    (hm : Set.EqOn m m₀ Wᶜ) (hVW : V ⊆ W) : Set.EqOn m' m₀ Wᶜ :=
  (h.mono (Set.compl_subset_compl.mpr hVW)).trans hm

/-! ### The merging loop -/

/-- Two runs of elements and a place for all of them beside both. -/
structure Halves (areas : List Area) (p : Param σ) (W : Set ℕ) (good : Bytes → Prop) (m : Memory)
    (b1 n1 b2 n2 tmp : ℕ) : Prop where
  owned1 : Owned areas b1 (n1 * p.s)
  owned2 : Owned areas b2 (n2 * p.s)
  ownedTmp : Owned areas tmp ((n1 + n2) * p.s)
  inside : span tmp ((n1 + n2) * p.s) ⊆ W
  apart1 : b1 + n1 * p.s ≤ tmp ∨ tmp + (n1 + n2) * p.s ≤ b1
  apart2 : b2 + n2 * p.s ≤ tmp ∨ tmp + (n1 + n2) * p.s ≤ b2
  good1 : ∀ x ∈ records m b1 p.s n1, good x
  good2 : ∀ x ∈ records m b2 p.s n2, good x

/-- What the loop leaves: `k` elements at `tmp`, the rest of one run where it was. -/
structure MergedTo (p : Param σ) (seen : Bytes → Bytes) (m : Memory) (st : σ)
    (b1 n1 b2 n2 tmp : ℕ) (r : Merged σ) (k : ℕ) : Prop where
  count : k + (r.n1 + r.n2) = n1 + n2
  left1 : r.n1 ≤ n1
  left2 : r.n2 ≤ n2
  exhausted : r.n1 = 0 ∨ r.n2 = 0
  position : r.tmp = tmp + k * p.s
  source : r.b1 + r.n1 * p.s = b1 + n1 * p.s
  result : mergeBy (p.compareSeen seen) (records m b1 p.s n1) (records m b2 p.s n2) st =
    (records r.m tmp p.s k ++ (records m r.b1 p.s r.n1 ++
      records m (b2 + (n2 - r.n2) * p.s) p.s r.n2), r.st)
  frame : Set.EqOn r.m m (span tmp (k * p.s))ᶜ

section Merging

variable {m : Memory} {st st' : σ} {b1 n1 b2 n2 tmp : ℕ}

theorem MergedTo.done (h : n1 = 0 ∨ n2 = 0) :
    MergedTo p seen m st b1 n1 b2 n2 tmp ⟨m, st, b1, n1, n2, tmp⟩ 0 where
  count := by simp
  left1 := le_rfl
  left2 := le_rfl
  exhausted := h
  position := by simp
  source := rfl
  result := by
    cases h with
    | inl h => simp [h, records, mergeBy]
    | inr h => simp [h, records]
  frame := Set.eqOn_refl m _

theorem records_put_of_apart {q s n : ℕ} {bs : Bytes}
    (h : q + n * s ≤ tmp ∨ tmp + bs.length ≤ q) :
    records (put m tmp bs) q s n = records m q s n :=
  records_congr ((put_eqOn m tmp bs).mono (span_subset_compl h))

theorem Halves.next1 (h : Halves areas p W good m b1 (n1 + 1) b2 n2 tmp) :
    Halves areas p W good (put m tmp (bytes m b1 p.s)) (b1 + p.s) n1 b2 n2 (tmp + p.s) := by
  obtain ⟨own1, own2, ownTmp, inside, apart1, apart2, good1, good2⟩ := h
  simp only [Nat.add_mul, Nat.one_mul] at own1 ownTmp inside apart1 apart2
  constructor
  case owned1 => exact own1.mono (by omega) (by omega)
  case owned2 => exact own2
  case ownedTmp => exact ownTmp.mono (by omega) (by rw [Nat.add_mul]; omega)
  case inside => exact (span_subset (by omega) (by rw [Nat.add_mul]; omega)).trans inside
  case apart1 => rw [Nat.add_mul]; omega
  case apart2 => rw [Nat.add_mul]; omega
  case good1 =>
    rw [records_put_of_apart (by rw [length_bytes]; omega)]
    intro x hx
    exact good1 x (List.mem_cons_of_mem _ hx)
  case good2 =>
    rw [records_put_of_apart (by rw [length_bytes]; omega)]
    exact good2

theorem Halves.swap (h : Halves areas p W good m b1 n1 b2 n2 tmp) :
    Halves areas p W good m b2 n2 b1 n1 tmp := by
  obtain ⟨own1, own2, ownTmp, inside, apart1, apart2, good1, good2⟩ := h
  rw [Nat.add_comm n1 n2] at ownTmp inside apart1 apart2
  exact ⟨own2, own1, ownTmp, inside, apart2, apart1, good2, good1⟩

theorem Halves.next2 (h : Halves areas p W good m b1 n1 b2 (n2 + 1) tmp) :
    Halves areas p W good (put m tmp (bytes m b2 p.s)) b1 n1 (b2 + p.s) n2 (tmp + p.s) :=
  h.swap.next1.swap

variable {k : ℕ}

section
variable {x : Bytes} {m' : Memory} {s : ℕ} (hx : x.length = s)
  (h : Set.EqOn m' (put m tmp x) (span (tmp + s) (k * s))ᶜ)
include hx h

theorem records_moved : records m' tmp s (k + 1) = x :: records m' (tmp + s) s k := by
  have hfirst : bytes m' tmp s = bytes (put m tmp x) tmp s :=
    bytes_congr (h.mono (span_subset_compl (.inl le_rfl)))
  rw [records, hfirst, ← hx, bytes_put_self]

theorem frame_moved : Set.EqOn m' m (span tmp ((k + 1) * s))ᶜ := by
  rw [Nat.succ_mul]
  apply eqOn_compl_trans h _ (span_subset (by omega) (by omega))
  apply (put_eqOn m tmp x).mono
  apply Set.compl_subset_compl.mpr
  exact span_subset le_rfl (by omega)

end

theorem MergedTo.next {r : Merged σ} {x : Bytes} {b1' n1' b2' n2' : ℕ} (hx : x.length = p.s)
    (hcount : n1' + n2' + 1 = n1 + n2) (hn : n1' ≤ n1 ∧ n2' ≤ n2)
    (hend1 : b1' + n1' * p.s = b1 + n1 * p.s) (hend2 : b2' + n2' * p.s = b2 + n2 * p.s)
    (hin : Halves areas p W good m b1 n1 b2 n2 tmp)
    (hstep : mergeBy (p.compareSeen seen) (records m b1 p.s n1) (records m b2 p.s n2) st =
      Prod.map (x :: ·) id
        (mergeBy (p.compareSeen seen) (records m b1' p.s n1') (records m b2' p.s n2') st'))
    (h : MergedTo p seen (put m tmp x) st' b1' n1' b2' n2' (tmp + p.s) r k) :
    MergedTo p seen m st b1 n1 b2 n2 tmp r (k + 1) := by
  obtain ⟨own1, own2, ownTmp, inside, apart1, apart2, good1, good2⟩ := hin
  obtain ⟨count, left1, left2, exhausted, position, source, result, frame⟩ := h
  rw [← hcount, Nat.succ_mul] at apart1 apart2
  have hn1 : n1' * p.s ≤ n1 * p.s := Nat.mul_le_mul_right _ hn.1
  have hn2 : n2' * p.s ≤ n2 * p.s := Nat.mul_le_mul_right _ hn.2
  have hleft1 : r.n1 * p.s ≤ n1' * p.s := Nat.mul_le_mul_right _ left1
  have hsub : (n2' - r.n2) * p.s + r.n2 * p.s = n2' * p.s := by
    rw [← Nat.add_mul, Nat.sub_add_cancel left2]
  have hsub' : (n2 - r.n2) * p.s + r.n2 * p.s = n2 * p.s := by
    rw [← Nat.add_mul, Nat.sub_add_cancel (left2.trans hn.2)]
  constructor
  case count => omega
  case left1 => exact left1.trans hn.1
  case left2 => exact left2.trans hn.2
  case exhausted => exact exhausted
  case position => rw [position, Nat.succ_mul]; omega
  case source => rw [source, hend1]
  case frame => exact frame_moved hx frame
  case result =>
    have hshift : b2 + (n2 - r.n2) * p.s = b2' + (n2' - r.n2) * p.s := by omega
    rw [records_put_of_apart (by rw [hx]; omega), records_put_of_apart (by rw [hx]; omega),
      records_put_of_apart (by rw [hx]; omega), records_put_of_apart (by rw [hx]; omega)] at result
    rw [hstep, result, records_moved hx frame, hshift]
    rfl

end Merging

theorem Param.merge_eq (hset : Setting areas p m₀ W good seen) {total : ℕ} (st : σ)
    {b1 n1 b2 n2 tmp : ℕ} (htotal : n1 + n2 = total) (hm : Set.EqOn m m₀ Wᶜ)
    (h : Halves areas p W good m b1 n1 b2 n2 tmp) :
    ∃ r k, p.merge areas m st b1 n1 b2 n2 tmp = .ok r ∧
      MergedTo p seen m st b1 n1 b2 n2 tmp r k := by
  induction total generalizing m st b1 n1 b2 n2 tmp with
  | zero =>
    have h1 : n1 = 0 := by omega
    subst h1
    exact ⟨_, 0, by rw [Param.merge]; simp, .done (.inl rfl)⟩
  | succ total ih =>
    cases n1 with
    | zero => exact ⟨_, 0, by rw [Param.merge]; simp, .done (.inl rfl)⟩
    | succ n1 =>
    cases n2 with
    | zero => exact ⟨_, 0, by rw [Param.merge]; simp, .done (.inr rfl)⟩
    | succ n2 =>
      have own1 : Owned areas b1 p.s := h.owned1.mono le_rfl (by rw [Nat.succ_mul]; omega)
      have own2 : Owned areas b2 p.s := h.owned2.mono le_rfl (by rw [Nat.succ_mul]; omega)
      have ownTmp : Owned areas tmp p.s :=
        h.ownedTmp.mono le_rfl (by simp only [Nat.add_mul, Nat.one_mul]; omega)
      have hinside : span tmp p.s ⊆ W :=
        (span_subset le_rfl (by simp only [Nat.add_mul, Nat.one_mul]; omega)).trans h.inside
      have hview1 := hset.view m b1 hm own1 (h.good1 _ List.mem_cons_self)
      have hview2 := hset.view m b2 hm own2 (h.good2 _ List.mem_cons_self)
      have hmoved : ∀ src, Set.EqOn (put m tmp (bytes m src p.s)) m₀ Wᶜ := by
        intro src
        apply eqOn_compl_trans (put_eqOn m tmp _) hm
        rwa [length_bytes]
      have apart1 := h.apart1
      have apart2 := h.apart2
      simp only [Nat.add_mul, Nat.one_mul] at apart1 apart2
      rw [Param.merge, hview1, hview2, Param.stride_eq hset.fits]
      by_cases hle : (p.compareSeen seen (bytes m b1 p.s) (bytes m b2 p.s) st).1 ≤ 0
      · have hcopy := Param.copy_eq hset.fits (m := m) ownTmp own1 (by omega)
        obtain ⟨r, k, hr, hk⟩ := ih _ (by omega) (hmoved b1) h.next1
        refine ⟨r, k + 1, (if_pos hle).trans ?_, hk.next (length_bytes _ _ _) (by omega)
          ⟨Nat.le_succ _, le_rfl⟩ (by rw [Nat.succ_mul]; omega) rfl h (mergeBy_of_le hle)⟩
        rw [hcopy]
        exact hr
      · have hcopy := Param.copy_eq hset.fits (m := m) ownTmp own2 (by omega)
        obtain ⟨r, k, hr, hk⟩ := ih _ (by omega) (hmoved b2) h.next2
        refine ⟨r, k + 1, (if_neg hle).trans ?_, hk.next (length_bytes _ _ _) (by omega)
          ⟨le_rfl, Nat.le_succ _⟩ rfl (by rw [Nat.succ_mul]; omega) h (mergeBy_of_gt hle)⟩
        rw [hcopy]
        exact hr

/-! ### The sort -/

/-- The elements left over in the first run go behind the merged ones; those left over in the
second run stand where they belong already. -/
theorem MergedTo.copyBack {st : σ} {b n1 n2 t : ℕ} {r : Merged σ} {k : ℕ}
    (h : MergedTo p seen m st b n1 (b + n1 * p.s) n2 t r k)
    (hapart : b + (n1 + n2) * p.s ≤ t ∨ t + (n1 + n2) * p.s ≤ b) {m' m'' : Memory}
    (hm' : m' = put r.m r.tmp (bytes r.m r.b1 (r.n1 * p.s)))
    (hm'' : m'' = put m' b (bytes m' t ((n1 + n2 - r.n2) * p.s))) :
    records m'' b p.s (n1 + n2) = (mergeBy (p.compareSeen seen) (records m b p.s n1)
        (records m (b + n1 * p.s) p.s n2) st).1 ∧
      Set.EqOn m'' m (span b ((n1 + n2) * p.s) ∪ span t ((n1 + n2) * p.s))ᶜ := by
  obtain ⟨count, left1, left2, exhausted, position, source, result, frame⟩ := h
  have hmoved : n1 + n2 - r.n2 = k + r.n1 := by omega
  have htotal : n1 + n2 = (k + r.n1) + r.n2 := by omega
  have hsum : (n1 + n2) * p.s = k * p.s + r.n1 * p.s + r.n2 * p.s := by
    rw [htotal, Nat.add_mul, Nat.add_mul]
  have hsource : r.b1 + r.n1 * p.s ≤ b + (n1 + n2) * p.s := by
    rw [source, Nat.add_mul]
    omega
  rw [hmoved] at hm''
  have hframe' : Set.EqOn m' m (span t ((k + r.n1) * p.s))ᶜ := by
    rw [hm', Nat.add_mul]
    apply eqOn_compl_trans (put_eqOn r.m r.tmp _) _ (span_subset _ _)
    · exact frame.mono (Set.compl_subset_compl.mpr (span_subset le_rfl (by omega)))
    · omega
    · rw [position, length_bytes]
      omega
  have hlen : (bytes m' t ((k + r.n1) * p.s)).length = (k + r.n1) * p.s := length_bytes _ _ _
  constructor
  · have hbuffer : records m' t p.s (k + r.n1) =
        records r.m t p.s k ++ records m r.b1 p.s r.n1 := by
      rw [records_append, hm', position]
      congr 1
      · exact records_put_of_apart (.inl le_rfl)
      · rw [records_put_self]
        exact records_congr (frame.mono (span_subset_compl (by omega)))
    have hplace : b + (k + r.n1) * p.s = b + n1 * p.s + (n2 - r.n2) * p.s := by
      rw [Nat.add_assoc, ← Nat.add_mul]
      congr 2
      omega
    have hrest : records m'' (b + (k + r.n1) * p.s) p.s r.n2 =
        records m (b + (k + r.n1) * p.s) p.s r.n2 := by
      rw [hm'', records_put_of_apart (.inr (by rw [hlen]))]
      rw [Nat.add_mul] at hframe' ⊢
      exact records_congr (hframe'.mono (span_subset_compl (by omega)))
    rw [result, htotal, records_append, hrest, hplace, hm'', records_put_self, hbuffer,
      List.append_assoc]
  · have hwritten : Set.EqOn m'' m' (span b ((k + r.n1) * p.s))ᶜ := by
      rw [hm'']
      have hput := put_eqOn m' b (bytes m' t ((k + r.n1) * p.s))
      rwa [hlen] at hput
    rw [Nat.add_mul] at hwritten hframe'
    rw [hsum, Set.compl_union]
    apply (hwritten.mono _).trans (hframe'.mono _)
    · apply Set.inter_subset_left.trans
      exact Set.compl_subset_compl.mpr (span_subset le_rfl (by omega))
    · apply Set.inter_subset_right.trans
      exact Set.compl_subset_compl.mpr (span_subset le_rfl (by omega))

/-- Elements to be sorted with as much room in the buffer beside them. -/
structure Region (areas : List Area) (p : Param σ) (W : Set ℕ) (good : Bytes → Prop) (m : Memory)
    (b n : ℕ) : Prop where
  owned : Owned areas b (n * p.s)
  ownedTmp : Owned areas p.t (n * p.s)
  inside : span b (n * p.s) ∪ span p.t (n * p.s) ⊆ W
  apart : b + n * p.s ≤ p.t ∨ p.t + n * p.s ≤ b
  good : ∀ x ∈ records m b p.s n, good x

section Sorting

variable {m m1 m2 : Memory} {b n n1 n2 : ℕ}

theorem Region.mono {b' n' : ℕ} (h : Region areas p W good m b n) (hb : b ≤ b')
    (hend : b' + n' * p.s ≤ b + n * p.s) (hgood : records m b' p.s n' ⊆ records m b p.s n) :
    Region areas p W good m b' n' := by
  obtain ⟨owned, ownedTmp, inside, apart, good⟩ := h
  constructor
  case owned => exact owned.mono hb hend
  case ownedTmp => exact ownedTmp.mono le_rfl (by omega)
  case inside =>
    exact (Set.union_subset_union (span_subset hb hend) (span_subset le_rfl (by omega))).trans inside
  case apart => omega
  case good => exact fun x hx => good x (hgood hx)

theorem Region.left (h : Region areas p W good m b (n1 + n2)) :
    Region areas p W good m b n1 :=
  h.mono le_rfl (by rw [Nat.add_mul]; omega)
    (by rw [records_append]; exact List.subset_append_left _ _)

theorem Region.right (h : Region areas p W good m b (n1 + n2)) :
    Region areas p W good m (b + n1 * p.s) n2 :=
  h.mono (by omega) (by rw [Nat.add_mul]; omega)
    (by rw [records_append]; exact List.subset_append_right _ _)

theorem Region.of_perm (h : Region areas p W good m b n)
    (hperm : (records m1 b p.s n).Perm (records m b p.s n)) : Region areas p W good m1 b n :=
  { h with good := fun x hx => h.good x (hperm.mem_iff.mp hx) }

theorem records_of_frame {a c k x s q : ℕ} (h : Set.EqOn m1 m (span a k ∪ span c x)ᶜ)
    (ha : q + n * s ≤ a ∨ a + k ≤ q) (hc : q + n * s ≤ c ∨ c + x ≤ q) :
    records m1 q s n = records m q s n := by
  rw [Set.compl_union] at h
  exact records_congr (h.mono (Set.subset_inter (span_subset_compl ha) (span_subset_compl hc)))

theorem Region.halves (h : Region areas p W good m b (n1 + n2)) :
    Halves areas p W good m b n1 (b + n1 * p.s) n2 p.t := by
  have hapart := h.apart
  constructor
  case owned1 => exact h.left.owned
  case owned2 => exact h.right.owned
  case ownedTmp => exact h.ownedTmp
  case inside => exact Set.subset_union_right.trans h.inside
  case apart1 => rw [Nat.add_mul] at hapart ⊢; omega
  case apart2 => rw [Nat.add_mul] at hapart ⊢; omega
  case good1 => exact h.left.good
  case good2 => exact h.right.good

end Sorting

theorem Param.mergeBack_eq (hset : Setting areas p m₀ W good seen) {b n1 n2 : ℕ} (st : σ)
    (hm : Set.EqOn m m₀ Wᶜ) (h : Region areas p W good m b (n1 + n2)) :
    ∃ m', p.mergeBack areas m b (n1 + n2) n1 n2 st =
        .ok (m', (mergeBy (p.compareSeen seen) (records m b p.s n1)
          (records m (b + n1 * p.s) p.s n2) st).2) ∧
      records m' b p.s (n1 + n2) = (mergeBy (p.compareSeen seen) (records m b p.s n1)
        (records m (b + n1 * p.s) p.s n2) st).1 ∧
      Set.EqOn m' m (span b ((n1 + n2) * p.s) ∪ span p.t ((n1 + n2) * p.s))ᶜ := by
  obtain ⟨r, k, hr, hk⟩ := p.merge_eq hset st rfl hm h.halves
  have hback := hk.copyBack h.apart rfl rfl
  have howned := h.owned
  have hownedTmp := h.ownedTmp
  have hsum : (n1 + n2) * p.s = k * p.s + (r.n1 * p.s + r.n2 * p.s) := by
    rw [← hk.count, Nat.add_mul, Nat.add_mul]
  have hfirst : r.n1 * p.s ≤ n1 * p.s := Nat.mul_le_mul_right _ hk.left1
  have hsource := hk.source
  have hposition := hk.position
  have htail : r.copyRest areas p.s = .ok (put r.m r.tmp (bytes r.m r.b1 (r.n1 * p.s))) := by
    unfold Merged.copyRest
    split_ifs with hpos
    · apply memcpy_eq
      · exact hownedTmp.mono (by omega) (by omega)
      · exact howned.mono (by omega) (by rw [Nat.add_mul]; omega)
    · have hzero : r.n1 = 0 := by omega
      rw [hzero, Nat.zero_mul]
      exact congrArg Except.ok (put_nil r.m r.tmp).symm
  have hpart : (n1 + n2 - r.n2) * p.s ≤ (n1 + n2) * p.s :=
    Nat.mul_le_mul_right _ (Nat.sub_le _ _)
  have hcopy := memcpy_eq (m := put r.m r.tmp (bytes r.m r.b1 (r.n1 * p.s)))
    (howned.mono le_rfl (Nat.add_le_add_left hpart b))
    (hownedTmp.mono le_rfl (Nat.add_le_add_left hpart p.t))
  refine ⟨_, ?_, hback.1, hback.2⟩
  rw [Param.mergeBack, hr, hk.result, ok_bind, htail, ok_bind, hcopy]
  rfl

/-- The faithful sort is the sort of the elements as a list. -/
theorem msortWithTmp_eq (hset : Setting areas p m₀ W good seen) {n : ℕ} {b : ℕ} (st : σ)
    (hm : Set.EqOn m m₀ Wᶜ) (h : Region areas p W good m b n) :
    ∃ m', msortWithTmp areas p m b n st =
        .ok (m', (sortBy (p.compareSeen seen) (records m b p.s n) st).2) ∧
      records m' b p.s n = (sortBy (p.compareSeen seen) (records m b p.s n) st).1 ∧
      Set.EqOn m' m (span b (n * p.s) ∪ span p.t (n * p.s))ᶜ := by
  induction n using Nat.strong_induction_on generalizing m b st with
  | _ n ih =>
    by_cases hshort : n ≤ 1
    · rw [msortWithTmp, dif_pos hshort, sortBy_of_short (by rwa [length_records])]
      exact ⟨m, rfl, rfl, Set.eqOn_refl m _⟩
    · obtain ⟨n1, hn1⟩ : ∃ n1, n1 = n / 2 := ⟨_, rfl⟩
      obtain ⟨n2, hn2⟩ : ∃ n2, n2 = n - n1 := ⟨_, rfl⟩
      have hn : n = n1 + n2 := by omega
      have hlength : (records m b p.s n).length / 2 = n1 := by rw [length_records, hn1]
      have hlong : ¬(records m b p.s n).length ≤ 1 := by rwa [length_records]
      rw [sortBy_of_long hlong, hlength, msortWithTmp, dif_neg hshort]
      simp only [← hn1, ← hn2]
      have hlt1 : n1 < n := by omega
      have hlt2 : n2 < n := by omega
      subst hn
      rw [take_records, drop_records]
      obtain ⟨m1, hrun1, hsorted1, hframe1⟩ := ih n1 hlt1 st hm h.left
      have hm1 := eqOn_compl_trans hframe1 hm h.left.inside
      have hapart := h.apart
      rw [Nat.add_mul] at hapart
      have hright1 : records m1 (b + n1 * p.s) p.s n2 = records m (b + n1 * p.s) p.s n2 :=
        records_of_frame hframe1 (.inr le_rfl) (by omega)
      have hregion1 : Region areas p W good m1 b (n1 + n2) := by
        apply h.of_perm
        rw [records_append, records_append, hright1, hsorted1]
        exact (sortBy_perm _ _).append_right _
      obtain ⟨m2, hrun2, hsorted2, hframe2⟩ := ih n2 hlt2
        (sortBy (p.compareSeen seen) (records m b p.s n1) st).2 hm1 hregion1.right
      have hm2 := eqOn_compl_trans hframe2 hm1 hregion1.right.inside
      have hleft2 : records m2 b p.s n1 = records m1 b p.s n1 :=
        records_of_frame hframe2 (.inl le_rfl) (by omega)
      have hregion2 : Region areas p W good m2 b (n1 + n2) := by
        apply hregion1.of_perm
        rw [records_append, records_append, hleft2, hsorted2]
        exact (sortBy_perm _ _).append_left _
      rw [hright1] at hrun2 hsorted2
      obtain ⟨m3, hrun3, hsorted3, hframe3⟩ := p.mergeBack_eq hset (sortBy (p.compareSeen seen)
        (records m (b + n1 * p.s) p.s n2)
        (sortBy (p.compareSeen seen) (records m b p.s n1) st).2).2 hm2 hregion2
      rw [hsorted2, hleft2, hsorted1] at hrun3 hsorted3
      refine ⟨m3, ?_, hsorted3, ?_⟩
      · rw [hrun1, ok_bind, hrun2]
        exact hrun3
      · apply eqOn_compl_trans hframe3 _ subset_rfl
        rw [Nat.add_mul]
        apply eqOn_compl_trans hframe2 _ (Set.union_subset_union _ _)
        · apply hframe1.mono
          apply Set.compl_subset_compl.mpr
          apply Set.union_subset_union
          · exact span_subset le_rfl (by omega)
          · exact span_subset le_rfl (by omega)
        · exact span_subset (by omega) (by omega)
        · exact span_subset le_rfl (by omega)

end AwaitGlibc.Msort
