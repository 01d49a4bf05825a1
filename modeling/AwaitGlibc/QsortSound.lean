import AwaitGlibc.QsortIndirect

/-! The merge sort path of `__qsort_r` sorts: whichever variant it takes, the array ends as
the merge sort of its elements, and nothing but the array and the buffer is touched. -/
namespace AwaitGlibc.Msort
open ByteMemory StatefulMerge CyclePermutation

variable {σ : Type} {areas : List Area} {cmp : Compare Bytes σ} {b n s t : ℕ} {m : Memory}

structure Placed (areas : List Area) (plan : Plan) (b n s t : ℕ) : Prop where
  array : Owned areas b (n * s)
  buffer : Owned areas t (plan.buffer n s)
  apart : b + n * s ≤ t ∨ t + plan.buffer n s ≤ b
  fits : b + n * s ≤ 2 ^ 64

def Plan.Admits (s : ℕ) : Plan → Prop
  | .direct var => var ≠ .pointers ∧ var.Fits s
  | .indirect => 0 < s

theorem choosePlan_admits (b s : ℕ) : (choosePlan b s).Admits s := by
  unfold choosePlan
  split_ifs with hlarge hword h4 h8 hwords
  · exact Nat.zero_lt_of_lt hlarge
  · exact ⟨nofun, h4⟩
  · exact ⟨nofun, h8.1⟩
  · exact ⟨nofun, Nat.dvd_of_mod_eq_zero hwords.1⟩
  · exact ⟨nofun, trivial⟩
  · exact ⟨nofun, trivial⟩

/-! ### The elements are moved -/

theorem direct_eq {var : Var} (hvar : var ≠ .pointers ∧ var.Fits s)
    (hplaced : Placed areas (.direct var) b n s t) (st : σ) :
    ∃ m', msortWithTmp areas ⟨s, var, cmp, t, s⟩ m b n st =
        .ok (m', (sortBy cmp (records m b s n) st).2) ∧
      records m' b s n = (sortBy cmp (records m b s n) st).1 ∧
      Set.EqOn m' m (span b (n * s) ∪ span t (n * s))ᶜ := by
  have hset : Setting areas ⟨s, var, cmp, t, s⟩ m Set.univ (fun _ => True) id := by
    constructor
    case fits => exact hvar.2
    case view =>
      intro m' a _ howned _
      cases var with
      | pointers => exact absurd rfl hvar.1
      | word32 | word64 | words | bytes => exact load_eq howned
  apply msortWithTmp_eq hset st
  · simp
  · exact ⟨hplaced.array, hplaced.buffer, Set.subset_univ _, hplaced.apart, fun _ _ => trivial⟩

/-! ### Pointers are moved -/

def pointer (b s i : ℕ) : Bytes := ByteLayout.encode wordSize (b + i * s)

theorem fillPointers_eq (hpointers : Owned areas t (n * wordSize)) :
    ∃ m', fillPointers areas s m t b n = .ok m' ∧
      records m' t wordSize n = (List.range n).map (pointer b s) ∧
      Set.EqOn m' m (span t (n * wordSize))ᶜ := by
  induction n generalizing m t b with
  | zero => exact ⟨m, rfl, rfl, Set.eqOn_refl m _⟩
  | succ n ih =>
    rw [Nat.succ_mul] at hpointers
    have hlen : (ByteLayout.encode wordSize b).length = wordSize := ByteLayout.length_encode _ _
    have howned : Owned areas t (ByteLayout.encode wordSize b).length := by
      exact hpointers.mono le_rfl (by omega)
    obtain ⟨m', hrun, hrecords, hframe⟩ := ih (m := put m t (ByteLayout.encode wordSize b))
      (b := b + s) (hpointers.mono (by omega) (by omega) : Owned areas (t + wordSize) _)
    refine ⟨m', ?_, ?_, ?_⟩
    · rw [fillPointers, store_eq howned]
      exact hrun
    · rw [records_moved hlen hframe, hrecords, List.range_succ_eq_map, List.map_cons, List.map_map]
      congr 1
      · rw [pointer, Nat.zero_mul, Nat.add_zero]
      · apply List.map_congr_left
        intro i _
        rw [Function.comp_apply, pointer, pointer, Nat.succ_mul, Nat.add_assoc, Nat.add_comm s]
    · exact frame_moved hlen hframe

theorem records_eq_map (m : Memory) (p s n : ℕ) :
    records m p s n = (List.range n).map fun i => bytes m (p + i * s) s := by
  apply List.ext_getElem?
  intro i
  rw [getElem?_records, List.getElem?_map]
  split_ifs with hi
  · rw [List.getElem?_range hi, Option.map_some]
  · rw [List.getElem?_eq_none (by simpa using hi), Option.map_none]

/-- The sorted pointers, as positions of the elements: the elements at these positions are
the sorted elements. -/
theorem sortPointers_eq (hlay : Layout areas b s (t + n * wordSize) n)
    (hroom : Owned areas t (n * wordSize)) (hapart : b + n * s ≤ t ∨ t + 2 * n * wordSize ≤ b)
    (hfilled : records m (t + n * wordSize) wordSize n = (List.range n).map (pointer b s)) (st : σ) :
    ∃ m', ∃ js : List ℕ, msortWithTmp areas ⟨wordSize, .pointers, cmp, t, s⟩ m (t + n * wordSize) n st =
        .ok (m', (sortBy cmp (records m b s n) st).2) ∧
      js.Perm (List.range n) ∧
      records m' (t + n * wordSize) wordSize n = js.map (pointer b s) ∧
      js.map (fun i => bytes m (b + i * s) s) = (sortBy cmp (records m b s n) st).1 ∧
      Set.EqOn m' m (span t (2 * n * wordSize))ᶜ := by
  have hdouble : 2 * n * wordSize = n * wordSize + n * wordSize := by ring
  have hset : Setting areas ⟨wordSize, .pointers, cmp, t, s⟩ m (span t (2 * n * wordSize))
      (fun x => ∃ i < n, x = pointer b s i) (fun x => bytes m (ByteLayout.decode x) s) := by
    constructor
    case fits => rfl
    case view =>
      intro m' a hm' howned hgood
      obtain ⟨i, hi, hx⟩ := hgood
      have hslot := slot_le s hi
      have helement : Owned areas (b + i * s) s := hlay.array.mono (by omega) (by omega)
      change (load areas m' a wordSize >>= fun x => load areas m' (ByteLayout.decode x) s) = _
      rw [load_eq howned]
      change load areas m' (ByteLayout.decode (bytes m' a wordSize)) s =
        .ok (bytes m (ByteLayout.decode (bytes m' a wordSize)) s)
      rw [show bytes m' a wordSize = pointer b s i from hx, pointer, decode_pointer hlay hi,
        load_eq helement]
      exact congrArg Except.ok (bytes_congr (hm'.mono (span_subset_compl (by omega))))
  have hregion : Region areas (⟨wordSize, .pointers, cmp, t, s⟩ : Param σ) (span t (2 * n * wordSize))
      (fun x => ∃ i < n, x = pointer b s i) m (t + n * wordSize) n := by
    constructor
    case owned => exact hlay.pointers
    case ownedTmp => exact hroom
    case inside =>
      apply Set.union_subset
      · exact span_subset (by omega) (by simp only; omega)
      · exact span_subset le_rfl (by simp only; omega)
    case apart => exact .inr le_rfl
    case good =>
      intro x hx
      rw [show records m (t + n * wordSize) wordSize n = _ from hfilled] at hx
      obtain ⟨i, hi, hxi⟩ := List.mem_map.mp hx
      exact ⟨i, List.mem_range.mp hi, hxi.symm⟩
  obtain ⟨m', hrun, hsorted, hframe⟩ := msortWithTmp_eq hset st (Set.eqOn_refl m _) hregion
  -- both the pointers and the elements are images of the positions
  let content : ℕ → Bytes := fun i => bytes m (ByteLayout.decode (pointer b s i)) s
  have hcontent : ∀ i < n, content i = bytes m (b + i * s) s := by
    intro i hi
    change bytes m (ByteLayout.decode (ByteLayout.encode wordSize (b + i * s))) s = _
    rw [decode_pointer hlay hi]
  have helements : (List.range n).map content = records m b s n := by
    rw [records_eq_map]
    exact List.map_congr_left fun i hi => hcontent i (List.mem_range.mp hi)
  obtain ⟨js, hjs⟩ : ∃ js, js = sortBy (fun i j => cmp (content i) (content j)) (List.range n) st :=
    ⟨_, rfl⟩
  have hpointers : sortBy (fun x y => cmp (bytes m (ByteLayout.decode x) s)
      (bytes m (ByteLayout.decode y) s)) ((List.range n).map (pointer b s)) st =
        Prod.map (List.map (pointer b s)) id js := by
    rw [hjs]
    exact sortBy_map (pointer b s) (List.range n) st
  have hsort : sortBy cmp (records m b s n) st = Prod.map (List.map content) id js := by
    rw [hjs, ← helements]
    exact sortBy_map content (List.range n) st
  have hperm : js.1.Perm (List.range n) := by
    rw [hjs]
    exact sortBy_perm _ _
  rw [hfilled, hpointers] at hrun hsorted
  rw [hsort]
  refine ⟨m', js.1, hrun, hperm, hsorted, ?_, ?_⟩
  · apply List.map_congr_left
    intro i hi
    exact (hcontent i (List.mem_range.mp (hperm.mem_iff.mp hi))).symm
  · apply hframe.mono
    apply Set.compl_subset_compl.mpr
    exact hregion.inside

/-- The elements are brought into the order of the sorted pointers. -/
theorem permute_sorted (hlay : Layout areas b s t n) {js : List ℕ} (hperm : js.Perm (List.range n))
    (hpointers : records m t wordSize n = js.map (pointer b s)) :
    ∃ m', permute areas b s t (t + n * wordSize) n n 0 m = .ok (some m') ∧
      records m' b s n = js.map (fun i => bytes m (b + i * s) s) ∧ Kept b s t n m m' := by
  have hlength : js.length = n := by rw [hperm.length_eq, List.length_range]
  have hlt : ∀ d < n, js.getD d 0 < n := by
    intro d hd
    rw [List.getD_eq_getElem _ _ (hlength ▸ hd)]
    exact List.mem_range.mp (hperm.mem_iff.mp (List.getElem_mem _))
  have hinj : Set.InjOn (fun d => js.getD d 0) (Set.Iio n) := by
    intro d hd e he heq
    have hd' : d < js.length := hlength ▸ hd
    have he' : e < js.length := hlength ▸ he
    simp only [List.getD_eq_getElem _ _ hd', List.getD_eq_getElem _ _ he'] at heq
    exact (hperm.nodup_iff.mpr List.nodup_range).getElem_inj_iff.mp heq
  obtain ⟨T, hT⟩ : ∃ T : Table Bytes, T = ⟨fun d => js.getD d 0, fun d => bytes m (b + d * s) s⟩ :=
    ⟨_, rfl⟩
  have hrep : Represents b s t n m T := by
    subst hT
    constructor
    case cell => exact fun d _ => rfl
    case bound => exact hlt
    case link =>
      intro d hd
      have hget : (records m t wordSize n)[d]? = (js.map (pointer b s))[d]? := by rw [hpointers]
      rw [getElem?_records, if_pos hd, List.getElem?_map,
        List.getElem?_eq_getElem (hlength ▸ hd), Option.map_some, Option.some.injEq] at hget
      rw [hget]
      change _ = pointer b s (js.getD d 0)
      rw [List.getD_eq_getElem _ _ (hlength ▸ hd)]
  have hbetween : Between n (fun d => js.getD d 0) T.cell T (Finset.range n) := by
    apply Between.initial hlt
    intro d _
    subst hT
    exact ⟨rfl, rfl⟩
  obtain ⟨m', hrun, hcells, hkept⟩ := permute_eq hinj hlay (Nat.zero_add n) hrep hbetween
    (fun d _ => Nat.zero_le d)
  refine ⟨m', hrun, ?_, hkept⟩
  apply List.ext_getElem?
  intro d
  rw [getElem?_records, List.getElem?_map]
  split_ifs with hd
  · rw [hcells d hd, List.getElem?_eq_getElem (hlength ▸ hd), Option.map_some, hT,
      List.getD_eq_getElem _ _ (hlength ▸ hd)]
  · rw [List.getElem?_eq_none (by omega), Option.map_none]

theorem indirect_eq (hpos : 0 < s) (hplaced : Placed areas .indirect b n s t) (st : σ) :
    ∃ m', Plan.run areas .indirect cmp b n s t m st =
        .ok (some (m', (sortBy cmp (records m b s n) st).2)) ∧
      records m' b s n = (sortBy cmp (records m b s n) st).1 ∧
      Set.EqOn m' m (span b (n * s) ∪ span t (2 * n * wordSize + s))ᶜ := by
  have hdouble : 2 * n * wordSize = n * wordSize + n * wordSize := by ring
  have hbuffer : Owned areas t (2 * n * wordSize + s) := hplaced.buffer
  have hapart : b + n * s ≤ t ∨ t + (2 * n * wordSize + s) ≤ b := hplaced.apart
  have hlay : Layout areas b s (t + n * wordSize) n := by
    constructor
    case array => exact hplaced.array
    case pointers => exact hbuffer.mono (by omega) (by omega)
    case storage => exact hbuffer.mono (by omega) (by omega)
    case apart => omega
    case pos => exact hpos
    case fits => exact hplaced.fits
  obtain ⟨m₁, hfill, hfilled, hframe₁⟩ := fillPointers_eq (m := m) (s := s) (b := b) hlay.pointers
  -- the array is as it was while the pointers are filled in and sorted
  have hcells₁ : ∀ i < n, bytes m₁ (b + i * s) s = bytes m (b + i * s) s := by
    intro i hi
    have hslot := slot_le s hi
    exact bytes_congr (hframe₁.mono (span_subset_compl (by omega)))
  have harray₁ : records m₁ b s n = records m b s n :=
    records_congr (hframe₁.mono (span_subset_compl (by omega)))
  obtain ⟨m₂, js, hsort, hperm, hpointers, hsorted, hframe₂⟩ := sortPointers_eq hlay
    (hbuffer.mono le_rfl (by omega)) (by omega) hfilled st
  obtain ⟨m', hpermute, hcells, hkept⟩ := permute_sorted hlay hperm hpointers
  rw [harray₁] at hsort hsorted
  refine ⟨m', ?_, ?_, ?_⟩
  · change (fillPointers areas s m (t + n * wordSize) b n >>= _) = _
    rw [hfill, ok_bind]
    dsimp only
    rw [hsort, ok_bind]
    rw [hpermute]
    rfl
  · rw [hcells, ← hsorted]
    apply List.map_congr_left
    intro i hi
    have hslot := slot_le s (List.mem_range.mp (hperm.mem_iff.mp hi))
    exact bytes_congr (hframe₂.mono (span_subset_compl (by omega)))
  · apply (hkept.mono _).trans ((hframe₂.mono _).trans (hframe₁.mono _))
    · apply Set.compl_subset_compl.mpr
      exact Set.union_subset_union_right _ (span_subset (by omega) (by omega))
    · apply Set.compl_subset_compl.mpr
      exact (span_subset le_rfl (by omega)).trans Set.subset_union_right
    · apply Set.compl_subset_compl.mpr
      exact (span_subset (by omega) (by omega)).trans Set.subset_union_right

/-! ### Every plan -/

/-- Whatever the plan, the array ends as the merge sort of its elements. -/
theorem Plan.run_eq (cmp : Compare Bytes σ) (m : Memory) {plan : Plan} (hadmits : plan.Admits s)
    (hplaced : Placed areas plan b n s t) (st : σ) :
    ∃ m', plan.run areas cmp b n s t m st = .ok (some (m', (sortBy cmp (records m b s n) st).2)) ∧
      records m' b s n = (sortBy cmp (records m b s n) st).1 ∧
      Set.EqOn m' m (span b (n * s) ∪ span t (plan.buffer n s))ᶜ := by
  cases plan with
  | direct var =>
    obtain ⟨m', hrun, hsorted, hframe⟩ := direct_eq (m := m) hadmits hplaced st
    refine ⟨m', ?_, hsorted, hframe⟩
    rw [Plan.run, hrun]
    rfl
  | indirect => exact indirect_eq hadmits hplaced st

/-- No object is larger than half the address space, so the size is not cut off. -/
theorem bufferSize_eq (hs : s < 2 ^ 64) (hsize : n * s < 2 ^ 63) (b : ℕ) :
    bufferSize n s = (choosePlan b s).buffer n s := by
  unfold bufferSize choosePlan
  split_ifs with hlarge
  · apply Nat.mod_eq_of_lt
    cases n with
    | zero => rwa [Nat.mul_zero, Nat.zero_mul, Nat.zero_add]
    | succ n =>
      have hone : s ≤ (n + 1) * s := Nat.le_mul_of_pos_left s n.succ_pos
      have hwords : (n + 1) * 32 ≤ (n + 1) * s := Nat.mul_le_mul_left _ hlarge.le
      unfold wordSize
      omega
  all_goals exact Nat.mod_eq_of_lt (by omega)

/-- `__qsort_r` on its merge sort path. It ends without an access outside the array and the buffer
and leaves a permutation of the array, whatever the comparison answers. Where the answers come from
a total preorder of the elements, the array is sorted and equivalent elements keep their order. Every
other variant that is possible for the element size leaves the same array. -/
theorem qsortR_sorts (cmp : Compare Bytes σ) (b n s t : ℕ) (m : Memory) (st : σ) (hs : s < 2 ^ 64)
    (hsize : n * s < 2 ^ 63) (hfits : b + n * s ≤ 2 ^ 64)
    (hapart : b + n * s ≤ t ∨ t + bufferSize n s ≤ b) :
    ∃ m' st', qsortR cmp b n s t m st = .ok (some (m', st')) ∧
      (records m' b s n).Perm (records m b s n) ∧
      Set.EqOn m' m (span b (n * s) ∪ span t (bufferSize n s))ᶜ ∧
      (∀ le, Orders cmp le {x | x ∈ records m b s n} →
        (records m' b s n).Pairwise le ∧ KeepsOrder le (records m b s n) (records m' b s n)) ∧
      ∀ (areas : List Area) (plan : Plan) (t' : ℕ), plan.Admits s → Placed areas plan b n s t' →
        ∃ m'', plan.run areas cmp b n s t' m st = .ok (some (m'', st')) ∧
          records m'' b s n = records m' b s n := by
  have hbuffer := bufferSize_eq hs hsize b
  have hplaced : Placed [⟨b, n * s⟩, ⟨t, bufferSize n s⟩] (choosePlan b s) b n s t := by
    constructor
    case array => exact ⟨⟨b, n * s⟩, by simp, le_rfl, le_rfl⟩
    case buffer => exact ⟨⟨t, bufferSize n s⟩, by simp, le_rfl, by rw [hbuffer]⟩
    case apart => rwa [← hbuffer]
    case fits => exact hfits
  obtain ⟨m', hrun, hsorted, hframe⟩ := Plan.run_eq cmp m (choosePlan_admits b s) hplaced st
  refine ⟨m', _, hrun, ?_, ?_, ?_, ?_⟩
  · rw [hsorted]
    exact sortBy_perm _ _
  · rwa [hbuffer]
  · intro le hle
    rw [hsorted]
    exact ⟨sortBy_sorted hle _ _ fun x hx => hx, sortBy_keepsOrder _ _ hle⟩
  · intro areas plan t' hadmits hplaced'
    obtain ⟨m'', hrun'', hsorted'', -⟩ := Plan.run_eq cmp m hadmits hplaced' st
    exact ⟨m'', hrun'', hsorted''.trans hsorted.symm⟩

def compareFirst : Compare Bytes Unit := fun x y st => ((x.headD 0).toNat - (y.headD 0).toNat, st)

theorem compareFirst_orders (elements : Set Bytes) :
    Orders compareFirst (fun x y => (x.headD 0).toNat ≤ (y.headD 0).toNat) elements where
  answer x _ y _ st := by simp [compareFirst]
  total x _ y _ := Nat.le_total _ _
  trans x _ y _ z _ := Nat.le_trans

/-- Three elements of forty bytes, sorted by pointers. -/
theorem qsortR_sorts_three :
    ∃ m', ∃ st', qsortR compareFirst 0 3 40 1000 (fun a => UInt8.ofNat (200 - a)) () =
        .ok (some (m', st')) ∧
      (records m' 0 40 3).Pairwise fun x y => (x.headD 0).toNat ≤ (y.headD 0).toNat := by
  obtain ⟨m', st', hrun, -, -, hsorted, -⟩ := qsortR_sorts compareFirst 0 3 40 1000
    (fun a => UInt8.ofNat (200 - a)) () (by decide) (by decide) (by decide) (.inl (by decide))
  exact ⟨m', st', hrun, (hsorted _ (compareFirst_orders _)).1⟩

end AwaitGlibc.Msort
