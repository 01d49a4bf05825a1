import AwaitGlibc.ByteLayout

/-!
# Priorities of the subdirectories in the library cache

`glibc_hwcaps_priorities_init` merges the names of the `glibc-hwcaps` section with the sorted array
`_dl_hwcaps_priorities`. The section holds indices of strings, which a file may have in any order
and beyond its end. The array may have a name several times, for example when a subdirectory that
is active is prepended as well.
-/
namespace AwaitGlibc.HwcapsPriorities
open ByteLayout

/-- `struct dl_hwcaps_priority`. -/
structure Priority where
  name : Bytes
  priority : ℕ

/-- The size of the cache file, and the string at an index. -/
structure Cache where
  size : ℕ
  name : ℕ → Bytes

def glibcHwcapsCompare (left right : Bytes) : Ordering :=
  let toCompare := min left.length right.length
  (compare (left.take toCompare) (right.take toCompare)).then (compare left.length right.length)

/-- `*result = value; ++result`, unless the array ends there. -/
def store (length : ℕ) (results : List ℕ) (value : ℕ) : Option (List ℕ) :=
  if results.length < length then some (results ++ [value]) else none

/-- The two loops of `glibc_hwcaps_priorities_init`. Each round of the first leaves less of the
indices, of the priorities or of the array; the fuel is for all of them. -/
def merge (cache : Cache) (length : ℕ) :
    ℕ → List ℕ → List Priority → List ℕ → Option (List ℕ)
  | fuel + 1, i :: left, r :: right, results =>
    if i < cache.size then
      match glibcHwcapsCompare (cache.name i) r.name with
      | .eq => do merge cache length fuel left right (← store length results r.priority)
      | .lt => do merge cache length fuel left (r :: right) (← store length results 0)
      | .gt => merge cache length fuel (i :: left) right results
    else do merge cache length fuel (i :: left) (r :: right) (← store length results 0)
  | 0, _ :: _, _ :: _, _ => none
  | _, left, _, results => left.foldlM (fun results _ => store length results 0) results

/-- `glibc_hwcaps_priorities_init` for the indices of the section: the array, or none if a result is
stored behind its end. -/
def glibcHwcapsPrioritiesInit (cache : Cache) (left : List ℕ) (right : List Priority) :
    Option (List ℕ) :=
  merge cache left.length (left.length + right.length + left.length) left right []

def Below (a b : Bytes) : Prop := compare a b = .lt

instance (a b : Bytes) : Decidable (Below a b) := inferInstanceAs (Decidable (_ = _))

def Sorted (right : List Priority) : Prop := right.Pairwise fun a b => ¬Below b.name a.name

def Listed (right : List Priority) (name : Bytes) : Prop := ∃ r ∈ right, r.name = name

instance (right : List Priority) (name : Bytes) : Decidable (Listed right name) :=
  inferInstanceAs (Decidable (∃ r ∈ right, _))

def Fits (cache : Cache) (right : List Priority) (i value : ℕ) : Prop :=
  if i < cache.size ∧ Listed right (cache.name i) then
    ∃ r ∈ right, r.name = cache.name i ∧ r.priority = value
  else value = 0

def Computed (cache : Cache) (left : List ℕ) (right : List Priority) (o : Option (List ℕ)) : Prop :=
  ∃ results, o = some results ∧ List.Forall₂ (Fits cache right) left results

/-- How many entries for a name have not been passed when the indices `pre` have been: none once a
name above it has come, and otherwise one less for each time the name itself has come. -/
def remaining (cache : Cache) (right : List Priority) (pre : List ℕ) (name : Bytes) : ℕ :=
  if ∃ j ∈ pre, j < cache.size ∧ Below name (cache.name j) then 0
  else right.countP (·.name = name) - pre.countP fun j => j < cache.size ∧ cache.name j = name

/-- An index beyond the end of the file comes when all priorities have been passed, and a name that
has a priority comes while there is an entry for it. -/
@[mk_iff]
structure Ordered (cache : Cache) (right : List Priority) (pre : List ℕ) (i : ℕ) : Prop where
  outside : cache.size ≤ i → ∀ r ∈ right, remaining cache right pre r.name = 0
  inside : i < cache.size → Listed right (cache.name i) →
    (∀ r ∈ right, r.name = cache.name i → r.priority ≠ 0) →
    0 < remaining cache right pre (cache.name i)

/-! ### The merge -/

theorem glibcHwcapsCompare_eq (left right : Bytes) :
    glibcHwcapsCompare left right = compare left right := by
  induction left generalizing right with
  | nil => cases right <;> rfl
  | cons a left ih =>
    cases right with
    | nil => rfl
    | cons b right =>
      have hmin : min (a :: left).length (b :: right).length = min left.length right.length + 1 :=
        Nat.succ_min_succ _ _
      rw [glibcHwcapsCompare, hmin, List.take_succ_cons, List.take_succ_cons, List.compare_cons_cons,
        List.compare_cons_cons, Ordering.then_assoc, ← ih, glibcHwcapsCompare]
      congr 2
      simp only [List.length_cons, Nat.compare_eq_ite_lt, Nat.add_lt_add_iff_right]

/-- The result for a name, and the array behind the entries it passes. -/
def advance (name : Bytes) : List Priority → ℕ × List Priority
  | [] => (0, [])
  | r :: right =>
    match compare name r.name with
    | .eq => (r.priority, right)
    | .lt => (0, r :: right)
    | .gt => advance name right

section Merge
variable {cache : Cache} {length : ℕ}

def scan (cache : Cache) : List ℕ → List Priority → Option (List ℕ)
  | [], _ => some []
  | i :: left, right =>
    if i < cache.size then
      (scan cache left (advance (cache.name i) right).2).map ((advance (cache.name i) right).1 :: ·)
    else if right = [] then (scan cache left []).map (0 :: ·) else none

/-- An index beyond the end of the file stays in front of the priorities that are left. -/
theorem merge_stuck {i : ℕ} (hi : ¬i < cache.size) (fuel : ℕ) (left : List ℕ) (r : Priority)
    (right : List Priority) (results : List ℕ) :
    merge cache length fuel (i :: left) (r :: right) results = none := by
  induction fuel generalizing results with
  | zero => rfl
  | succ fuel ih =>
    rw [merge, if_neg hi, store]
    split_ifs
    · exact ih _
    · rfl

theorem store_of_lt {results : List ℕ} {n : ℕ} (h : results.length + (n + 1) = length) (value : ℕ) :
    store length results value = some (results ++ [value]) := if_pos (by omega)

theorem map_stored (o : Option (List ℕ)) (results : List ℕ) (value : ℕ) :
    (o.map (value :: ·)).map (results ++ ·) = o.map (results ++ [value] ++ ·) := by
  cases o <;> simp

theorem merge_nil (left results : List ℕ) (h : results.length + left.length = length) :
    left.foldlM (fun results _ => store length results 0) results =
      (scan cache left []).map (results ++ ·) := by
  induction left generalizing results with
  | nil => simp [scan]
  | cons i left ih =>
    have hscan : scan cache (i :: left) [] = (scan cache left []).map (0 :: ·) := by
      simp [scan, advance]
    rw [List.foldlM_cons, store_of_lt h, hscan, map_stored]
    exact ih _ (by simp at h ⊢; omega)

theorem merge_eq (fuel : ℕ) (left : List ℕ) (right : List Priority) (results : List ℕ)
    (hfuel : left.length + right.length ≤ fuel) (hroom : results.length + left.length = length) :
    merge cache length fuel left right results = (scan cache left right).map (results ++ ·) := by
  induction fuel generalizing left right results with
  | zero =>
    obtain rfl := List.eq_nil_of_length_eq_zero (show left.length = 0 by omega)
    simp [merge, scan]
  | succ fuel ih =>
    cases left with
    | nil => simp [merge, scan]
    | cons i left =>
    cases right with
    | nil => exact merge_nil _ _ hroom
    | cons r right =>
      simp only [List.length_cons] at hfuel
      by_cases hi : i < cache.size
      · rw [merge, scan, if_pos hi, if_pos hi, glibcHwcapsCompare_eq, advance]
        cases hcmp : compare (cache.name i) r.name with
        | eq =>
          rw [store_of_lt hroom, map_stored]
          exact ih left right (results ++ [r.priority]) (by omega) (by simp at hroom ⊢; omega)
        | lt =>
          rw [store_of_lt hroom 0, map_stored]
          exact ih left (r :: right) (results ++ [0]) (by simp; omega) (by simp at hroom ⊢; omega)
        | gt =>
          have hnext := ih (i :: left) right results (by simp; omega) hroom
          rw [scan, if_pos hi] at hnext
          exact hnext
      · rw [merge_stuck hi, scan, if_neg hi, if_neg (List.cons_ne_nil _ _)]
        rfl

end Merge

/-! ### What is left of the array -/

section Order
variable {cache : Cache} {right : List Priority} {x : Bytes}

theorem below_of_gt {a b : Bytes} (h : compare a b = .gt) : Below b a :=
  Std.OrientedCmp.lt_of_gt h

theorem ne_of_below {a b : Bytes} (h : Below a b) : a ≠ b := by
  rintro rfl
  rw [Below, Std.ReflOrd.compare_self] at h
  cases h

theorem Below.trans {a b c : Bytes} (h : Below a b) (h' : Below b c) : Below a c :=
  Std.TransCmp.lt_trans h h'

theorem countP_eq_zero {y : Bytes} {r : Priority} (hs : Sorted (r :: right)) (hy : Below y r.name) :
    (r :: right).countP (·.name = y) = 0 := by
  obtain ⟨hr, -⟩ := List.pairwise_cons.mp hs
  rw [List.countP_eq_zero, List.forall_mem_cons]
  refine ⟨by simpa using (ne_of_below hy).symm, fun q hq heq => ?_⟩
  rw [← of_decide_eq_true heq] at hy
  exact hr q hq hy

theorem advance_suffix (x : Bytes) (right : List Priority) : (advance x right).2 <:+ right := by
  induction right with
  | nil => exact List.suffix_refl _
  | cons r right ih =>
    rw [advance]
    split
    · exact List.suffix_cons r right
    · exact List.suffix_refl _
    · exact ih.trans (List.suffix_cons r right)

theorem countP_advance (hs : Sorted right) (x y : Bytes) :
    (advance x right).2.countP (·.name = y) = if Below y x then 0
      else if x = y then right.countP (·.name = y) - 1 else right.countP (·.name = y) := by
  induction right with
  | nil => simp [advance]
  | cons r right ih =>
    rw [advance]
    cases hcmp : compare x r.name with
    | eq =>
      obtain rfl : x = r.name := Std.LawfulEqCmp.compare_eq_iff_eq.mp hcmp
      split_ifs with hy heq
      · have hzero := countP_eq_zero hs hy
        rw [List.countP_cons] at hzero
        exact (Nat.add_eq_zero_iff.mp hzero).1
      · simp [heq]
      · simp [heq]
    | lt =>
      split_ifs with hy heq
      · exact countP_eq_zero hs (hy.trans hcmp)
      · rw [countP_eq_zero hs (heq ▸ hcmp)]
      · rfl
    | gt =>
      have hr := below_of_gt hcmp
      rw [ih (List.pairwise_cons.mp hs).2]
      split_ifs with hy heq
      · rfl
      · simp [← heq, ne_of_below hr]
      · have hne : r.name ≠ y := fun h => hy (h ▸ hr)
        simp [hne]

theorem advance_value (hs : Sorted right) (x : Bytes) :
    if 0 < right.countP (·.name = x) then
      ∃ r ∈ right, r.name = x ∧ r.priority = (advance x right).1
    else (advance x right).1 = 0 := by
  induction right with
  | nil => simp [advance]
  | cons r right ih =>
    rw [advance]
    cases hcmp : compare x r.name with
    | eq =>
      have heq : r.name = x := (Std.LawfulEqCmp.compare_eq_iff_eq.mp hcmp).symm
      rw [if_pos (by simp [heq])]
      exact ⟨r, List.mem_cons_self, heq, rfl⟩
    | lt => rw [if_neg (by rw [countP_eq_zero hs hcmp]; exact lt_irrefl 0)]
    | gt =>
      have hne := ne_of_below (below_of_gt hcmp)
      have hright := ih (List.pairwise_cons.mp hs).2
      rw [List.countP_cons_of_neg (by simpa using hne)]
      split_ifs at hright ⊢
      · obtain ⟨q, hq, h⟩ := hright
        exact ⟨q, List.mem_cons_of_mem r hq, h⟩
      · exact hright

theorem remaining_append {pre : List ℕ} {i : ℕ} (hi : i < cache.size) (y : Bytes) :
    remaining cache right (pre ++ [i]) y = if Below y (cache.name i) then 0
      else if cache.name i = y then remaining cache right pre y - 1
      else remaining cache right pre y := by
  unfold remaining
  by_cases hy : Below y (cache.name i)
  · rw [if_pos hy, if_pos ⟨i, by simp, hi, hy⟩]
  · split_ifs <;> simp_all
    omega

theorem remaining_append_of_outside {pre : List ℕ} {i : ℕ} (hi : ¬i < cache.size) (y : Bytes) :
    remaining cache right (pre ++ [i]) y = remaining cache right pre y := by
  simp [remaining, or_and_right, exists_or, hi]

theorem computed_cons {i v : ℕ} {left : List ℕ} (o : Option (List ℕ)) :
    Computed cache (i :: left) right (o.map (v :: ·)) ↔
      Fits cache right i v ∧ Computed cache left right o := by
  cases o <;> simp [Computed]

theorem forall_split_cons {P : List ℕ → ℕ → Prop} {i : ℕ} {left : List ℕ} :
    (∀ mid j post, i :: left = mid ++ j :: post → P mid j) ↔
      P [] i ∧ ∀ mid j post, left = mid ++ j :: post → P (i :: mid) j := by
  constructor
  · intro h
    exact ⟨h [] i left rfl, fun mid j post heq => h (i :: mid) j post (by rw [heq]; rfl)⟩
  · rintro ⟨hhead, hrest⟩ mid j post heq
    cases mid with
    | nil =>
      cases heq
      exact hhead
    | cons k mid =>
      cases heq
      exact hrest mid j post rfl

section Rest
variable {pre : List ℕ} {rest : List Priority} (hs : Sorted rest) (hsub : rest ⊆ right)
  (hrest : ∀ y, rest.countP (·.name = y) = remaining cache right pre y)
include hs hsub hrest

theorem fits_advance {i : ℕ} (hi : i < cache.size) :
    Fits cache right i (advance (cache.name i) rest).1 ↔ Ordered cache right pre i := by
  have hvalue := advance_value hs (cache.name i)
  rw [hrest] at hvalue
  simp only [ordered_iff, not_le.mpr hi, false_imp_iff, true_and, hi, true_imp_iff, Fits]
  split_ifs at hvalue with hrem
  · obtain ⟨r, hr, hname, hpriority⟩ := hvalue
    rw [if_pos ⟨r, hsub hr, hname⟩]
    exact iff_of_true ⟨r, hsub hr, hname, hpriority⟩ fun _ _ => hrem
  · rw [hvalue]
    by_cases hlisted : Listed right (cache.name i)
    · simp [hlisted, hrem]
    · simp [hlisted]

/-- With `rest` left of the array behind the indices `pre`, the results are right exactly if the
other indices are in order. -/
theorem scan_iff (left : List ℕ) :
    Computed cache left right (scan cache left rest) ↔
      ∀ mid i post, left = mid ++ i :: post → Ordered cache right (pre ++ mid) i := by
  induction left generalizing pre rest with
  | nil => simp [scan, Computed]
  | cons i left ih =>
    have hnext {rest' : List Priority} (hsuffix : rest' <:+ rest) (hrest' : ∀ y,
        rest'.countP (·.name = y) = remaining cache right (pre ++ [i]) y) :
        Computed cache left right (scan cache left rest') ↔
          ∀ mid j post, left = mid ++ j :: post → Ordered cache right (pre ++ i :: mid) j := by
      simpa using ih (hs.sublist hsuffix.sublist) (List.Subset.trans hsuffix.subset hsub) hrest'
    rw [forall_split_cons, scan, List.append_nil]
    split_ifs with hi hnil
    · rw [computed_cons, fits_advance hs hsub hrest hi]
      refine and_congr_right fun _ => hnext (advance_suffix _ _) fun y => ?_
      rw [countP_advance hs, remaining_append hi, hrest]
    · subst hnil
      have hpassed : Ordered cache right pre i :=
        ⟨fun _ r _ => (hrest r.name).symm, fun h => absurd h hi⟩
      rw [computed_cons, Fits, if_neg fun h => hi h.1, eq_self, true_and, and_iff_right hpassed]
      exact hnext (List.suffix_refl _) fun y => by rw [remaining_append_of_outside hi, hrest]
    · obtain ⟨r, hr⟩ := List.exists_mem_of_ne_nil _ hnil
      refine iff_of_false (fun ⟨_, h, _⟩ => by cases h) fun h => ?_
      have hzero := h.1.outside (Nat.le_of_not_lt hi) r (hsub hr)
      rw [← hrest, List.countP_eq_zero] at hzero
      exact hzero r hr (decide_eq_true rfl)

end Rest

end Order

/-- Every index has its result exactly if the section is in order as far as it matters. -/
theorem priorities_init_iff (cache : Cache) (left : List ℕ) {right : List Priority}
    (hsorted : Sorted right) :
    Computed cache left right (glibcHwcapsPrioritiesInit cache left right) ↔
      ∀ pre i post, left = pre ++ i :: post → Ordered cache right pre i := by
  have hmerge : glibcHwcapsPrioritiesInit cache left right = scan cache left right := by
    rw [glibcHwcapsPrioritiesInit, merge_eq _ _ _ _ (by omega) (Nat.zero_add _)]
    cases scan cache left right <;> rfl
  have hscan : _ ↔ ∀ mid i post, left = mid ++ i :: post → Ordered cache right ([] ++ mid) i :=
    scan_iff hsorted (List.Subset.refl right) (fun y => by simp [remaining]) left
  rw [hmerge, hscan]
  rfl

def sample : Cache := ⟨100, fun i => if i = 50 then [97] else if i = 60 then [98] else []⟩

/-- The name "a" is there twice; the index beyond the end of the file comes last. -/
theorem priorities_init_sample :
    Sorted [⟨[97], 1⟩, ⟨[97], 2⟩, ⟨[98], 3⟩] ∧ ∀ pre i post, [50, 60, 200] = pre ++ i :: post →
      Ordered sample [⟨[97], 1⟩, ⟨[97], 2⟩, ⟨[98], 3⟩] pre i := by
  have hsorted : Sorted [⟨[97], 1⟩, ⟨[97], 2⟩, ⟨[98], 3⟩] := by
    simp only [Sorted, Below]
    decide
  refine ⟨hsorted, (priorities_init_iff sample _ hsorted).mp ⟨[1, 3, 0], by decide, ?_⟩⟩
  simp [Fits, Listed, sample]

/-- The first index is beyond the end of the file. -/
theorem priorities_init_overruns :
    Sorted [⟨[97], 1⟩] ∧ glibcHwcapsPrioritiesInit sample [200, 50] [⟨[97], 1⟩] = none :=
  ⟨List.pairwise_singleton _ _, by decide⟩

end AwaitGlibc.HwcapsPriorities
