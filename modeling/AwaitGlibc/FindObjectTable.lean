import AwaitGlibc.FindObjectMerge

/-!
# The table over a run of `dlopen` and `dlclose`

The objects opened while running and not closed since are what the table stands
for. Every operation leaves a table that stands for the right objects: an update
that succeeds moves to the other chain, one that fails changes nothing, and a
close works on the chain in use. A lookup in a table at rest then answers for the
objects.
-/
namespace AwaitGlibc.FindObject
open CheckedArray VersionedRead

/-! ## Objects -/

def LinkMap.Contains (l : LinkMap) (pc : ℕ) : Prop := l.lMapStart ≤ pc ∧ pc < l.lMapEnd

instance (l : LinkMap) (pc : ℕ) : Decidable (l.Contains pc) :=
  inferInstanceAs (Decidable (_ ∧ _))

theorem contains_fromMap (l : LinkMap) (pc : ℕ) :
    (dlFindObjectFromMap l).Contains pc ↔ l.Contains pc := Iff.rfl

def LinkMap.Apart (a b : LinkMap) : Prop := a.lMapEnd ≤ b.lMapStart ∨ b.lMapEnd ≤ a.lMapStart

instance (a b : LinkMap) : Decidable (a.Apart b) := inferInstanceAs (Decidable (_ ∨ _))

/-- Objects as they can be loaded together: each has a mapping, and no two
mappings overlap. -/
structure Placed (objs : List LinkMap) : Prop where
  mapped : ∀ l ∈ objs, l.lMapStart < l.lMapEnd
  apart : objs.Pairwise LinkMap.Apart

theorem Apart.symm {a b : LinkMap} (h : a.Apart b) : b.Apart a := Or.symm h

theorem above_or_above {a b : LinkMap} (ha : a.lMapStart < a.lMapEnd) (hb : b.lMapStart < b.lMapEnd)
    (h : a.Apart b) : Above (dlFindObjectFromMap a) (dlFindObjectFromMap b) ∨
      Above (dlFindObjectFromMap b) (dlFindObjectFromMap a) := by
  obtain h | h := h
  · exact .inr ⟨by simp only [dlFindObjectFromMap]; omega, h⟩
  · exact .inl ⟨by simp only [dlFindObjectFromMap]; omega, h⟩

variable {objs xs ys loaded : List LinkMap} {m : Mappings} {target chain : List Segment} {n k : ℕ}

theorem ordered_of_sorted (h : Placed objs)
    (hs : objs.Pairwise fun a b => a.lMapStart ≤ b.lMapStart) :
    Ordered (objs.map dlFindObjectFromMap) := by
  unfold Ordered
  rw [List.pairwise_map]
  refine (h.apart.and hs).imp_of_mem ?_
  intro a b ha hb hab
  obtain h' | h' := above_or_above (h.mapped a ha) (h.mapped b hb) hab.1
  · simp only [Above, dlFindObjectFromMap] at h' ⊢
    omega
  · exact h'

theorem Placed.of_perm (h : Placed xs) (hp : xs.Perm ys) : Placed ys where
  mapped := fun l hl => h.mapped l (hp.mem_iff.mpr hl)
  apart := hp.pairwise h.apart Apart.symm

theorem Placed.left (h : Placed (xs ++ ys)) : Placed xs where
  mapped := fun l hl => h.mapped l (List.mem_append_left _ hl)
  apart := (List.pairwise_append.mp h.apart).1

theorem Placed.right (h : Placed (xs ++ ys)) : Placed ys where
  mapped := fun l hl => h.mapped l (List.mem_append_right _ hl)
  apart := (List.pairwise_append.mp h.apart).2.1

/-! ## What a table stands for -/

/-- The table stands for the objects. The elements in use are in order; those of
closed objects have length zero and no link map, and the others are those of the
objects. Only a table that has never been updated has a first segment without
elements. -/
structure Represents (m : Mappings) (objs : List LinkMap) : Prop where
  sized : ∀ copy, Sized (m.chain copy)
  allocated : ∀ copy, ∀ seg ∈ m.chain copy, 0 < seg.allocated
  started : ∀ seg previous, m.active = seg :: previous → seg.size = 0 → previous = []
  ordered : Ordered (entries m.active)
  closed : ∀ e ∈ entries m.active, e.map = 0 → e.mapEnd = e.mapStart
  objects : (live (entries m.active)).Perm (objs.map dlFindObjectFromMap)
  placed : Placed objs

theorem Represents.of_perm (h : Represents m xs) (hp : xs.Perm ys) : Represents m ys :=
  { h with
    objects := h.objects.trans (hp.map _)
    placed := h.placed.of_perm hp }

variable {e : Entry}

theorem mem_live {es : List Entry} : e ∈ live es ↔ e ∈ es ∧ e.map ≠ 0 := by
  simp [live]

theorem map_fromMap_ne_zero (l : LinkMap) : (dlFindObjectFromMap l).map ≠ 0 := by
  have := l.address_pos
  simp only [dlFindObjectFromMap]
  omega

section Lookup
variable {m : Mappings} {objs : List LinkMap}

theorem Represents.mem_entries (h : Represents m objs) {l : LinkMap} (hl : l ∈ objs) :
    dlFindObjectFromMap l ∈ entries m.active :=
  (mem_live.mp (h.objects.mem_iff.mpr (List.mem_map_of_mem hl))).1

theorem Represents.object_of_contains (h : Represents m objs) {pc : ℕ}
    (he : e ∈ entries m.active) (hpc : e.Contains pc) :
    ∃ l ∈ objs, dlFindObjectFromMap l = e := by
  have hmap : e.map ≠ 0 := by
    intro hzero
    have := h.closed e he hzero
    unfold Entry.Contains at hpc
    omega
  exact List.mem_map.mp (h.objects.mem_iff.mp (mem_live.mpr ⟨he, hmap⟩))

theorem Represents.find (h : Represents m objs) (pc : ℕ) :
    m.find pc = some ((objs.find? (·.Contains pc)).map dlFindObjectFromMap) := by
  rw [find_eq (h.sized _) h.ordered]
  cases hfind : objs.find? (·.Contains pc) with
  | some l =>
    have hl := List.mem_of_find?_eq_some hfind
    have hpc : l.Contains pc := by simpa using List.find?_some hfind
    rw [h.ordered.find?_eq_some (h.mem_entries hl) ((contains_fromMap l pc).mpr hpc)]
    rfl
  | none =>
    rw [find?_contains_eq_none]
    · rfl
    · intro e he hpc
      obtain ⟨l, hl, rfl⟩ := h.object_of_contains he hpc
      have := List.find?_eq_none.mp hfind l hl
      simp only [decide_eq_true_eq] at this
      exact this ((contains_fromMap l pc).mp hpc)

end Lookup

/-! ## An update -/

theorem countUsed_eq (chain : List Segment) :
    dlfoMappingsSegmentCountUsed chain = (live (entries chain)).length := by
  induction chain with
  | nil => rfl
  | cons seg previous ih =>
    simp only [dlfoMappingsSegmentCountUsed, entries]
    by_cases hzero : seg.size = 0
    · simp [hzero, live]
    · rw [if_neg hzero, if_neg hzero, ih]
      simp only [live, List.filter_append, List.length_append, List.countP_eq_length_filter]
      omega

theorem length_entries_le (chain : List Segment) :
    (entries chain).length ≤ (chain.map Segment.size).sum := by
  induction chain with
  | nil => simp [entries]
  | cons seg previous ih =>
    simp only [entries, List.map_cons, List.sum_cons]
    split_ifs
    · simp
    · simp only [List.length_append, List.length_take]
      omega

/-- The two alignments cost less than the two cache lines added for them. -/
theorem le_alignedCapacity (ptr size : ℕ) : size ≤ alignedCapacity ptr
    (segmentHeaderSize + size * elementSize + 2 * cacheLineSizeEstimate) := by
  simp only [alignedCapacity, segmentHeaderSize, elementSize, cacheLineSizeEstimate]
  omega

/-- The elements allocated for a segment of at least `size`. -/
def newAllocation (size ptr : ℕ) : ℕ :=
  alignedCapacity ptr (segmentHeaderSize + size * elementSize + 2 * cacheLineSizeEstimate)

theorem allocate_cases (size : ℕ) (previous : List Segment) (malloc : Malloc) :
    (malloc = none ∧ dlfoMappingsSegmentAllocate size previous malloc = .ok none) ∨
      ∃ ptr garbage seg, malloc = some (ptr, garbage) ∧
        dlfoMappingsSegmentAllocate size previous malloc = .ok (some seg) ∧ seg.size = 0 ∧
        seg.allocated = newAllocation (max size (minimumGrowth previous)) ptr ∧
        size ≤ seg.allocated := by
  unfold dlfoMappingsSegmentAllocate
  match malloc with
  | none => exact .inl ⟨rfl, rfl⟩
  | some (ptr, garbage) =>
    right
    have hmax : (if size < minimumGrowth previous then minimumGrowth previous else size) =
        max size (minimumGrowth previous) := by
      split_ifs <;> omega
    dsimp only
    rw [hmax, if_pos (le_alignedCapacity ..)]
    refine ⟨ptr, garbage, _, rfl, rfl, rfl, ?_, ?_⟩
    · simp [Segment.allocated, newAllocation]
    · simp only [Segment.allocated, List.length_map, List.length_range]
      exact (le_max_left size _).trans (le_alignedCapacity ..)

variable {current : List Segment}

theorem pending_start (h : ∀ seg previous, current = seg :: previous → seg.size = 0 → previous = [])
    (loaded : List LinkMap) : (Source.start current loaded).pending = entries current := by
  cases current with
  | nil => rfl
  | cons seg previous =>
    simp only [Source.pending, Source.start]
    by_cases hzero : seg.size = 0
    · rw [h seg previous rfl hzero, entries_cons_of_zero hzero, hzero]
      rfl
    · rw [entries_cons_of_ne hzero]

theorem valid_start (h : Sized current) (loaded : List LinkMap) :
    (Source.start current loaded).Valid := by
  cases current with
  | nil => trivial
  | cons seg previous =>
    exact ⟨h seg List.mem_cons_self, fun s hs => h s (List.mem_cons_of_mem _ hs)⟩

/-- Clearing the segment behind those used ends the elements there. -/
theorem clearPrevious_spec (copy : Bool) (last : Segment) (rest : List Segment) :
    ∃ rest', (∀ (m : Mappings) (newer : List Segment), m.chain copy = newer ++ rest →
        m.applyAll (clearPrevious copy (last :: rest)) = .ok (m.setChain (newer ++ rest') copy)) ∧
      entries rest' = [] ∧ shapeOf rest' = fillShape (shapeOf rest) 0 ∧
      (Sized rest → Sized rest') := by
  cases rest with
  | nil =>
    refine ⟨[], fun m newer hm => ?_, rfl, rfl, id⟩
    rw [← hm, setChain_chain]
    rfl
  | cons seg older =>
    refine ⟨seg.setSize 0 :: older, fun m newer hm => ?_, entries_cons_of_zero rfl older, rfl,
      fun hs => ?_⟩
    · rw [clearPrevious, applyAll_cons_ok (apply_size hm 0)]
      rfl
    · refine List.forall_mem_cons.mpr ⟨Nat.zero_le _, ?_⟩
      exact fun s hs' => hs s (List.mem_cons_of_mem _ hs')

/-- The chain an update leaves: it holds the merged elements and is as long as it
was. -/
structure Rewritten (target chain : List Segment) (es : List Entry) : Prop where
  entries : entries chain = es
  sized : Sized target → Sized chain
  shape : shapeOf chain = fillShape (shapeOf target) es.length
  started : ∀ seg previous, chain = seg :: previous → seg.size ≠ 0

theorem Rewritten.allocated {es : List Entry} (h : Rewritten target chain es) :
    chain.map Segment.allocated = target.map Segment.allocated := by
  have hfst := congrArg (List.map Prod.fst) h.shape
  simp only [map_fst_fillShape, shapeOf, List.map_map] at hfst
  exact hfst

theorem updateStores_spec (copy : Bool) (hcur : Sized current)
    (hstart : ∀ seg previous, current = seg :: previous → seg.size = 0 → previous = [])
    (hn : n = (Source.start current loaded).merged.length) (hpos : 0 < n)
    (hcap : n ≤ dlfoMappingsSegmentCountAllocated target)
    (halloc : ∀ seg ∈ target, 0 < seg.allocated) :
    ∃ ws chain, updateStores copy current target loaded n = .ok ws ∧
      (∀ m : Mappings, m.chain copy = target →
        m.applyAll ws = .ok { m.setChain chain copy with version := m.version + 1 }) ∧
      Rewritten target chain (Source.start current loaded).merged.reverse := by
  cases target with
  | nil => simp [dlfoMappingsSegmentCountAllocated] at hcap; omega
  | cons seg previous =>
    simp only [dlfoMappingsSegmentCountAllocated, List.map_cons, List.sum_cons] at hcap
    have hseg := halloc seg List.mem_cons_self
    have hmin := dlfoUpdateInitSeg_eq seg n
    set first := dlfoUpdateInitSeg seg n with hfirst
    set es := (Source.start current loaded).merged
    obtain ⟨ws, last, used, rest, hplace, hfill, happly⟩ := placeAll_spec copy es seg previous first
      (by omega)
      (by simp only [dlfoMappingsSegmentCountAllocated]; omega)
      fun s hs => halloc s (List.mem_cons_of_mem _ hs)
    obtain ⟨rest', hclear, hstop, hrest, hsized⟩ := clearPrevious_spec copy last rest
    -- the loop has fuel for every element of either source
    have hloop : mergeLoop copy (mergeFuel current loaded) (Source.start current loaded)
        ⟨seg :: previous, first, n⟩ = .ok (ws, ⟨last :: rest, 0, 0⟩) := by
      rw [mergeLoop_eq copy _ _ _ (valid_start hcur loaded), hn]
      · exact hplace
      · have := length_entries_le current
        rw [pending_start hstart]
        simp only [Source.start, List.length_reverse, mergeFuel]
        omega
    rw [hn] at hmin
    have hfull := hfill.cons hmin (by omega)
    refine ⟨.size copy (seg :: previous).length first ::
        (ws ++ (clearPrevious copy (last :: rest) ++ [.version])),
      (seg.setSize first).fillTo first es :: (used ++ rest'), ?_, ?_, ?_⟩
    · simp only [updateStores, ← hfirst, hloop]
      rfl
    · intro m hm
      have hm' : m.chain copy = [] ++ seg :: previous := hm
      rw [List.length_cons, applyAll_cons_ok (apply_size hm' _), applyAll_append,
        happly _ [] (seg.setSize first) (by rw [allocated_setSize]; omega) (setChain_chain_self ..)]
      change (Mappings.setChain _ _ copy).applyAll _ = _
      rw [applyAll_append, hclear _ ((seg.setSize first).fillTo first es :: used) (by
        rw [setChain_chain_self]
        rfl)]
      simp only [setChain_setChain]
      change Except.ok _ = _
      simp only [setChain_version]
      rfl
    · refine ⟨hfull.entries rest' hstop, fun htarget => ?_, ?_, ?_⟩
      · exact List.forall_mem_append.mpr ⟨hfull.sized, hsized fun s hs =>
          htarget s (hfull.suffix.subset hs)⟩
      · rw [List.length_reverse]
        exact hfull.shape rest' hrest
      · intro a b hab
        rw [List.cons.injEq] at hab
        rw [← hab.1]
        exact (show first ≠ 0 by omega)

theorem merged_spec (hcur : Ordered (entries current))
    (hstart : ∀ seg previous, current = seg :: previous → seg.size = 0 → previous = [])
    (hobjs : (live (entries current)).Perm (objs.map dlFindObjectFromMap))
    (hplaced : Placed (objs ++ loaded))
    (hsorted : loaded.Pairwise fun a b => a.lMapStart ≤ b.lMapStart) :
    Ordered (Source.start current loaded).merged.reverse ∧
      (Source.start current loaded).merged.Perm ((objs ++ loaded).map dlFindObjectFromMap) := by
  have hmerged := merged_eq (pending_start hstart loaded) (s := Source.start current loaded) rfl
  have hloaded : (Source.start current loaded).loaded = loaded.reverse := rfl
  rw [hmerged, hloaded]
  constructor
  · rw [← pairwise_above_reverse, List.reverse_reverse]
    apply pairwise_merge
    · exact pairwise_above_reverse.mpr (hcur.sublist List.filter_sublist)
    · rw [List.map_reverse]
      exact pairwise_above_reverse.mpr (ordered_of_sorted hplaced.right hsorted)
    · intro x hx y hy
      obtain ⟨a, ha, rfl⟩ := List.mem_map.mp (hobjs.mem_iff.mp (List.mem_reverse.mp hx))
      obtain ⟨b, hb, rfl⟩ := List.mem_map.mp hy
      rw [List.mem_reverse] at hb
      exact above_or_above (hplaced.left.mapped a ha) (hplaced.right.mapped b hb)
        ((List.pairwise_append.mp hplaced.apart).2.2 a ha b hb)
  · calc List.merge (live (entries current)).reverse (loaded.reverse.map dlFindObjectFromMap) higher
        |>.Perm ((live (entries current)).reverse ++ loaded.reverse.map dlFindObjectFromMap) :=
          List.merge_perm_append _
      _ |>.Perm (objs.map dlFindObjectFromMap ++ loaded.map dlFindObjectFromMap) :=
          ((List.reverse_perm _).trans hobjs).append ((List.reverse_perm _).map _)
      _ |>.Perm ((objs ++ loaded).map dlFindObjectFromMap) := by rw [List.map_append]

theorem activeIdx_succ (v : ℕ) : activeIdx (v + 1) = !activeIdx v := by
  unfold activeIdx
  rcases Nat.mod_two_eq_zero_or_one v with h | h
  · have : (v + 1) % 2 = 1 := by omega
    simp [h, this]
  · have : (v + 1) % 2 = 0 := by omega
    simp [h, this]

theorem forall_setChain {P : List Segment → Prop} (hchain : P chain) (h : ∀ copy, P (m.chain copy))
    (idx copy : Bool) : P ((m.setChain chain idx).chain copy) := by
  by_cases hc : copy = idx
  · rw [hc, setChain_chain_self]
    exact hchain
  · rw [Bool.eq_not.mpr hc, setChain_chain_not]
    exact h _

/-- What an update does to the table `m`: the other chain is rewritten, perhaps
with a segment in front, and put into use. -/
theorem represents_rewritten (h : Represents m objs) (hplaced : Placed (objs ++ loaded))
    (hsorted : loaded.Pairwise fun a b => a.lMapStart ≤ b.lMapStart) (htarget : Sized target)
    (halloc : ∀ seg ∈ target, 0 < seg.allocated)
    (hchain : Rewritten target chain (Source.start m.active loaded).merged.reverse) :
    Represents { m.setChain chain (!activeIdx m.version) with version := m.version + 1 }
      (objs ++ loaded) := by
  obtain ⟨hord, hperm⟩ := merged_spec h.ordered h.started h.objects hplaced hsorted
  have hactive : Mappings.active
      { m.setChain chain (!activeIdx m.version) with version := m.version + 1 } = chain := by
    simp only [Mappings.active, activeIdx_succ]
    exact setChain_chain_self m chain (!activeIdx m.version)
  have hmem (e : Entry) (he : e ∈ entries chain) :
      ∃ l ∈ objs ++ loaded, dlFindObjectFromMap l = e := by
    rw [hchain.entries, List.mem_reverse, hperm.mem_iff] at he
    exact List.mem_map.mp he
  constructor
  · exact forall_setChain (hchain.sized htarget) h.sized _
  · refine forall_setChain (P := fun chain => ∀ seg ∈ chain, 0 < seg.allocated) ?_ h.allocated _
    intro seg hseg
    have hin : seg.allocated ∈ target.map Segment.allocated := by
      rw [← hchain.allocated]
      exact List.mem_map_of_mem hseg
    obtain ⟨s, hs, heq⟩ := List.mem_map.mp hin
    rw [← heq]
    exact halloc s hs
  · intro seg previous hc hzero
    rw [hactive] at hc
    exact absurd hzero (hchain.started seg previous hc)
  · rw [hactive, hchain.entries]
    exact hord
  · intro e he hzero
    rw [hactive] at he
    obtain ⟨l, -, rfl⟩ := hmem e he
    exact absurd hzero (map_fromMap_ne_zero l)
  · rw [hactive, hchain.entries]
    have hall : live (Source.start m.active loaded).merged.reverse =
        (Source.start m.active loaded).merged.reverse := by
      apply List.filter_eq_self.mpr
      intro e he
      rw [← hchain.entries] at he
      obtain ⟨l, -, rfl⟩ := hmem e he
      simpa using map_fromMap_ne_zero l
    rw [hall]
    exact (List.reverse_perm _).trans hperm
  · exact hplaced

/-- `minimumGrowth` in terms of the shape. -/
def shapeGrowth : List (ℕ × ℕ) → ℕ
  | [] => dlfoMappingsInitialSegmentSize
  | (allocated, _) :: _ => 2 * allocated

/-- The shape of the chain that an update with `n` elements writes to. -/
def growShape (shape : List (ℕ × ℕ)) (n : ℕ) : Malloc → List (ℕ × ℕ)
  | none => shape
  | some (ptr, _) =>
    let allocated := (shape.map Prod.fst).sum
    if allocated < n then (newAllocation (max (n - allocated) (shapeGrowth shape)) ptr, 0) :: shape
    else shape

theorem growShape_of_le {shape : List (ℕ × ℕ)} {malloc : Malloc}
    (h : n ≤ (shape.map Prod.fst).sum) : growShape shape n malloc = shape := by
  cases malloc with
  | none => rfl
  | some p =>
    simp only [growShape]
    rw [if_neg (by omega)]

theorem minimumGrowth_eq (chain : List Segment) :
    minimumGrowth chain = shapeGrowth (shapeOf chain) := by
  cases chain <;> rfl

theorem countAllocated_eq (chain : List Segment) :
    dlfoMappingsSegmentCountAllocated chain = ((shapeOf chain).map Prod.fst).sum := by
  simp only [dlfoMappingsSegmentCountAllocated, shapeOf, List.map_map]
  rfl

def Mappings.inactive (m : Mappings) : List Segment := m.chain !activeIdx m.version

/-- What an update with `n` elements does to the two chains. -/
structure Updated (m m' : Mappings) (n : ℕ) (malloc : Malloc) : Prop where
  version : m'.version = m.version + 1
  kept : m'.inactive = m.active
  shape : shapeOf m'.active = fillShape (growShape (shapeOf m.inactive) n malloc) n

theorem updated_setChain {malloc : Malloc}
    (h : shapeOf chain = fillShape (growShape (shapeOf m.inactive) n malloc) n) :
    Updated m { m.setChain chain (!activeIdx m.version) with version := m.version + 1 } n malloc := by
  refine ⟨rfl, ?_, ?_⟩
  · simp only [Mappings.inactive, activeIdx_succ]
    have := setChain_chain_not m chain (!activeIdx m.version)
    rwa [Bool.not_not] at this ⊢
  · simp only [Mappings.active, activeIdx_succ]
    exact (congrArg shapeOf (setChain_chain_self m chain _)).trans h

/-- An update fails for want of memory, before its first store, or its stores
lead to a table for all the objects. -/
theorem dlFindObjectUpdate1_spec (malloc : Malloc) (h : Represents m objs)
    (hplaced : Placed (objs ++ loaded)) (hne : loaded ≠ [])
    (hsorted : loaded.Pairwise fun a b => a.lMapStart ≤ b.lMapStart) :
    (malloc = none ∧ dlFindObjectUpdate1 m loaded malloc = .ok none) ∨
      ∃ ws m', dlFindObjectUpdate1 m loaded malloc = .ok (some ws) ∧ m.applyAll ws = .ok m' ∧
        Represents m' (objs ++ loaded) ∧ Updated m m' (objs ++ loaded).length malloc := by
  have hperm := (merged_spec h.ordered h.started h.objects hplaced hsorted).2
  set n := dlfoMappingsSegmentCountUsed m.active + loaded.length with hcount
  set idx := !activeIdx m.version with hidx
  have hn : n = (Source.start m.active loaded).merged.length := by
    rw [hcount, countUsed_eq, hperm.length_eq, List.length_map, List.length_append, h.objects.length_eq,
      List.length_map]
  have hall : (objs ++ loaded).length = n := by
    rw [hn, hperm.length_eq, List.length_map]
  have hpos : 0 < n := by
    have := List.length_pos_iff.mpr hne
    omega
  have hactive : Sized m.active := h.sized _
  have hsized := h.sized idx
  have halloc := h.allocated idx
  by_cases hroom : dlfoMappingsSegmentCountAllocated (m.chain idx) < n
  · simp only [dlFindObjectUpdate1, ← hcount, ← hidx, if_pos hroom]
    obtain ⟨hmalloc, hnone⟩ | ⟨ptr, garbage, seg, hmalloc, hseg, hzero, hnew, hmore⟩ := allocate_cases
      (n - dlfoMappingsSegmentCountAllocated (m.chain idx)) (m.chain idx) malloc
    · left
      rw [hnone]
      exact ⟨hmalloc, rfl⟩
    · right
      have hsized' : Sized (seg :: m.chain idx) :=
        List.forall_mem_cons.mpr ⟨by omega, hsized⟩
      have halloc' : ∀ s ∈ seg :: m.chain idx, 0 < s.allocated :=
        List.forall_mem_cons.mpr ⟨by omega, halloc⟩
      have hcap : n ≤ dlfoMappingsSegmentCountAllocated (seg :: m.chain idx) := by
        simp only [dlfoMappingsSegmentCountAllocated, List.map_cons, List.sum_cons] at hroom hmore ⊢
        omega
      obtain ⟨ws, chain, hws, happly, hchain⟩ := updateStores_spec idx hactive
        h.started hn hpos hcap halloc'
      refine ⟨.head idx seg :: ws, _, ?_, ?_,
        represents_rewritten h hplaced hsorted hsized' halloc' hchain, updated_setChain ?_⟩
      · rw [hseg]
        exact congrArg (· >>= fun ws => .ok (some (.head idx seg :: ws))) hws
      · have hhead : m.apply (.head idx seg) = .ok (m.setChain (seg :: m.chain idx) idx) := rfl
        rw [applyAll_cons_ok hhead, happly _ (setChain_chain_self ..), setChain_setChain,
          setChain_version]
      · rw [hchain.shape, List.length_reverse, ← hn, hall]
        rw [countAllocated_eq] at hroom
        rw [countAllocated_eq, minimumGrowth_eq] at hnew
        simp only [hmalloc, growShape, Mappings.inactive, ← hidx, if_pos hroom, ← hnew]
        rfl
  · right
    simp only [dlFindObjectUpdate1, ← hcount, ← hidx, if_neg hroom]
    obtain ⟨ws, chain, hws, happly, hchain⟩ := updateStores_spec idx hactive h.started
      hn hpos (by omega) halloc
    refine ⟨ws, _, ?_, happly m rfl, represents_rewritten h hplaced hsorted hsized halloc hchain,
      updated_setChain ?_⟩
    · exact congrArg (· >>= fun ws => .ok (some ws)) hws
    · rw [hchain.shape, List.length_reverse, ← hn, hall]
      rw [countAllocated_eq] at hroom
      rw [growShape_of_le (by exact Nat.le_of_not_lt hroom)]
      rfl

theorem dlFindObjectUpdate_spec {newMap : List LinkMap} (arrayFits : Bool) (malloc : Malloc)
    (h : Represents m objs) (hplaced : Placed (objs ++ newMap.filter LinkMap.isNew)) :
    ((arrayFits = false ∨ malloc = none) ∧
        dlFindObjectUpdate m newMap arrayFits malloc = .ok none) ∨
      ∃ ws m', dlFindObjectUpdate m newMap arrayFits malloc = .ok (some ws) ∧
        m.applyAll ws = .ok m' ∧ Represents m' (objs ++ newMap.filter LinkMap.isNew) ∧
        (newMap.filter LinkMap.isNew ≠ [] →
          Updated m m' (objs ++ newMap.filter LinkMap.isNew).length malloc) := by
  unfold dlFindObjectUpdate
  cases arrayFits with
  | false => exact .inl ⟨.inl rfl, rfl⟩
  | true =>
    simp only [if_true]
    by_cases hnil : newMap.filter LinkMap.isNew = []
    · right
      rw [hnil, List.append_nil]
      exact ⟨[], m, rfl, rfl, h, fun hne => absurd rfl hne⟩
    · have hperm := SelectionSort.sort_perm LinkMap.lMapStart (newMap.filter LinkMap.isNew)
      have hsort : Placed (objs ++ SelectionSort.sort LinkMap.lMapStart
          (newMap.filter LinkMap.isNew)) := hplaced.of_perm (hperm.symm.append_left objs)
      rw [if_neg (by rwa [List.length_eq_zero_iff])]
      obtain ⟨hmalloc, hnone⟩ | ⟨ws, m', hws, happly, hrep, hupd⟩ := dlFindObjectUpdate1_spec
        malloc h hsort (fun heq => hnil (heq ▸ hperm).symm.eq_nil) (SelectionSort.sort_sorted _ _)
      · exact .inl ⟨.inr hmalloc, hnone⟩
      · refine .inr ⟨ws, m', hws, happly, hrep.of_perm (hperm.append_left objs), fun _ => ?_⟩
        rw [← (hperm.append_left objs).length_eq]
        exact hupd

/-! ## A close -/

def Entry.close (e : Entry) : Entry := { e with mapEnd := e.mapStart, map := 0 }

variable {newer : List Segment}

theorem entries_append (h : ∀ s ∈ newer, s.size ≠ 0) :
    ∃ upper, ∀ chain, entries (newer ++ chain) = entries chain ++ upper := by
  induction newer with
  | nil => exact ⟨[], by simp⟩
  | cons seg newer ih =>
    rw [List.forall_mem_cons] at h
    obtain ⟨upper, hupper⟩ := ih h.2
    refine ⟨upper ++ seg.objects.take seg.size, fun chain => ?_⟩
    rw [List.cons_append, entries_cons_of_ne h.1, hupper, List.append_assoc]

variable {seg : Segment}

theorem entries_put (previous : List Segment) (hnew : ∀ s ∈ newer, s.size ≠ 0) (hne : seg.size ≠ 0)
    (hk : (seg.objects.take seg.size)[k]? = some e) :
    ∃ lower upper, ∀ e', entries (newer ++ seg.put k e' :: previous) = lower ++ e' :: upper ∧
      entries (newer ++ seg :: previous) = lower ++ e :: upper := by
  obtain ⟨upper, hupper⟩ := entries_append hnew
  obtain ⟨hlt, hget⟩ := List.getElem?_eq_some_iff.mp hk
  refine ⟨entries previous ++ (seg.objects.take seg.size).take k,
    (seg.objects.take seg.size).drop (k + 1) ++ upper, fun e' => ⟨?_, ?_⟩⟩
  · have hput : (seg.put k e').size ≠ 0 := hne
    have htake : (seg.put k e').objects.take seg.size =
        (seg.objects.take seg.size).take k ++ e' :: (seg.objects.take seg.size).drop (k + 1) := by
      rw [Segment.put, List.take_set, List.set_eq_take_append_cons_drop, if_pos hlt]
    rw [hupper, entries_cons_of_ne hput]
    change entries previous ++ (seg.put k e').objects.take seg.size ++ upper = _
    rw [htake]
    simp
  · have htake : seg.objects.take seg.size =
        (seg.objects.take seg.size).take k ++ e :: (seg.objects.take seg.size).drop (k + 1) := by
      rw [← hget, ← List.drop_eq_getElem_cons, List.take_append_drop]
    rw [hupper, entries_cons_of_ne hne]
    conv_lhs => rw [htake]
    simp

theorem ordered_close {lower upper : List Entry}
    (h : Ordered (lower ++ e :: upper)) : Ordered (lower ++ e.close :: upper) := by
  unfold Ordered at *
  rw [List.pairwise_append, List.pairwise_cons] at h ⊢
  obtain ⟨hlower, ⟨hhead, hupper⟩, hcross⟩ := h
  refine ⟨hlower, ⟨fun b hb => ?_, hupper⟩, fun a ha b hb => ?_⟩
  · have := hhead b hb
    simp only [Entry.close]
    omega
  · obtain rfl | hb := List.mem_cons.mp hb
    · exact hcross a ha e List.mem_cons_self
    · exact hcross a ha b (List.mem_cons_of_mem _ hb)

theorem applyAll_close {copy : Bool} {previous : List Segment}
    (h : m.chain copy = newer ++ seg :: previous) (hk : seg.objects[k]? = some e) :
    m.applyAll [.object copy (previous.length + 1) k .mapEnd e.mapStart,
      .object copy (previous.length + 1) k .map 0] =
      .ok (m.setChain (newer ++ seg.put k e.close :: previous) copy) := by
  obtain ⟨hlt, rfl⟩ := List.getElem?_eq_some_iff.mp hk
  have hput : (seg.setField k .mapEnd seg.objects[k].mapStart).setField k .map 0 =
      seg.put k seg.objects[k].close := by
    simp only [Segment.setField, Segment.put, Segment.mk.injEq, true_and]
    apply List.ext_getElem?
    intro j
    by_cases hj : k = j
    · subst hj
      simp [hlt, Entry.set, Entry.close]
    · simp [hj]
  rw [applyAll_cons_ok (apply_object h hlt _ _), applyAll_cons_ok (apply_object
    (setChain_chain_self ..) (by simpa [Segment.setField, Segment.allocated] using hlt) _ _),
    setChain_setChain, hput]
  rfl

theorem represents_close {map : LinkMap} {previous : List Segment} (h : Represents m objs)
    (hmap : map ∈ objs) (hc : m.active = newer ++ seg :: previous) (hnew : ∀ s ∈ newer, s.size ≠ 0)
    (hne : seg.size ≠ 0) (hk : (seg.objects.take seg.size)[k]? = some (dlFindObjectFromMap map)) :
    Represents (m.setChain (newer ++ seg.put k (dlFindObjectFromMap map).close :: previous)
      (activeIdx m.version)) (objs.erase map) := by
  obtain ⟨lower, upper, hentries⟩ := entries_put previous hnew hne hk
  obtain ⟨hclosed, hopen⟩ := hentries (dlFindObjectFromMap map).close
  rw [← hc] at hopen
  have hactive : (m.setChain (newer ++ seg.put k (dlFindObjectFromMap map).close :: previous)
      (activeIdx m.version)).active =
      newer ++ seg.put k (dlFindObjectFromMap map).close :: previous := by
    rw [Mappings.active, setChain_version, setChain_chain_self]
  have hput {P : Segment → Prop} (hP : P seg → P (seg.put k (dlFindObjectFromMap map).close))
      (hall : ∀ s ∈ m.active, P s) :
      ∀ s ∈ newer ++ seg.put k (dlFindObjectFromMap map).close :: previous, P s := by
    rw [hc] at hall
    simp only [List.forall_mem_append, List.forall_mem_cons] at hall ⊢
    exact ⟨hall.1, hP hall.2.1, hall.2.2⟩
  have hzero : (dlFindObjectFromMap map).close.map = 0 := rfl
  constructor
  · exact forall_setChain (hput (fun hs => by rw [allocated_put]; exact hs) (h.sized _)) h.sized _
  · exact forall_setChain (P := fun chain => ∀ seg ∈ chain, 0 < seg.allocated)
      (hput (fun hs => by rwa [allocated_put]) (h.allocated _)) h.allocated _
  · intro s previous' hs hsize
    rw [hactive] at hs
    -- the segments in front of the element and its own segment are in use
    cases newer with
    | nil =>
      rw [List.nil_append, List.cons.injEq] at hs
      rw [← hs.1] at hsize
      exact absurd hsize hne
    | cons a newer =>
      rw [List.cons_append, List.cons.injEq] at hs
      exact absurd (hs.1 ▸ hsize) (hnew a List.mem_cons_self)
  · rw [hactive, hclosed]
    exact ordered_close (hopen ▸ h.ordered)
  · intro e he hmapz
    rw [hactive, hclosed] at he
    obtain he | he := List.mem_append.mp he
    · exact h.closed e (hopen ▸ List.mem_append_left _ he) hmapz
    · obtain rfl | he := List.mem_cons.mp he
      · rfl
      · exact h.closed e (hopen ▸ List.mem_append_right _ (List.mem_cons_of_mem _ he)) hmapz
  · rw [hactive, hclosed]
    have hperm := h.objects
    have hlive : live (lower ++ dlFindObjectFromMap map :: upper) =
        live lower ++ dlFindObjectFromMap map :: live upper := by
      simp [live, map_fromMap_ne_zero map]
    have hlive' : live (lower ++ (dlFindObjectFromMap map).close :: upper) =
        live lower ++ live upper := by
      simp [live, hzero]
    rw [hopen, hlive] at hperm
    rw [hlive']
    apply List.Perm.cons_inv (a := dlFindObjectFromMap map)
    calc (dlFindObjectFromMap map :: (live lower ++ live upper)).Perm
          (live lower ++ dlFindObjectFromMap map :: live upper) := List.perm_middle.symm
      _ |>.Perm (objs.map dlFindObjectFromMap) := hperm
      _ |>.Perm ((map :: objs.erase map).map dlFindObjectFromMap) :=
          (List.perm_cons_erase hmap).map _
  · exact ⟨fun l hl => h.placed.mapped l (List.mem_of_mem_erase hl),
      h.placed.apart.sublist List.erase_sublist⟩

theorem dlFindObjectDlclose_spec {map : LinkMap} (h : Represents m objs) (hmap : map ∈ objs) :
    ∃ ws m', dlFindObjectDlclose m map = .ok ws ∧ m.applyAll ws = .ok m' ∧
      Represents m' (objs.erase map) := by
  have hin := h.mem_entries hmap
  have hcon : (dlFindObjectFromMap map).Contains map.lMapStart := ⟨le_rfl, h.placed.mapped map hmap⟩
  obtain ⟨r, hrun, hloc⟩ := locateActive_run (h.sized _) h.ordered map.lMapStart
  match r, hloc with
  | none, hloc => exact absurd hcon (hloc _ hin)
  | some (_, _), ⟨newer, seg, previous, k, e, hc, rfl, rfl, hnew, hne, hk, hpc⟩ =>
    have hmem : e ∈ entries m.active :=
      hc ▸ mem_entries_append hnew hne (List.mem_of_getElem? hk)
    have heq := h.ordered.eq_of_contains hmem hin hpc hcon
    subst heq
    have hchain : m.chain (activeIdx m.version) = newer ++ seg :: previous := hc
    have hload := reads_objects hchain rfl k _ hk .mapStart
    have hget : seg.objects[k]? = some (dlFindObjectFromMap map) := by
      rw [List.getElem?_take] at hk
      split_ifs at hk
      exact hk
    refine ⟨_, _, ?_, applyAll_close hc hget, represents_close h hmap hc hnew hne hk⟩
    simp only [dlFindObjectDlclose, hrun, hload]
    rfl

/-! ## Runs -/

/-- What an operation may be asked to do while `objs` are open: the objects added
have mappings that overlap neither each other nor an open one, and the object
closed is open. -/
def Admissible (objs : List LinkMap) : Op → Prop
  | .dlopen newMap _ _ => Placed (objs ++ newMap.filter LinkMap.isNew)
  | .dlclose map => map ∈ objs

def openAfter (objs : List LinkMap) : Op → Bool → List LinkMap
  | .dlopen newMap _ _, success => if success then objs ++ newMap.filter LinkMap.isNew else objs
  | .dlclose map, _ => objs.erase map

theorem step_spec {op : Op} (h : Represents m objs) (hop : Admissible objs op) :
    ∃ success m', m.step op = .ok (success, m') ∧ Represents m' (openAfter objs op success) ∧
      (success = false → m' = m) := by
  cases op with
  | dlopen newMap arrayFits malloc =>
    obtain ⟨-, hnone⟩ | ⟨ws, m', hws, happly, hrep, -⟩ :=
      dlFindObjectUpdate_spec arrayFits malloc h hop
    · refine ⟨false, m, ?_, h, fun _ => rfl⟩
      simp only [Mappings.step, hnone]
      rfl
    · refine ⟨true, m', ?_, hrep, by simp⟩
      simp only [Mappings.step, hws]
      exact congrArg (· >>= fun m => .ok (true, m)) happly
  | dlclose map =>
    obtain ⟨ws, m', hws, happly, hrep⟩ := dlFindObjectDlclose_spec h hop
    refine ⟨true, m', ?_, hrep, by simp⟩
    simp only [Mappings.step, hws]
    exact congrArg (· >>= fun m => .ok (true, m)) happly

/-- The table as initialization leaves it: nothing opened since, the first chain
without elements in use. -/
structure Initial (m : Mappings) : Prop where
  version : m.version = 0
  chain0 : ∀ seg ∈ m.chain0, seg.size = 0 ∧ 0 < seg.allocated
  single : m.chain0.length ≤ 1
  chain1 : m.chain1 = []

inductive Reached (m₀ : Mappings) : Mappings → List LinkMap → Prop
  | start : Reached m₀ m₀ []
  | step {m m' : Mappings} {objs : List LinkMap} {op : Op} {success : Bool}
      (h : Reached m₀ m objs) (hop : Admissible objs op) (hstep : m.step op = .ok (success, m')) :
      Reached m₀ m' (openAfter objs op success)

theorem Initial.represents (h : Initial m) : Represents m [] := by
  have hactive : m.active = m.chain0 := by simp [Mappings.active, activeIdx, h.version, Mappings.chain]
  have hentries : entries m.active = [] := by
    rw [hactive]
    cases hc : m.chain0 with
    | nil => rfl
    | cons seg previous => exact entries_cons_of_zero (h.chain0 seg (by simp [hc])).1 previous
  constructor
  · intro copy
    cases copy with
    | false => exact fun seg hseg => by rw [(h.chain0 seg hseg).1]; exact Nat.zero_le _
    | true => simp [Mappings.chain, h.chain1, Sized]
  · intro copy
    cases copy with
    | false => exact fun seg hseg => (h.chain0 seg hseg).2
    | true => simp [Mappings.chain, h.chain1]
  · intro seg previous hc _
    have := h.single
    rw [← hactive, hc, List.length_cons] at this
    exact List.length_eq_zero_iff.mp (by omega)
  · rw [hentries]
    exact .nil
  · simp [hentries]
  · simp [hentries, live]
  · exact ⟨by simp, .nil⟩

theorem represents_of_reached {m₀ : Mappings} (h₀ : Initial m₀) (h : Reached m₀ m objs) :
    Represents m objs := by
  induction h with
  | start => exact h₀.represents
  | step _ hop hstep ih =>
    obtain ⟨success, m', hstep', hrep, -⟩ := step_spec ih hop
    rw [hstep, Except.ok.injEq, Prod.mk.injEq] at hstep'
    rw [hstep'.1, hstep'.2]
    exact hrep

/-- In every run the table stands for the open objects and a lookup answers for
them; no operation stops short, and one that fails leaves the table as it was. -/
theorem reached_table {m₀ m : Mappings} {objs : List LinkMap} (h₀ : Initial m₀)
    (h : Reached m₀ m objs) :
    Represents m objs ∧
      (∀ pc, m.find pc = some ((objs.find? (·.Contains pc)).map dlFindObjectFromMap)) ∧
      ∀ op, Admissible objs op → ∃ success m', m.step op = .ok (success, m') ∧
        Represents m' (openAfter objs op success) ∧ (success = false → m' = m) := by
  have hrep := represents_of_reached h₀ h
  exact ⟨hrep, hrep.find, fun op hop => step_spec hrep hop⟩

section Example

def rowObject (i : ℕ) : LinkMap where
  address := i + 1
  address_pos := Nat.succ_pos i
  lAddr := 0
  lMapStart := 16 * i
  lMapEnd := 16 * i + 16
  lPhdr := []
  lContiguous := true
  lType := .loaded
  lNodeleteActive := false
  lNs := 0
  lReal := i + 1
  lFindObjectProcessed := false

def rowMemory : Malloc := some (16, fun _ => ⟨0, 0, 0, 0⟩)

def openRow (i n : ℕ) : Op := .dlopen ((List.range' i n).map rowObject) true rowMemory

def emptyTable : Mappings := ⟨[], [], 0⟩

theorem initial_emptyTable : Initial emptyTable := ⟨rfl, by simp [emptyTable], by simp [emptyTable], rfl⟩

theorem filter_isNew_row (i n : ℕ) : ((List.range' i n).map rowObject).filter LinkMap.isNew =
    (List.range' i n).map rowObject := by
  apply List.filter_eq_self.mpr
  intro l hl
  obtain ⟨k, -, rfl⟩ := List.mem_map.mp hl
  simp [LinkMap.isNew, LinkMap.isReal, rowObject]

theorem placed_row (i n : ℕ) : Placed ((List.range' i n).map rowObject) := by
  constructor
  · intro l hl
    obtain ⟨k, -, rfl⟩ := List.mem_map.mp hl
    simp only [rowObject]
    omega
  · rw [List.pairwise_map]
    refine (List.pairwise_lt_range' (s := i) (n := n)).imp ?_
    intro a b hab
    left
    simp only [rowObject]
    omega

theorem row_append (i n : ℕ) : List.range' 0 i ++ List.range' i n = List.range' 0 (i + n) := by
  have := List.range'_append_1 (s := 0) (m := i) (n := n)
  rwa [Nat.zero_add] at this

theorem admissible_openRow {objs : List LinkMap} {i : ℕ} (h : objs = (List.range' 0 i).map rowObject)
    (n : ℕ) : Admissible objs (openRow i n) := by
  subst h
  simp only [openRow, Admissible, filter_isNew_row, ← List.map_append, row_append]
  exact placed_row 0 (i + n)

theorem reached_openRow {m : Mappings} {i : ℕ}
    (h : Reached emptyTable m ((List.range' 0 i).map rowObject)) (n : ℕ) :
    ∃ m', Reached emptyTable m' ((List.range' 0 (i + (n + 1))).map rowObject) ∧
      shapeOf m'.active = fillShape (growShape (shapeOf m.inactive) (i + (n + 1)) rowMemory)
        (i + (n + 1)) ∧ shapeOf m'.inactive = shapeOf m.active := by
  have hrep := represents_of_reached initial_emptyTable h
  have hop := admissible_openRow rfl (n + 1) (i := i)
  obtain ⟨hfail, -⟩ | ⟨ws, m', hws, happly, -, hupd⟩ :=
    dlFindObjectUpdate_spec true rowMemory hrep hop
  · obtain hfail | hfail := hfail <;> cases hfail
  · have hstep : m.step (openRow i (n + 1)) = .ok (true, m') := by
      simp only [openRow, Mappings.step, hws]
      exact congrArg (· >>= fun m => .ok (true, m)) happly
    have hnext := h.step hop hstep
    have hupd := hupd (by rw [filter_isNew_row]; simp)
    simp only [openRow, openAfter, if_true, filter_isNew_row, ← List.map_append, row_append]
      at hnext hupd
    rw [List.length_map, List.length_range'] at hupd
    exact ⟨m', hnext, hupd.shape, congrArg shapeOf hupd.kept⟩

/-- Twice in a row opening one object: both chains have been put into use. -/
theorem reached_table_two : ∃ m, Initial emptyTable ∧
    Reached emptyTable m ((List.range' 0 2).map rowObject) ∧
    m.find 20 = some (some (dlFindObjectFromMap (rowObject 1))) := by
  obtain ⟨m₁, h₁, -⟩ := reached_openRow (m := emptyTable) (i := 0) .start 0
  obtain ⟨m₂, h₂, -⟩ := reached_openRow h₁ 0
  refine ⟨m₂, initial_emptyTable, h₂, ?_⟩
  rw [(reached_table initial_emptyTable h₂).2.1]
  decide

def UnusedEmpty (chain : List Segment) : Prop :=
  ∀ newer seg older, chain = newer ++ seg :: older → seg.size = 0 → ∀ s ∈ older, s.size = 0

/-- An update sets the size of the first unused segment only. The objects are
opened 1, 1, 134, 1 and 66 at a time: the third update needs a second segment
behind a first one of 135 elements, and the fifth needs neither of the two. -/
theorem unused_segment_keeps_size : ∃ m objs, Initial emptyTable ∧ Reached emptyTable m objs ∧
    ¬UnusedEmpty m.active := by
  obtain ⟨m₁, h₁, ha₁, hi₁⟩ := reached_openRow (m := emptyTable) (i := 0) .start 0
  obtain ⟨m₂, h₂, ha₂, hi₂⟩ := reached_openRow h₁ 0
  obtain ⟨m₃, h₃, ha₃, hi₃⟩ := reached_openRow h₂ 133
  obtain ⟨m₄, h₄, ha₄, hi₄⟩ := reached_openRow h₃ 0
  obtain ⟨m₅, h₅, ha₅, hi₅⟩ := reached_openRow h₄ 65
  have hshape : shapeOf m₅.active = [(271, 203), (135, 0), (67, 1)] := by
    rw [ha₅, hi₄, ha₃, hi₂, ha₁]
    decide
  refine ⟨m₅, _, initial_emptyTable, h₅, fun hempty => ?_⟩
  -- the three segments that have this shape
  rw [shapeOf, List.map_eq_cons_iff] at hshape
  obtain ⟨c, rest, hc, -, hshape⟩ := hshape
  obtain ⟨b, rest', rfl, hb, hshape⟩ := List.map_eq_cons_iff.mp hshape
  obtain ⟨a, rest'', rfl, ha, hshape⟩ := List.map_eq_cons_iff.mp hshape
  rw [List.map_eq_nil_iff] at hshape
  subst hshape
  rw [Prod.mk.injEq] at ha hb
  have := hempty [c] b [a] hc hb.2 a List.mem_cons_self
  omega

end Example

end AwaitGlibc.FindObject
