import AwaitGlibc.FindObjectSearch

/-!
# The merge of an update

The merge is taken apart in two. What it reads, element by element, is the merge
of two lists in decreasing order, with the closed elements left out. Where it
writes depends only on how many elements there are: it fills the target chain
from the newest segment on, and the elements end up in the chain in increasing
order.
-/
namespace AwaitGlibc.FindObject
open CheckedArray

/-! ## What is read -/

/-- The elements of the chain in use that the merge has not reached yet. -/
def Source.pending (s : Source) : List Entry :=
  match s.current with
  | [] => []
  | seg :: previous => entries previous ++ seg.objects.take s.currentIndex1

def Source.Valid (s : Source) : Prop :=
  match s.current with
  | [] => True
  | seg :: previous => s.currentIndex1 ≤ seg.allocated ∧ Sized previous

def live (es : List Entry) : List Entry := es.filter (·.map ≠ 0)

def higher (x y : Entry) : Bool := y.mapStart < x.mapStart

/-- The elements the merge is going to write, in the order in which it does. -/
def Source.merged (s : Source) : List Entry :=
  List.merge (live s.pending).reverse (s.loaded.map dlFindObjectFromMap) higher

def placeAll (copy : Bool) : List Entry → Target → Except Stop (List Store × Target)
  | [], t => .ok ([], t)
  | e :: es, t => do
      let (ws, t) ← t.place copy e
      let (rest, t) ← placeAll copy es t
      return (ws ++ rest, t)

variable {seg : Segment}

theorem entries_cons_of_zero (h : seg.size = 0) (previous : List Segment) :
    entries (seg :: previous) = [] := by
  simp [entries, h]

theorem entries_cons_of_ne (h : seg.size ≠ 0) (previous : List Segment) :
    entries (seg :: previous) = entries previous ++ seg.objects.take seg.size := by
  simp [entries, h]

@[simp] theorem switch_loaded (s : Source) : s.switch.loaded = s.loaded := by
  unfold Source.switch
  split
  · split
    · split <;> rfl
    · rfl
  · rfl

variable {i : ℕ}

theorem exists_last (h : i < seg.allocated) :
    ∃ e, seg.objects[i]? = some e ∧ seg.objects.take (i + 1) = seg.objects.take i ++ [e] :=
  ⟨seg.objects[i], List.getElem?_eq_getElem h, List.take_succ_eq_append_getElem h⟩

variable {s : Source}

theorem switch_cases (hs : s.Valid) :
    (s.switch.current = [] ∧ s.pending = []) ∨
      ∃ seg previous i, s.switch.current = seg :: previous ∧ s.switch.currentIndex1 = i + 1 ∧
        i < seg.allocated ∧ Sized previous ∧
        s.pending = entries previous ++ seg.objects.take (i + 1) := by
  obtain ⟨current, index1, loaded⟩ := s
  cases index1 with
  | succ i =>
    cases current with
    | nil => exact .inl ⟨rfl, rfl⟩
    | cons seg previous => exact .inr ⟨seg, previous, i, rfl, rfl, hs.1, hs.2, rfl⟩
  | zero =>
    match current, hs with
    | [], _ => exact .inl ⟨rfl, rfl⟩
    | [seg], _ => exact .inl ⟨rfl, by simp [Source.pending, entries]⟩
    | _ :: seg :: older, ⟨_, hsized⟩ =>
      have hseg := hsized seg List.mem_cons_self
      by_cases hzero : seg.size = 0
      · refine .inl ⟨by simp [Source.switch, hzero], ?_⟩
        simp [Source.pending, entries_cons_of_zero hzero]
      · obtain ⟨i, hi⟩ := Nat.exists_eq_succ_of_ne_zero hzero
        refine .inr ⟨seg, older, i, by simp [Source.switch, hzero],
          by simp [Source.switch, hi], by omega,
          fun a ha => hsized a (List.mem_cons_of_mem _ ha), ?_⟩
        simp [Source.pending, entries_cons_of_ne hzero, hi]

variable {es : List Entry}

theorem merged_eq {ls : List LinkMap} (h : s.pending = es) (hl : s.loaded = ls) :
    s.merged = List.merge (live es).reverse (ls.map dlFindObjectFromMap) higher := by
  rw [Source.merged, h, hl]

theorem mergeLoop_succ {cur : Option Entry} (h : s.switch.currentObject = .ok cur)
    (copy : Bool) (fuel : ℕ) (t : Target) :
    mergeLoop copy (fuel + 1) s t = match choose cur s.loaded with
      | .finish => .ok ([], t)
      | .skipClosed => mergeLoop copy fuel s.switch.consumeCurrent t
      | .takeCurrent e => t.place copy e >>= fun p =>
        mergeLoop copy fuel s.switch.consumeCurrent p.2 >>= fun q => .ok (p.1 ++ q.1, q.2)
      | .takeLoaded l => t.place copy (dlFindObjectFromMap l) >>= fun p =>
        mergeLoop copy fuel s.switch.consumeLoaded p.2 >>= fun q => .ok (p.1 ++ q.1, q.2) := by
  rw [mergeLoop, h, switch_loaded]
  rfl

theorem placeAll_cons {copy : Bool} {e : Entry} {t : Target}
    {rest : Target → Except Stop (List Store × Target)} (h : ∀ t, rest t = placeAll copy es t) :
    (t.place copy e >>= fun p => rest p.2 >>= fun q => .ok (p.1 ++ q.1, q.2)) =
      placeAll copy (e :: es) t := by
  simp only [h]
  rfl

variable (m : Mappings) (chain : List Segment) (copy : Bool)

/-- The merge writes the merged elements, whatever the target is. -/
theorem mergeLoop_eq (fuel : ℕ) (s : Source) (t : Target) (hs : s.Valid)
    (hfuel : s.pending.length + s.loaded.length < fuel) :
    mergeLoop copy fuel s t = placeAll copy s.merged t := by
  induction fuel generalizing s t with
  | zero => omega
  | succ fuel ih =>
    obtain ⟨hnil, hpend⟩ | ⟨seg, previous, i, hcur, hidx, hi, hprev, hpend⟩ := switch_cases hs
    · have hobj : s.switch.currentObject = .ok none := by simp [Source.currentObject, hnil]
      rw [mergeLoop_succ hobj]
      cases hl : s.loaded with
      | nil =>
        rw [merged_eq hpend hl]
        simp only [live, List.filter_nil, List.reverse_nil, List.nil_merge]
        rfl
      | cons l ls =>
        have hrest : s.switch.consumeLoaded.pending = [] := by
          simp [Source.pending, Source.consumeLoaded, hnil]
        have hloaded : s.switch.consumeLoaded.loaded = ls := by
          simp [Source.consumeLoaded, hl]
        rw [hpend, hl, List.length_cons] at hfuel
        rw [merged_eq hpend hl]
        simp only [live, List.filter_nil, List.reverse_nil, List.nil_merge, List.map_cons]
        apply placeAll_cons
        intro t
        rw [ih _ t (by simp [Source.Valid, Source.consumeLoaded, hnil])
          (by rw [hrest, hloaded]; omega), merged_eq hrest hloaded]
        simp only [live, List.filter_nil, List.reverse_nil, List.nil_merge]
    · obtain ⟨e, he, htake⟩ := exists_last hi
      have hobj : s.switch.currentObject = .ok (some e) := by
        simp [Source.currentObject, hcur, hidx, he]
      rw [mergeLoop_succ hobj]
      -- what is left when the element has been dealt with
      have hrest : s.switch.consumeCurrent.pending = entries previous ++ seg.objects.take i := by
        simp [Source.pending, Source.consumeCurrent, hcur, hidx]
      have hloaded : s.switch.consumeCurrent.loaded = s.loaded := by simp [Source.consumeCurrent]
      have hvalid : s.switch.consumeCurrent.Valid := by
        simp only [Source.Valid, Source.consumeCurrent, hcur, hidx]
        exact ⟨by omega, hprev⟩
      have hsplit : s.pending = entries previous ++ seg.objects.take i ++ [e] := by
        rw [hpend, htake, List.append_assoc]
      have hlen : s.pending.length = s.switch.consumeCurrent.pending.length + 1 := by
        rw [hsplit, hrest, List.length_append, List.length_singleton]
      have hrec (t : Target) : mergeLoop copy fuel s.switch.consumeCurrent t = placeAll copy
          (List.merge (live (entries previous ++ seg.objects.take i)).reverse
            (s.loaded.map dlFindObjectFromMap) higher) t := by
        rw [ih _ t hvalid (by rw [hloaded]; omega), merged_eq hrest hloaded]
      rw [merged_eq hsplit rfl]
      by_cases hmap : e.map = 0
      · have hdrop : live (entries previous ++ seg.objects.take i ++ [e]) =
            live (entries previous ++ seg.objects.take i) := by
          simp [live, hmap]
        rw [hdrop]
        simp only [choose, if_pos hmap]
        exact hrec t
      · have hkeep : (live (entries previous ++ seg.objects.take i ++ [e])).reverse =
            e :: (live (entries previous ++ seg.objects.take i)).reverse := by
          simp [live, hmap]
        rw [hkeep]
        cases hl : s.loaded with
        | nil =>
          simp only [choose, if_neg hmap, List.map_nil, List.merge_right]
          apply placeAll_cons
          intro t
          rw [hrec, hl, List.map_nil, List.merge_right]
        | cons l ls =>
          simp only [choose, if_neg hmap, List.map_cons]
          by_cases hlt : l.lMapStart < e.mapStart
          · have hhigh : higher e (dlFindObjectFromMap l) = true := decide_eq_true hlt
            rw [List.cons_merge_cons_pos _ _ _ hhigh, if_pos hlt]
            apply placeAll_cons
            intro t
            rw [hrec, hl, List.map_cons]
          · have hhigh : ¬higher e (dlFindObjectFromMap l) = true := by
              rw [higher, decide_eq_true_eq]
              exact hlt
            rw [List.cons_merge_cons_neg _ _ _ hhigh, if_neg hlt]
            apply placeAll_cons
            intro t
            have hpend' : s.switch.consumeLoaded.pending =
                entries previous ++ seg.objects.take i ++ [e] := by
              rw [← hsplit, hpend]
              simp [Source.pending, Source.consumeLoaded, hcur, hidx]
            have hloaded' : s.switch.consumeLoaded.loaded = ls := by
              simp [Source.consumeLoaded, hl]
            rw [hl, List.length_cons, hsplit] at hfuel
            rw [ih _ t _ (by rw [hpend', hloaded']; omega), merged_eq hpend' hloaded', hkeep]
            simp only [Source.Valid, Source.consumeLoaded, hcur, hidx]
            exact ⟨hi, hprev⟩

/-! ## The order of what is written -/

/-- The order of `Ordered`, read from the back. -/
def Above (a b : Entry) : Prop := b.mapStart < a.mapStart ∧ b.mapEnd ≤ a.mapStart

theorem pairwise_above_reverse : es.reverse.Pairwise Above ↔ Ordered es :=
  List.pairwise_reverse

theorem pairwise_merge {xs ys : List Entry} (hx : xs.Pairwise Above) (hy : ys.Pairwise Above)
    (hxy : ∀ x ∈ xs, ∀ y ∈ ys, Above x y ∨ Above y x) :
    (List.merge xs ys higher).Pairwise Above := by
  induction xs generalizing ys with
  | nil => simpa using hy
  | cons x xs ihx =>
    induction ys with
    | nil => simpa using hx
    | cons y ys ihy =>
      obtain ⟨hxs, hxt⟩ := List.pairwise_cons.mp hx
      obtain ⟨hys, hyt⟩ := List.pairwise_cons.mp hy
      have hhead := hxy x List.mem_cons_self y List.mem_cons_self
      by_cases hlt : y.mapStart < x.mapStart
      · have habove : Above x y := hhead.resolve_right fun h => by unfold Above at h; omega
        rw [List.cons_merge_cons_pos _ _ _ (decide_eq_true hlt)]
        refine List.Pairwise.cons ?_ (ihx hxt hy fun a ha => hxy a (List.mem_cons_of_mem _ ha))
        intro b hb
        obtain hb | hb := List.mem_append.mp ((List.merge_perm_append _).mem_iff.mp hb)
        · exact hxs b hb
        · obtain rfl | hb := List.mem_cons.mp hb
          · exact habove
          · have := hys b hb
            unfold Above at *
            omega
      · have habove : Above y x := hhead.resolve_left fun h => hlt h.1
        rw [List.cons_merge_cons_neg _ _ _ (by rw [higher, decide_eq_true_eq]; exact hlt)]
        refine List.Pairwise.cons ?_
          (ihy hyt fun a ha b hb => hxy a ha b (List.mem_cons_of_mem _ hb))
        intro b hb
        obtain hb | hb := List.mem_append.mp ((List.merge_perm_append _).mem_iff.mp hb)
        · obtain rfl | hb := List.mem_cons.mp hb
          · exact habove
          · have := hxs b hb
            unfold Above at *
            omega
        · exact hys b hb

/-! ## Where it is written -/

theorem setChain_chain_self : (m.setChain chain copy).chain copy = chain := by
  cases copy <;> rfl

theorem setChain_chain_not : (m.setChain chain copy).chain (!copy) = m.chain (!copy) := by
  cases copy <;> rfl

theorem setChain_version : (m.setChain chain copy).version = m.version := by
  cases copy <;> rfl

theorem setChain_setChain (a b : List Segment) (copy : Bool) :
    (m.setChain a copy).setChain b copy = m.setChain b copy := by
  cases copy <;> rfl

theorem setChain_chain : m.setChain (m.chain copy) copy = m := by
  cases copy <;> rfl

theorem modifySegment_append (f : Segment → Segment) (newer : List Segment) (seg : Segment)
    (previous : List Segment) :
    modifySegment f (newer ++ seg :: previous) (previous.length + 1) =
      newer ++ f seg :: previous := by
  induction newer with
  | nil => simp [modifySegment]
  | cons a newer ih =>
    simp only [List.cons_append, modifySegment]
    rw [if_neg (by simp; omega), ih]

section Stores
variable {m : Mappings} {copy : Bool} {newer previous : List Segment} {seg : Segment}

theorem apply_size (h : m.chain copy = newer ++ seg :: previous) (n : ℕ) :
    m.apply (.size copy (previous.length + 1) n) =
      .ok (m.setChain (newer ++ seg.setSize n :: previous) copy) := by
  simp [Mappings.apply, h, segmentAt_append, modifySegment_append]

theorem apply_object (h : m.chain copy = newer ++ seg :: previous)
    (hi : i < seg.allocated) (f : Field) (v : ℕ) :
    m.apply (.object copy (previous.length + 1) i f v) =
      .ok (m.setChain (newer ++ seg.setField i f v :: previous) copy) := by
  simp [Mappings.apply, h, segmentAt_append, modifySegment_append, hi]

theorem applyAll_append (m : Mappings) (ws ws' : List Store) :
    m.applyAll (ws ++ ws') = m.applyAll ws >>= fun m => m.applyAll ws' := by
  induction ws generalizing m with
  | nil => rfl
  | cons w ws ih =>
    simp only [List.cons_append, Mappings.applyAll, bind_assoc]
    exact bind_congr fun m => ih m

theorem applyAll_cons_ok {m m' : Mappings} {w : Store} (h : m.apply w = .ok m') (ws : List Store) :
    m.applyAll (w :: ws) = m'.applyAll ws := by
  rw [Mappings.applyAll, h]
  rfl

def Segment.put (i : ℕ) (e : Entry) (seg : Segment) : Segment :=
  { seg with objects := seg.objects.set i e }

@[simp] theorem allocated_setSize (seg : Segment) (n : ℕ) :
    (seg.setSize n).allocated = seg.allocated := rfl

@[simp] theorem allocated_put (seg : Segment) (i : ℕ) (e : Entry) :
    (seg.put i e).allocated = seg.allocated := by
  simp [Segment.put, Segment.allocated]

theorem setField_all (seg : Segment) (hi : i < seg.allocated) (e : Entry) :
    Segment.setField i .ehFrame e.ehFrame (Segment.setField i .map e.map
      (Segment.setField i .mapEnd e.mapEnd (Segment.setField i .mapStart e.mapStart seg))) =
      seg.put i e := by
  simp only [Segment.setField, Segment.put, Segment.mk.injEq, true_and]
  apply List.ext_getElem?
  intro k
  by_cases hk : i = k
  · subst hk
    have hlt : i < seg.objects.length := hi
    simp [hlt, Entry.set]
  · simp [hk]

theorem applyAll_entryStores (h : m.chain copy = newer ++ seg :: previous)
    (hi : i < seg.allocated) (e : Entry) :
    m.applyAll (entryStores copy (previous.length + 1) i e) =
      .ok (m.setChain (newer ++ seg.put i e :: previous) copy) := by
  have hlen (f : Field) (v : ℕ) (seg : Segment) :
      (seg.setField i f v).allocated = seg.allocated := by
    simp [Segment.setField, Segment.allocated]
  unfold entryStores
  rw [applyAll_cons_ok (apply_object h hi _ _),
    applyAll_cons_ok (apply_object (setChain_chain_self ..) (by rw [hlen]; exact hi) _ _),
    applyAll_cons_ok (apply_object (setChain_chain_self ..) (by simp only [hlen]; exact hi) _ _),
    applyAll_cons_ok (apply_object (setChain_chain_self ..) (by simp only [hlen]; exact hi) _ _)]
  simp only [setChain_setChain, Mappings.applyAll, setField_all seg hi]

end Stores

def shapeOf (chain : List Segment) : List (ℕ × ℕ) := chain.map fun seg => (seg.allocated, seg.size)

/-- The shape of a chain after `n` elements have been written to it. Only the first
segment left unused gets size zero; those behind it keep the size they had. -/
def fillShape : List (ℕ × ℕ) → ℕ → List (ℕ × ℕ)
  | [], _ => []
  | (allocated, _) :: older, n =>
    if n = 0 then (allocated, 0) :: older
    else (allocated, min n allocated) :: fillShape older (n - min n allocated)

theorem map_fst_fillShape (shape : List (ℕ × ℕ)) (n : ℕ) :
    (fillShape shape n).map Prod.fst = shape.map Prod.fst := by
  induction shape generalizing n with
  | nil => rfl
  | cons p older ih =>
    simp only [fillShape]
    split_ifs
    · rfl
    · rw [List.map_cons, ih, List.map_cons]

/-- The segments `previous` after the elements `es`, given from the highest on,
have been written into them: those used, which now hold the elements, and the
rest. -/
structure Fill (previous used rest : List Segment) (es : List Entry) : Prop where
  suffix : rest <:+ previous
  shape : ∀ rest', shapeOf rest' = fillShape (shapeOf rest) 0 →
    shapeOf (used ++ rest') = fillShape (shapeOf previous) es.length
  sized : Sized used
  entries : ∀ stop, entries stop = [] → entries (used ++ stop) = es.reverse

def Segment.fillTo (i : ℕ) (es : List Entry) (seg : Segment) : Segment :=
  { seg with objects := (es.take i).reverse ++ seg.objects.drop i }

theorem allocated_fillTo (hi : i ≤ es.length) (hseg : i ≤ seg.allocated) :
    (seg.fillTo i es).allocated = seg.allocated := by
  simp only [Segment.allocated, Segment.fillTo, List.length_append, List.length_reverse,
    List.length_take, List.length_drop] at hseg ⊢
  omega

theorem take_fillTo (hi : i ≤ es.length) (seg : Segment) :
    (seg.fillTo i es).objects.take i = (es.take i).reverse := by
  have hlen : (es.take i).reverse.length = i := by simpa using hi
  rw [Segment.fillTo, List.take_left' hlen]

/-- Writing the highest of the elements first and then the others is writing them
all. -/
theorem fillTo_put {e : Entry} (hi : i < seg.allocated) :
    (seg.put i e).fillTo i es = seg.fillTo (i + 1) (e :: es) := by
  have hlt : i < seg.objects.length := hi
  have hdrop : (seg.objects.set i e).drop i = e :: seg.objects.drop (i + 1) := by
    rw [List.drop_eq_getElem_cons (by simpa using hlt), List.drop_set_of_lt (by omega)]
    simp
  simp only [Segment.fillTo, Segment.put, hdrop, Segment.mk.injEq, true_and]
  simp

theorem dlfoUpdateInitSeg_eq (seg : Segment) (n : ℕ) :
    dlfoUpdateInitSeg seg n = min n seg.allocated := by
  unfold dlfoUpdateInitSeg
  split_ifs <;> omega

theorem Fill.cons {previous used rest : List Segment} {n : ℕ} (hn : n = min es.length seg.allocated)
    (hpos : n ≠ 0) (h : Fill previous used rest (es.drop n)) :
    Fill (seg :: previous) ((seg.setSize n).fillTo n es :: used) rest es := by
  have hsize : ((seg.setSize n).fillTo n es).size = n := rfl
  have halloc : ((seg.setSize n).fillTo n es).allocated = seg.allocated :=
    allocated_fillTo (by omega) (show n ≤ seg.allocated by omega)
  refine ⟨h.suffix.trans (List.suffix_cons ..), fun rest' hrest => ?_,
    List.forall_mem_cons.mpr ⟨?_, h.sized⟩, fun stop hstop => ?_⟩
  · have hshape := h.shape rest' hrest
    rw [List.length_drop] at hshape
    simp only [shapeOf, List.cons_append, List.map_cons, halloc, hsize, fillShape] at hshape ⊢
    rw [if_neg (by omega), hshape, ← hn]
  · omega
  · rw [List.cons_append, entries_cons_of_ne hpos, h.entries stop hstop, hsize,
      take_fillTo (by omega), ← List.reverse_append, List.take_append_drop]

theorem placeAll_next {next : Segment} {n : ℕ} {e : Entry} (a : Segment) (older : List Segment)
    (hn : dlfoUpdateInitSeg next (es.length + 1) = n + 1) :
    placeAll copy (e :: es) ⟨a :: next :: older, 0, es.length + 1⟩ =
      placeAll copy (e :: es) ⟨next :: older, n + 1, es.length + 1⟩ >>= fun q =>
        .ok (.size copy (older.length + 1) (n + 1) :: q.1, q.2) := by
  simp only [placeAll, Target.place, Target.makeRoom, hn, bind_assoc]
  rfl

/-- The chain is filled from its newest segment on. `seg` is the segment being
written as the memory holds it, while the target chain keeps the segments as they
were at the start. -/
theorem placeAll_spec (es : List Entry) (a : Segment) (previous : List Segment) (i : ℕ)
    (hi : i ≤ es.length) (hcap : es.length ≤ i + dlfoMappingsSegmentCountAllocated previous)
    (hpos : ∀ s ∈ previous, 0 < s.allocated) :
    ∃ ws last used rest, placeAll copy es ⟨a :: previous, i, es.length⟩ =
        .ok (ws, ⟨last :: rest, 0, 0⟩) ∧ Fill previous used rest (es.drop i) ∧
      ∀ (m : Mappings) (newer : List Segment) (seg : Segment), i ≤ seg.allocated →
        m.chain copy = newer ++ seg :: previous →
        m.applyAll ws = .ok (m.setChain (newer ++ seg.fillTo i es :: (used ++ rest)) copy) := by
  have hsame (es : List Entry) (seg : Segment) : seg.fillTo 0 es = seg := by
    simp [Segment.fillTo]
  match es, i, previous with
  | [], i, previous =>
    obtain rfl : i = 0 := by simpa using hi
    refine ⟨[], a, [], previous, rfl,
      ⟨List.suffix_refl _, fun _ h => h, nofun, fun _ h => by simpa using h⟩, ?_⟩
    intro m newer seg _ hm
    rw [hsame, List.nil_append, ← hm, setChain_chain]
    rfl
  | e :: es, i + 1, previous =>
    simp only [List.length_cons] at hi hcap
    obtain ⟨ws, last, used, rest, hplace, hfill, happly⟩ :=
      placeAll_spec es a previous i (by omega) (by omega) hpos
    refine ⟨entryStores copy (previous.length + 1) i e ++ ws, last, used, rest, ?_, hfill, ?_⟩
    · simp only [placeAll, Target.place, Target.makeRoom, List.length_cons]
      exact congrArg (· >>= fun q => .ok (entryStores copy (previous.length + 1) i e ++ q.1,
        q.2)) hplace
    · intro m newer seg hseg hm
      rw [applyAll_append, applyAll_entryStores hm (by omega)]
      change (m.setChain _ copy).applyAll ws = _
      rw [happly _ newer (seg.put i e) (by rw [allocated_put]; omega)
        (setChain_chain_self ..), setChain_setChain, fillTo_put (by omega)]
  | e :: es, 0, [] => simp [dlfoMappingsSegmentCountAllocated] at hcap
  | e :: es, 0, next :: older =>
    -- the segment is full: on to the next older one
    have hnext := hpos next List.mem_cons_self
    have hmin := dlfoUpdateInitSeg_eq next (es.length + 1)
    obtain ⟨n, hn⟩ := Nat.exists_eq_succ_of_ne_zero
      (show dlfoUpdateInitSeg next (es.length + 1) ≠ 0 by omega)
    rw [hn] at hmin
    simp only [dlfoMappingsSegmentCountAllocated, List.map_cons, List.sum_cons,
      List.length_cons] at hcap
    obtain ⟨ws, last, used, rest, hplace, hfill, happly⟩ := placeAll_spec (e :: es) next older
      (n + 1) (by simp only [List.length_cons]; omega)
      (by simp only [dlfoMappingsSegmentCountAllocated, List.length_cons]; omega)
      fun s hs => hpos s (List.mem_cons_of_mem _ hs)
    refine ⟨.size copy (older.length + 1) (n + 1) :: ws, last, _, rest, ?_,
      hfill.cons hmin n.succ_ne_zero, ?_⟩
    · rw [List.length_cons, placeAll_next copy a older hn]
      exact congrArg (· >>= fun q => .ok (.size copy (older.length + 1) (n + 1) :: q.1, q.2)) hplace
    · intro m newer seg _ hm
      have hm' : m.chain copy = (newer ++ [seg]) ++ next :: older := by simpa using hm
      rw [applyAll_cons_ok (apply_size hm' (n + 1)), happly _ (newer ++ [seg]) _
        (by rw [allocated_setSize]; omega) (setChain_chain_self ..), hsame, setChain_setChain,
        List.append_assoc]
      rfl
termination_by 2 * es.length + (1 - i)

end AwaitGlibc.FindObject
