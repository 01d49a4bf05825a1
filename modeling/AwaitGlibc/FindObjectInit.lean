import AwaitGlibc.FindObjectTable

/-!
# The initially loaded objects

`_dl_find_object_init` spreads the objects loaded before the start over three
places: the record of a contiguous main program, a sorted array of objects that
are never unloaded, and the first segment of the table for those that may be.
The fast lookup tries them in turn. The lookup used before the initialization,
which its authors call the reference implementation, walks all link maps instead.

The two give one answer only for addresses that neither finds. The reference
returns 1 when it finds an object, where the fast lookup returns 0 as documented;
and the segment that is filled with the objects of audit namespaces keeps the size
0 it was allocated with.
-/
namespace AwaitGlibc.FindObject
open CheckedArray VersionedRead

/-- The link maps present at the start: those of the base namespace, the main
program first, and those of the other namespaces. -/
structure Process where
  main : LinkMap
  base : List LinkMap
  others : List (List LinkMap)
deriving DecidableEq, Repr

def Process.namespaces (p : Process) : List (List LinkMap) := (p.main :: p.base) :: p.others

/-- A return code and the data written to the result, if any was. -/
structure Answer where
  code : ℤ
  result : Option Entry
deriving DecidableEq, Repr

/-- `_dl_find_object_to_external`, whose flags are always zero, before a return. -/
def Answer.found (code : ℤ) (e : Entry) : Answer := ⟨code, some e⟩

def Answer.notFound : Answer := ⟨-1, none⟩

/-! ## The reference -/

def subWrap (a b : ℕ) : ℕ := wrap (a + 2 ^ 64 - b % 2 ^ 64)

def dlAddrInsideObject (l : LinkMap) (addr : ℕ) : Bool :=
  l.lPhdr.any fun ph => ph.pType == .load &&
    decide (subWrap (subWrap addr l.lAddr) ph.pVaddr < ph.pMemsz)

def LinkMap.surrounds (l : LinkMap) (addr : ℕ) : Bool :=
  decide (l.lMapStart ≤ addr ∧ addr < l.lMapEnd) && (l.lContiguous || dlAddrInsideObject l addr)

/-- The search of one namespace; `none` when the loop goes on to the next. -/
def slowNamespace (addr ns : ℕ) : List LinkMap → Except Stop (Option Answer)
  | [] => .ok none
  | l :: maps =>
    if l.surrounds addr then
      if ns = l.lNs then .ok (some (.found 1 (dlFindObjectFromMap l)))
      else .error .assertion
    else slowNamespace addr ns maps

def slowNamespaces (addr : ℕ) : ℕ → List (List LinkMap) → Except Stop Answer
  | _, [] => .ok .notFound
  | ns, maps :: rest => do
      match ← slowNamespace addr ns maps with
      | some a => return a
      | none => slowNamespaces addr (ns + 1) rest

def dlFindObjectSlow (p : Process) (addr : ℕ) : Except Stop Answer :=
  slowNamespaces addr 0 p.namespaces

/-! ## Initialization -/

/-- The state of `_dlfo_process_initial`: the two counters, and in the second pass
the array and the segment that are filled in. -/
structure Pass where
  nodelete : ℕ
  loaded : ℕ
  nodeleteMappings : Option (Block Entry)
  loadedMappings : Option Segment
deriving DecidableEq, Repr

def Pass.addNodelete (e : Entry) (s : Pass) : Except Stop Pass :=
  match s.nodeleteMappings with
  | none => .ok { s with nodelete := s.nodelete + 1 }
  | some b =>
    match b.store s.nodelete e with
    | .ok b => .ok { s with nodelete := s.nodelete + 1, nodeleteMappings := some b }
    | .error f => .error (.fault f)

def Pass.addLoaded (e : Entry) (s : Pass) : Except Stop Pass :=
  match s.loadedMappings with
  | none => .ok { s with loaded := s.loaded + 1 }
  | some seg =>
    if s.loaded < seg.allocated then
      .ok { s with
        loaded := s.loaded + 1
        loadedMappings := some { seg with objects := seg.objects.set s.loaded e } }
    else .error (.fault (.storeOutside seg.allocated s.loaded))

/-- The mapping of one `PT_LOAD` segment of a main program with gaps. -/
def segmentEntry (main : LinkMap) (ph : Phdr) : Entry :=
  { dlFindObjectFromMap main with
    mapStart := wrap (ph.pVaddr + main.lAddr)
    mapEnd := wrap (wrap (ph.pVaddr + main.lAddr) + ph.pMemsz) }

/-- What the initialization records of a link map other than the main one. -/
inductive Kind where
  | nodelete
  | loaded
  | skipped
deriving DecidableEq, Repr

/-- `lt_library` link maps are implicitly not deletable; the main map and proxies
are skipped. -/
def kindOf (main l : LinkMap) : Kind :=
  if l.address = main.address || !l.isReal then .skipped
  else if l.lType = .library || l.lNodeleteActive then .nodelete
  else if l.lType = .loaded then .loaded
  else .skipped

def Pass.visit (main l : LinkMap) (s : Pass) : Except Stop Pass :=
  match kindOf main l with
  | .nodelete => s.addNodelete (dlFindObjectFromMap l)
  | .loaded => s.addLoaded (dlFindObjectFromMap l)
  | .skipped => .ok s

def mainSegments (main : LinkMap) : List Phdr :=
  if main.lContiguous then [] else main.lPhdr.filter (·.pType == .load)

def dlfoProcessInitial (p : Process) (s : Pass) : Except Stop Pass := do
  let s ← (mainSegments p.main).foldlM (fun s ph => s.addNodelete (segmentEntry p.main ph)) s
  p.namespaces.flatten.foldlM (fun s l => s.visit p.main l) s

/-- The data of the fast lookup after the initialization. -/
structure FindData where
  main : Entry
  nodeleteMappings : Block Entry
  nodeleteMappingsSize : ℕ
  nodeleteMappingsEnd : ℕ
  loaded : Mappings
deriving DecidableEq, Repr

/-- `_dlfo_mappings_segment_allocate_unpadded`, on memory with arbitrary contents. -/
def dlfoMappingsSegmentAllocateUnpadded (size : ℕ) (garbage : ℕ → Entry) : Segment :=
  let size := if size < dlfoMappingsInitialSegmentSize then dlfoMappingsInitialSegmentSize else size
  ⟨0, (List.range size).map garbage⟩

/-- `_dlfo_sort_mappings` on the first `size` elements. -/
def dlfoSortMappings (objects : List Entry) (size : ℕ) : List Entry :=
  SelectionSort.sort Entry.mapStart (objects.take size) ++ objects.drop size

/-- The record of the main program. One with gaps is marked as initialized but
covers no address. -/
def mainEntry (main : LinkMap) : Entry :=
  if main.lContiguous then dlFindObjectFromMap main
  else ⟨2 ^ 64 - 1, 2 ^ 64 - 1, 0, 0⟩

/-- The array of objects that are not unloaded, sorted, and its end. -/
def finishNodelete (b : Block Entry) (size : ℕ) : Except Stop (Block Entry × ℕ) :=
  if 0 < size then
    match b.loadAll 0 size with
    | .error f => .error (.fault f)
    | .ok es =>
      let es := dlfoSortMappings es size
      match es[size - 1]? with
      | some e => .ok (⟨es.map some⟩, e.mapEnd)
      | none => .error (.fault (.loadOutside es.length (size - 1)))
  else .ok (b, 0)

def dlFindObjectInit (p : Process) (enoughMemory : Bool) (garbage : ℕ → Entry) :
    Except Stop FindData := do
  let counted ← dlfoProcessInitial p ⟨0, 0, none, none⟩
  if enoughMemory then
    let segment := if 0 < counted.loaded then
        some (dlfoMappingsSegmentAllocateUnpadded counted.loaded garbage) else none
    let filled ← dlfoProcessInitial p ⟨0, 0, some (Block.alloc counted.nodelete), segment⟩
    match filled.nodeleteMappings with
    | none => .error (.fault .nullPointer)
    | some b =>
      let (b, mapEnd) ← finishNodelete b filled.nodelete
      let chain := match filled.loadedMappings with
        | none => []
        | some seg => [{ seg with objects := dlfoSortMappings seg.objects seg.size }]
      return ⟨mainEntry p.main, b, filled.nodelete, mapEnd, ⟨chain, [], 0⟩⟩
  else .error .fatal

/-! ## The fast lookup -/

def findNodelete (d : FindData) (pc : ℕ) : Except Stop (Option Entry) := do
  let first ← match d.nodeleteMappings.load 0 with
    | .ok e => .ok e.mapStart
    | .error f => .error (.fault f)
  if first ≤ pc ∧ pc < d.nodeleteMappingsEnd then
    let object (i : ℤ) (f : Field) : ℤ × Field := (i, f)
    let read (x : ℤ × Field) : Option ℕ :=
      if x.1 < 0 then none
      else match d.nodeleteMappings.load x.1.toNat with
        | .ok e => some (e.get x.2)
        | .error _ => none
    match (dlfoLookup object pc d.nodeleteMappingsSize).run read with
    | none => .error (.fault (.loadOutside d.nodeleteMappings.size 0))
    | some none => .ok none
    | some (some i) =>
      match d.nodeleteMappings.load i.toNat with
      | .ok e => .ok (some e)
      | .error f => .error (.fault f)
  else return none

def dlFindObject (p : Process) (d : FindData) (pc : ℕ) : Except Stop Answer := do
  if d.main.mapEnd = 0 then dlFindObjectSlow p pc
  else if d.main.mapStart ≤ pc ∧ pc < d.main.mapEnd then return .found 0 d.main
  else
    match ← findNodelete d pc with
    | some e => return .found 0 e
    | none =>
      match d.loaded.find pc with
      | none => .error (.fault (.loadOutside 0 0))
      | some (some e) => return .found 0 e
      | some none => return .notFound

/-! ## What the initialization leaves -/

def Pass.act (s : Pass) (a : Kind × Entry) : Except Stop Pass :=
  match a.1 with
  | .nodelete => s.addNodelete a.2
  | .loaded => s.addLoaded a.2
  | .skipped => .ok s

def Process.actions (p : Process) : List (Kind × Entry) :=
  (mainSegments p.main).map (fun ph => (.nodelete, segmentEntry p.main ph)) ++
    p.namespaces.flatten.map fun l => (kindOf p.main l, dlFindObjectFromMap l)

def ofKind (k : Kind) (as : List (Kind × Entry)) : List Entry :=
  (as.filter (·.1 = k)).map Prod.snd

/-- The mappings recorded as not to be unloaded: the segments of a main program
with gaps, libraries and other objects marked so. -/
def Process.recorded (p : Process) : List Entry := ofKind .nodelete p.actions

theorem dlfoProcessInitial_eq (p : Process) (s : Pass) :
    dlfoProcessInitial p s = p.actions.foldlM Pass.act s := by
  simp only [Process.actions, List.foldlM_append, List.foldlM_map]
  rfl

theorem ofKind_cons (k : Kind) (a : Kind × Entry) (as : List (Kind × Entry)) :
    ofKind k (a :: as) = if a.1 = k then a.2 :: ofKind k as else ofKind k as := by
  simp only [ofKind, List.filter_cons, decide_eq_true_eq]
  split_ifs <;> rfl

theorem foldlM_act_count (as : List (Kind × Entry)) (n l : ℕ) :
    as.foldlM Pass.act ⟨n, l, none, none⟩ =
      .ok ⟨n + (ofKind .nodelete as).length, l + (ofKind .loaded as).length, none, none⟩ := by
  induction as generalizing n l with
  | nil => rfl
  | cons a as ih =>
    obtain ⟨k, e⟩ := a
    simp only [ofKind_cons]
    cases k with
    | nodelete =>
      refine (ih (n + 1) l).trans ?_
      simp only [if_true, reduceCtorEq, if_false, List.length_cons]
      congr 2
      omega
    | loaded =>
      refine (ih n (l + 1)).trans ?_
      simp only [if_true, reduceCtorEq, if_false, List.length_cons]
      congr 2
      omega
    | skipped =>
      refine (ih n l).trans ?_
      simp only [reduceCtorEq, if_false]

/-- The segment of the second pass keeps its size, whatever is put into it. -/
def SameFrame (seg seg' : Option Segment) : Prop :=
  (seg'.map fun s => (s.allocated, s.size)) = seg.map fun s => (s.allocated, s.size)

/-- The second pass fills the array from the front and does not touch the size of
the segment. -/
theorem foldlM_act_fill (as : List (Kind × Entry)) (N : ℕ) (es : List Entry) (l : ℕ)
    (seg : Option Segment) (hn : es.length + (ofKind .nodelete as).length ≤ N)
    (hl : ∀ s, seg = some s → l + (ofKind .loaded as).length ≤ s.allocated) :
    ∃ seg' l', as.foldlM Pass.act ⟨es.length, l, some (Block.ofWritten N es), seg⟩ =
        .ok ⟨(es ++ ofKind .nodelete as).length, l',
          some (Block.ofWritten N (es ++ ofKind .nodelete as)), seg'⟩ ∧ SameFrame seg seg' := by
  induction as generalizing es l seg with
  | nil =>
    refine ⟨seg, l, ?_, rfl⟩
    rw [ofKind, List.filter_nil, List.map_nil, List.append_nil]
    rfl
  | cons a as ih =>
    obtain ⟨k, e⟩ := a
    rw [List.foldlM_cons]
    simp only [ofKind_cons] at hn hl ⊢
    cases k with
    | nodelete =>
      simp only [if_true, reduceCtorEq, if_false, List.length_cons] at hn hl ⊢
      have hact : Pass.act ⟨es.length, l, some (Block.ofWritten N es), seg⟩ (.nodelete, e) =
          .ok ⟨(es ++ [e]).length, l, some (Block.ofWritten N (es ++ [e])), seg⟩ := by
        have hlt : es.length < N := by omega
        simp only [Pass.act, Pass.addNodelete, Block.store_ofWritten es hlt e,
          List.length_append, List.length_singleton]
      obtain ⟨seg', l', hfold, hframe⟩ := ih (es ++ [e]) l seg (by simp; omega) hl
      refine ⟨seg', l', ?_, hframe⟩
      rw [hact]
      refine hfold.trans ?_
      simp
    | loaded =>
      simp only [if_true, reduceCtorEq, if_false, List.length_cons] at hn hl ⊢
      cases seg with
      | none =>
        obtain ⟨seg', l', hfold, hframe⟩ := ih es (l + 1) none hn (by simp)
        exact ⟨seg', l', hfold, hframe⟩
      | some s =>
        have hlt := hl s rfl
        obtain ⟨seg', l', hfold, hframe⟩ := ih es (l + 1)
          (some { s with objects := s.objects.set l e }) hn (by
            intro s' hs'
            cases hs'
            simp only [Segment.allocated, List.length_set] at hlt ⊢
            omega)
        have hact : Pass.act ⟨es.length, l, some (Block.ofWritten N es), some s⟩ (.loaded, e) =
            .ok ⟨es.length, l + 1, some (Block.ofWritten N es),
              some { s with objects := s.objects.set l e }⟩ := by
          simp only [Pass.act, Pass.addLoaded]
          rw [if_pos (by omega)]
        refine ⟨seg', l', ?_, hframe.trans ?_⟩
        · rw [hact]
          exact hfold
        · simp [Segment.allocated]
    | skipped =>
      exact ih es l seg hn hl

def Process.sorted (p : Process) : List Entry := SelectionSort.sort Entry.mapStart p.recorded

theorem length_dlfoSortMappings (objects : List Entry) (size : ℕ) :
    (dlfoSortMappings objects size).length = objects.length := by
  have := (SelectionSort.sort_perm Entry.mapStart (objects.take size)).length_eq
  simp only [dlfoSortMappings, List.length_append, List.length_drop, List.length_take] at this ⊢
  omega

theorem finishNodelete_eq (es : List Entry) :
    finishNodelete (Block.ofWritten es.length es) es.length =
      .ok (Block.ofWritten es.length (SelectionSort.sort Entry.mapStart es),
        ((SelectionSort.sort Entry.mapStart es).getLast?.map Entry.mapEnd).getD 0) := by
  have hlen := (SelectionSort.sort_perm Entry.mapStart es).length_eq
  unfold finishNodelete
  by_cases hpos : 0 < es.length
  · have hload : (Block.ofWritten es.length es).loadAll 0 es.length = .ok es :=
      Block.loadAll_ofWritten (List.append_nil es).symm
    have hsort : dlfoSortMappings es es.length = SelectionSort.sort Entry.mapStart es := by
      simp [dlfoSortMappings]
    rw [if_pos hpos, hload]
    simp only [hsort, List.getLast?_eq_getElem?, hlen]
    have hget := List.getElem?_eq_getElem
      (show es.length - 1 < (SelectionSort.sort Entry.mapStart es).length by omega)
    rw [hget]
    simp [Block.ofWritten, hlen]
  · have hnil : es = [] := List.length_eq_zero_iff.mp (by omega)
    subst hnil
    rfl

/-- The initialization records the mappings sorted, and leaves the table without
elements in use. -/
structure Initialized (p : Process) (d : FindData) : Prop where
  main : d.main = mainEntry p.main
  nodelete : d.nodeleteMappings = Block.ofWritten p.recorded.length p.sorted
  size : d.nodeleteMappingsSize = p.recorded.length
  mapEnd : d.nodeleteMappingsEnd = (p.sorted.getLast?.map Entry.mapEnd).getD 0
  loaded : Initial d.loaded

theorem allocated_unpadded (size : ℕ) (garbage : ℕ → Entry) :
    (dlfoMappingsSegmentAllocateUnpadded size garbage).allocated = max size 63 := by
  have hmin : dlfoMappingsInitialSegmentSize = 63 := rfl
  simp only [dlfoMappingsSegmentAllocateUnpadded, Segment.allocated, List.length_map,
    List.length_range]
  split_ifs <;> omega

theorem dlFindObjectInit_spec (p : Process) (garbage : ℕ → Entry) :
    ∃ d, dlFindObjectInit p true garbage = .ok d ∧ Initialized p d := by
  have hcount := foldlM_act_count p.actions 0 0
  rw [← dlfoProcessInitial_eq, Nat.zero_add, Nat.zero_add] at hcount
  obtain ⟨seg', l', hfill, hframe⟩ := foldlM_act_fill p.actions p.recorded.length [] 0
    (if 0 < (ofKind .loaded p.actions).length then
      some (dlfoMappingsSegmentAllocateUnpadded (ofKind .loaded p.actions).length garbage) else none)
    (by simp [Process.recorded]) (by
      intro s hs
      split_ifs at hs
      cases hs
      rw [allocated_unpadded]
      omega)
  rw [← dlfoProcessInitial_eq, List.nil_append, List.length_nil, ← Block.alloc_eq_ofWritten] at hfill
  refine ⟨⟨mainEntry p.main, Block.ofWritten p.recorded.length p.sorted, p.recorded.length,
    (p.sorted.getLast?.map Entry.mapEnd).getD 0,
    ⟨(seg'.map fun seg => { seg with objects := dlfoSortMappings seg.objects seg.size }).toList,
      [], 0⟩⟩, ?_, rfl, rfl, rfl, rfl, rfl, ?_, ?_, rfl⟩
  · simp only [dlFindObjectInit, hcount]
    change (dlfoProcessInitial p ⟨0, 0, some (Block.alloc p.recorded.length), _⟩ >>= _) = _
    rw [hfill]
    change (finishNodelete (Block.ofWritten p.recorded.length p.recorded) p.recorded.length >>=
      _) = _
    rw [finishNodelete_eq]
    cases seg' <;> rfl
  · intro seg hseg
    cases seg' with
    | none => simp at hseg
    | some s =>
      have hs : seg = { s with objects := dlfoSortMappings s.objects s.size } := by simpa using hseg
      have hlen := length_dlfoSortMappings s.objects s.size
      unfold SameFrame at hframe
      split_ifs at hframe
      · simp only [Option.map_some, Option.some.injEq, Prod.mk.injEq, allocated_unpadded] at hframe
        rw [hs, Segment.allocated, hlen, hframe.2]
        exact ⟨rfl, by rw [← Segment.allocated]; omega⟩
      · cases hframe
  · cases seg' <;> simp

/-! ## Both lookups -/

/-- The objects present at the start overlap nowhere: the mappings that are
recorded, segment by segment for a main program with gaps, are not empty and have
no address in common, and a contiguous main program is not empty. -/
structure WellPlaced (p : Process) : Prop where
  main : p.main.lContiguous = true → p.main.lMapStart < p.main.lMapEnd
  mapped : ∀ e ∈ p.recorded, e.mapStart < e.mapEnd
  apart : p.recorded.Pairwise fun a b => a.mapEnd ≤ b.mapStart ∨ b.mapEnd ≤ a.mapStart

theorem ordered_sorted {p : Process} (h : WellPlaced p) : Ordered p.sorted := by
  have hperm := SelectionSort.sort_perm Entry.mapStart p.recorded
  have hapart := hperm.symm.pairwise h.apart Or.symm
  have hsorted := SelectionSort.sort_sorted Entry.mapStart p.recorded
  refine (hapart.and hsorted).imp_of_mem ?_
  intro a b ha hb hab
  have hma := h.mapped a (hperm.mem_iff.mp ha)
  have hmb := h.mapped b (hperm.mem_iff.mp hb)
  omega

theorem mem_sorted {p : Process} {e : Entry} : e ∈ p.sorted ↔ e ∈ p.recorded :=
  (SelectionSort.sort_perm Entry.mapStart p.recorded).mem_iff

section Nodelete
variable {p : Process} {d : FindData} {pc : ℕ}

theorem not_contains_of_outside {es : List Entry} (ho : Ordered es) {first last : Entry}
    (hfirst : es[0]? = some first) (hlast : es.getLast? = some last)
    (hmapped : last.mapStart < last.mapEnd)
    (hpc : ¬(first.mapStart ≤ pc ∧ pc < last.mapEnd)) : ∀ e ∈ es, ¬e.Contains pc := by
  intro e he hcon
  by_cases hlow : pc < first.mapStart
  · exact not_contains_of_lt_first ho hfirst hlow he hcon
  · obtain ⟨i, hi⟩ := List.mem_iff_getElem?.mp he
    rw [List.getLast?_eq_getElem?] at hlast
    have hlt := (List.getElem?_eq_some_iff.mp hi).1
    unfold Entry.Contains at hcon
    by_cases heq : i = es.length - 1
    · rw [heq, hlast, Option.some.injEq] at hi
      subst hi
      omega
    · have := ho.getElem?_lt hi hlast (by omega)
      omega

/-- The search among the objects that are not unloaded finds the mapping that
contains the address. With no such object it reads outside its array. -/
theorem findNodelete_spec (pc : ℕ) (hd : Initialized p d) (hp : WellPlaced p) :
    (p.recorded = [] ∧ ∃ f, findNodelete d pc = .error f) ∨
      (p.recorded ≠ [] ∧ findNodelete d pc = .ok (p.sorted.find? (·.Contains pc))) := by
  have hlen : p.sorted.length = p.recorded.length :=
    (SelectionSort.sort_perm Entry.mapStart p.recorded).length_eq
  have ho := ordered_sorted hp
  by_cases hnil : p.recorded = []
  · left
    refine ⟨hnil, ?_⟩
    have hsorted : p.sorted = [] := by rw [← List.length_eq_zero_iff, hlen, hnil]; rfl
    have hpast : p.sorted.length ≤ 0 := by simp [hsorted]
    obtain ⟨f, hf⟩ := Block.load_ofWritten_past (n := p.recorded.length) hpast
    refine ⟨.fault f, ?_⟩
    simp only [findNodelete, hd.nodelete, hf]
    rfl
  · right
    have hpos := List.length_pos_iff.mpr hnil
    obtain ⟨first, hfirst⟩ : ∃ e, p.sorted[0]? = some e := ⟨_, List.getElem?_eq_getElem (by omega)⟩
    obtain ⟨last, hlast⟩ : ∃ e, p.sorted.getLast? = some e :=
      ⟨_, List.getLast?_eq_some_getLast (List.length_pos_iff.mp (by omega))⟩
    have hmapped := hp.mapped last (mem_sorted.mp (List.mem_of_getLast? hlast))
    have hend : d.nodeleteMappingsEnd = last.mapEnd := by rw [hd.mapEnd, hlast]; rfl
    have hload (k : ℕ) (e : Entry) (hk : p.sorted[k]? = some e) :
        d.nodeleteMappings.load k = .ok e := by
      rw [hd.nodelete]
      exact Block.load_ofWritten hk
    refine ⟨hnil, ?_⟩
    simp only [findNodelete, hload 0 first hfirst, hend]
    change (if first.mapStart ≤ pc ∧ pc < last.mapEnd then _ else _) = _
    by_cases hin : first.mapStart ≤ pc ∧ pc < last.mapEnd
    · rw [if_pos hin, hd.size, ← hlen]
      have hreads : Reads (fun x : ℤ × Field => if x.1 < 0 then none
          else match d.nodeleteMappings.load x.1.toNat with
            | .ok e => some (e.get x.2)
            | .error _ => none) (fun i f => (i, f)) p.sorted := by
        intro k e hk f
        have hneg : ¬((k : ℤ) < 0) := by omega
        simp only [if_neg hneg, Int.toNat_natCast, hload k e hk]
      obtain ⟨i, hrun, hloc⟩ := dlfoLookup_run hreads ho hfirst hin.1
      rw [hrun]
      cases i with
      | none => rw [find?_contains_eq_none hloc]
      | some i =>
        obtain ⟨k, e, rfl, hk, hcon⟩ := hloc
        rw [ho.find?_eq_some (List.mem_of_getElem? hk) hcon]
        simp only [Int.toNat_natCast, hload k e hk]
    · rw [if_neg hin, find?_contains_eq_none
        (not_contains_of_outside ho hfirst hlast hmapped hin)]
      rfl

end Nodelete

/-! ## When they agree -/

theorem slowNamespace_cases (addr ns : ℕ) (maps : List LinkMap) :
    ((∀ l ∈ maps, l.surrounds addr = false) ∧ slowNamespace addr ns maps = .ok none) ∨
      ((∃ l ∈ maps, l.surrounds addr = true) ∧
        ∀ a, slowNamespace addr ns maps = .ok a → ∃ e, a = some (.found 1 e)) := by
  induction maps with
  | nil => exact .inl ⟨by simp, rfl⟩
  | cons l maps ih =>
    simp only [slowNamespace]
    by_cases hl : l.surrounds addr = true
    · right
      refine ⟨⟨l, List.mem_cons_self, hl⟩, fun a ha => ?_⟩
      split_ifs at ha
      cases ha
      exact ⟨_, rfl⟩
    · rw [if_neg hl]
      obtain ⟨hall, hnone⟩ | ⟨⟨l', hl', hsur⟩, hfound⟩ := ih
      · exact .inl ⟨List.forall_mem_cons.mpr ⟨by simpa using hl, hall⟩, hnone⟩
      · exact .inr ⟨⟨l', List.mem_cons_of_mem _ hl', hsur⟩, hfound⟩

/-- The reference answers 1 or -1, the latter when no link map surrounds the
address. -/
theorem dlFindObjectSlow_cases (p : Process) (addr : ℕ) :
    ((∀ l ∈ p.namespaces.flatten, l.surrounds addr = false) ∧
        dlFindObjectSlow p addr = .ok .notFound) ∨
      ((∃ l ∈ p.namespaces.flatten, l.surrounds addr = true) ∧
        ∀ a, dlFindObjectSlow p addr = .ok a → a.code = 1) := by
  have hall (nss : List (List LinkMap)) (ns : ℕ) :
      ((∀ l ∈ nss.flatten, l.surrounds addr = false) ∧
          slowNamespaces addr ns nss = .ok .notFound) ∨
        ((∃ l ∈ nss.flatten, l.surrounds addr = true) ∧
          ∀ a, slowNamespaces addr ns nss = .ok a → a.code = 1) := by
    induction nss generalizing ns with
    | nil => exact .inl ⟨by simp, rfl⟩
    | cons maps rest ih =>
      obtain ⟨hnone, hrun⟩ | ⟨⟨l, hl, hsur⟩, hrun⟩ := slowNamespace_cases addr ns maps
      · have hstep : slowNamespaces addr ns (maps :: rest) =
            slowNamespaces addr (ns + 1) rest := by
          rw [slowNamespaces, hrun]
          rfl
        rw [hstep]
        obtain ⟨hrest, hres⟩ | ⟨⟨l, hl, hsur⟩, hres⟩ := ih (ns + 1)
        · exact .inl ⟨List.forall_mem_append.mpr ⟨hnone, hrest⟩, hres⟩
        · exact .inr ⟨⟨l, List.mem_append_right _ hl, hsur⟩, hres⟩
      · refine .inr ⟨⟨l, List.mem_append_left _ hl, hsur⟩, fun a ha => ?_⟩
        obtain ⟨b, hb, hrest⟩ := ok_of_bind ha
        obtain ⟨e, rfl⟩ := hrun b hb
        cases hrest
        rfl
  exact hall p.namespaces 0

/-- The address belongs to nothing that was loaded at the start: no link map
surrounds it and no recorded mapping contains it. -/
structure Nowhere (p : Process) (pc : ℕ) : Prop where
  maps : ∀ l ∈ p.namespaces.flatten, l.surrounds pc = false
  recorded : ∀ e ∈ p.recorded, ¬e.Contains pc

theorem mainEntry_cases {p : Process} (hp : WellPlaced p) (pc : ℕ) :
    (mainEntry p.main).mapEnd ≠ 0 ∧
      (((mainEntry p.main).mapStart ≤ pc ∧ pc < (mainEntry p.main).mapEnd) →
        p.main.surrounds pc = true) := by
  unfold mainEntry
  by_cases hc : p.main.lContiguous = true
  · have := hp.main hc
    rw [if_pos hc]
    refine ⟨by simp only [dlFindObjectFromMap]; omega, fun h => ?_⟩
    simp only [dlFindObjectFromMap] at h
    simp [LinkMap.surrounds, hc, h]
  · rw [if_neg hc]
    refine ⟨by decide, fun h => ?_⟩
    simp only at h
    omega

/-- After the initialization the fast lookup gives the reference's answer exactly
for the addresses that belong to nothing, provided something is recorded at all. -/
theorem find_agrees_iff {p : Process} {garbage : ℕ → Entry} {d : FindData} (hp : WellPlaced p)
    (hd : dlFindObjectInit p true garbage = .ok d) (pc : ℕ) :
    (∃ a, dlFindObject p d pc = .ok a ∧ dlFindObjectSlow p pc = .ok a) ↔
      Nowhere p pc ∧ p.recorded ≠ [] := by
  obtain ⟨d', hd', hinit⟩ := dlFindObjectInit_spec p garbage
  rw [hd, Except.ok.injEq] at hd'
  subst hd'
  obtain ⟨hzero, hmain⟩ := mainEntry_cases hp pc
  have hloaded : d.loaded.find pc = some none := hinit.loaded.represents.find pc
  unfold dlFindObject
  rw [hinit.main, if_neg hzero]
  constructor
  · rintro ⟨a, hfast, hslow⟩
    obtain ⟨hmaps, hnot⟩ | ⟨-, hcode⟩ := dlFindObjectSlow_cases p pc
    · rw [hslow, Except.ok.injEq] at hnot
      subst hnot
      split_ifs at hfast with hin
      · cases hfast
      · obtain ⟨-, f, hf⟩ | ⟨hne, hf⟩ := findNodelete_spec pc hinit hp
        · rw [hf] at hfast
          cases hfast
        · refine ⟨⟨hmaps, fun e he hcon => ?_⟩, hne⟩
          rw [hf, (ordered_sorted hp).find?_eq_some (mem_sorted.mpr he) hcon] at hfast
          cases hfast
    · -- the fast lookup never answers 1
      have hone := hcode a hslow
      exfalso
      split_ifs at hfast with hin
      · cases hfast
        cases hone
      · obtain ⟨-, f, hf⟩ | ⟨-, hf⟩ := findNodelete_spec pc hinit hp
        · rw [hf] at hfast
          cases hfast
        · rw [hf] at hfast
          cases hfind : p.sorted.find? (·.Contains pc) with
          | none =>
            simp only [hfind, hloaded] at hfast
            cases hfast
            cases hone
          | some e =>
            simp only [hfind] at hfast
            cases hfast
            cases hone
  · rintro ⟨hno, hne⟩
    have hin : ¬((mainEntry p.main).mapStart ≤ pc ∧ pc < (mainEntry p.main).mapEnd) := by
      intro h
      have hsur := hmain h
      rw [hno.maps p.main (by simp [Process.namespaces])] at hsur
      cases hsur
    obtain ⟨hnil, -⟩ | ⟨-, hf⟩ := findNodelete_spec pc hinit hp
    · exact absurd hnil hne
    · obtain ⟨-, hslow⟩ | ⟨⟨l, hl, hsur⟩, -⟩ := dlFindObjectSlow_cases p pc
      · refine ⟨.notFound, ?_, hslow⟩
        rw [if_neg hin, hf, find?_contains_eq_none fun e he => hno.recorded e (mem_sorted.mp he)]
        simp only [hloaded]
        rfl
      · rw [hno.maps l hl] at hsur
        cases hsur

section Example

def plainMap (address start : ℕ) (h : 0 < address) (type : LinkType) (ns : ℕ) : LinkMap :=
  ⟨address, h, 0, start, start + 4096, [], true, type, false, ns, address, false⟩

/-- A program, the dynamic linker and an audit module in a namespace of its own. -/
def auditedProcess : Process where
  main := plainMap 1 4096 (by decide) .executable 0
  base := [plainMap 2 16384 (by decide) .library 0]
  others := [[plainMap 3 32768 (by decide) .loaded 1]]

def blank (_ : ℕ) : Entry := ⟨0, 0, 0, 0⟩

theorem wellPlaced_audited : WellPlaced auditedProcess := by
  have hrec : auditedProcess.recorded = [⟨16384, 20480, 2, 0⟩] := by decide
  refine ⟨fun _ => by decide, ?_, ?_⟩
  · rw [hrec]
    simp
  · exact List.pairwise_singleton _ _

theorem find_agrees_audited : ∃ d, dlFindObjectInit auditedProcess true blank = .ok d ∧
    ∃ a, dlFindObject auditedProcess d 8192 = .ok a ∧
      dlFindObjectSlow auditedProcess 8192 = .ok a := by
  obtain ⟨d, hd, -⟩ := dlFindObjectInit_spec auditedProcess blank
  refine ⟨d, hd, (find_agrees_iff wellPlaced_audited hd 8192).mpr ⟨⟨?_, ?_⟩, ?_⟩⟩ <;> decide

/-- In the program the codes differ; in the audit module only the reference finds
the object. -/
theorem lookups_disagree :
    WellPlaced auditedProcess ∧
    (dlFindObjectInit auditedProcess true blank >>= fun d => dlFindObject auditedProcess d 4096) =
      .ok ⟨0, some ⟨4096, 8192, 1, 0⟩⟩ ∧
    dlFindObjectSlow auditedProcess 4096 = .ok ⟨1, some ⟨4096, 8192, 1, 0⟩⟩ ∧
    (dlFindObjectInit auditedProcess true blank >>= fun d => dlFindObject auditedProcess d 32768) =
      .ok ⟨-1, none⟩ ∧
    dlFindObjectSlow auditedProcess 32768 = .ok ⟨1, some ⟨32768, 36864, 3, 0⟩⟩ := by
  refine ⟨wellPlaced_audited, ?_, ?_, ?_, ?_⟩ <;> decide +kernel

end Example

end AwaitGlibc.FindObject
