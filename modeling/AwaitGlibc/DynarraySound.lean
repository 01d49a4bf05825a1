import AwaitGlibc.Dynarray

/-!
# Dynamic arrays as lists

An array that has not failed represents the list of its first `used` elements;
`allocated` is at most what the storage has room for. A failed array has the
error marker in `allocated` and no elements. Each operation is one step of the
list it represents. The exception is `resize` on a failed array, which compares
the size asked for with the error marker, finds room for any number of elements
and reports success.
-/
namespace AwaitGlibc.Dynarray
open CheckedArray (Block)

variable {α : Type} {c : Config α} {s t : State α} {l : List (Option α)} {g : Bool}

/-! ### Storage -/

def State.cellsAt (s : State α) : Pointer → List (Option α)
  | .null => []
  | .scratch => s.scratch.cells
  | .heap id => ((s.heap id).map Block.cells).getD []

def State.storage (s : State α) : List (Option α) := s.cellsAt s.array

structure Tidy (c : Config α) (s : State α) : Prop where
  scratch : s.scratch.size = c.initialSize.toNat
  next : ∀ id, s.next ≤ id → s.heap id = none

/-- The array is the scratch space, if there is any, or a block that is live. -/
def Valid (c : Config α) (s : State α) : Prop :=
  s.array = c.scratch ∨ ∃ id b, s.array = .heap id ∧ s.heap id = some b

/-- An array that has not failed and holds `l`. -/
structure Backed (c : Config α) (s : State α) (l : List (Option α)) : Prop where
  tidy : Tidy c s
  valid : Valid c s
  used : s.used.toNat = l.length
  le : l.length ≤ s.allocated.toNat
  bytes : s.allocated.toNat * c.elementSize.toNat ≤ ptrdiffMax
  room : s.allocated.toNat ≤ s.storage.length
  holds : s.storage.take l.length = l

structure Failed (c : Config α) (s : State α) : Prop where
  tidy : Tidy c s
  array : s.array = c.scratch
  used : s.used = 0
  allocated : s.allocated = errorMarker

variable {p : Pointer}

theorem deref_ok (h : 0 < (s.cellsAt p).length) :
    s.deref p = .ok ⟨s.cellsAt p⟩ := by
  cases p with
  | null => exact absurd h (lt_irrefl 0)
  | scratch => rfl
  | heap id =>
    rw [State.cellsAt] at h ⊢
    rw [State.deref]
    cases hb : s.heap id with
    | none =>
      rw [hb] at h
      exact absurd h (lt_irrefl 0)
    | some b => rfl

variable {n : ℕ}

theorem load_ok {i : ℕ} (h : i + n ≤ (s.cellsAt p).length) :
    s.load p i n = .ok (((s.cellsAt p).drop i).take n) := by
  unfold State.load
  by_cases hn : n = 0
  · simp [hn]
  rw [if_neg hn, deref_ok (by omega)]
  exact if_pos h

/-- `t` is `s` with `cells` where `p` points. -/
structure Rewritten (s t : State α) (p : Pointer) (cells : List (Option α)) : Prop where
  used : t.used = s.used
  allocated : t.allocated = s.allocated
  array : t.array = s.array
  cells : t.cellsAt p = cells
  others : ∀ q, q ≠ p → t.cellsAt q = s.cellsAt q
  size : t.scratch.size = s.scratch.size
  next : t.next = s.next
  live : ∀ id, (t.heap id).isSome = (s.heap id).isSome

variable {cells : List (Option α)}

theorem put_rewritten (hpos : 0 < (s.cellsAt p).length)
    (hlen : cells.length = (s.cellsAt p).length) : Rewritten s (s.put ⟨cells⟩ p) p cells := by
  cases p with
  | null => exact absurd hpos (lt_irrefl 0)
  | scratch =>
    refine ⟨rfl, rfl, rfl, rfl, ?_, hlen, rfl, fun _ => rfl⟩
    intro q hq
    cases q with
    | null => rfl
    | scratch => exact absurd rfl hq
    | heap id => rfl
  | heap id =>
    have hlive : (s.heap id).isSome = true := by
      cases hb : s.heap id with
      | some b => rfl
      | none =>
        rw [State.cellsAt, hb] at hpos
        exact absurd hpos (lt_irrefl 0)
    refine ⟨rfl, rfl, rfl, ?_, ?_, rfl, rfl, ?_⟩
    · simp [State.put, State.cellsAt]
    · intro q hq
      cases q with
      | null => rfl
      | scratch => rfl
      | heap k =>
        have hk : k ≠ id := fun h => hq (h ▸ rfl)
        simp [State.put, State.cellsAt, hk]
    · intro k
      by_cases hk : k = id
      · simp [State.put, hk, hlive]
      · simp [State.put, hk]

theorem store_ok {i : ℕ} (as : List (Option α)) (h : i + as.length ≤ (s.cellsAt p).length) :
    ∃ t, s.store p i as = .ok t ∧
      Rewritten s t p ((s.cellsAt p).take i ++ as ++ (s.cellsAt p).drop (i + as.length)) := by
  unfold State.store
  by_cases has : as = []
  · rw [if_pos has]
    refine ⟨s, rfl, rfl, rfl, rfl, ?_, fun _ _ => rfl, rfl, rfl, fun _ => rfl⟩
    simp [has]
  have hpos : 0 < as.length := List.length_pos_iff.mpr has
  rw [if_neg has, deref_ok (by omega)]
  refine ⟨_, if_pos h, put_rewritten (by omega) ?_⟩
  simp only [List.length_append, List.length_take, List.length_drop]
  omega

theorem memcpy_ok (dst src : Pointer) (bytes : UInt64)
    (hs : c.cellsOf bytes ≤ (s.cellsAt src).length)
    (hd : c.cellsOf bytes ≤ (s.cellsAt dst).length) :
    ∃ t, memcpy c dst src bytes s = .ok t ∧ Rewritten s t dst
      ((s.cellsAt src).take (c.cellsOf bytes) ++ (s.cellsAt dst).drop (c.cellsOf bytes)) := by
  unfold memcpy
  rw [load_ok (by omega)]
  have hlen : (((s.cellsAt src).drop 0).take (c.cellsOf bytes)).length = c.cellsOf bytes := by
    simp only [List.drop_zero, List.length_take]
    omega
  obtain ⟨t, hrun, ht⟩ := store_ok (s := s) (p := dst) (i := 0)
    (((s.cellsAt src).drop 0).take (c.cellsOf bytes)) (by omega)
  rw [hlen] at ht
  refine ⟨t, hrun, ?_⟩
  simpa using ht

theorem Rewritten.tidy (h : Rewritten s t p cells) (ht : Tidy c s) : Tidy c t where
  scratch := h.size.trans ht.scratch
  next := by
    intro id hid
    have hlive := h.live id
    rw [ht.next id (h.next ▸ hid)] at hlive
    simpa using hlive

theorem Valid.of_live (hv : Valid c s) (ha : t.array = s.array)
    (hlive : ∀ id, s.array = .heap id → (t.heap id).isSome = (s.heap id).isSome) : Valid c t := by
  cases hv with
  | inl hs => exact .inl (ha.trans hs)
  | inr hid =>
    obtain ⟨id, b, hid, hb⟩ := hid
    have hsome := hlive id hid
    rw [hb, Option.isSome_some, Option.isSome_iff_exists] at hsome
    obtain ⟨b', hb'⟩ := hsome
    exact .inr ⟨id, b', ha.trans hid, hb'⟩

/-! ### Freeing -/

theorem freeElements_ok {i : ℕ} (h : i + n ≤ s.storage.length) :
    ∃ f, freeElements c i n s = .ok { s with freed := f } := by
  unfold freeElements
  cases c.elementFree with
  | false => exact ⟨s.freed, rfl⟩
  | true =>
    rw [load_ok h]
    exact ⟨_, rfl⟩

theorem Tidy.freed (ht : Tidy c s) (id : ℕ) (p : Pointer) :
    Tidy c { s with array := p, heap := Function.update s.heap id none } where
  scratch := ht.scratch
  next := by
    intro k hk
    by_cases hkid : k = id
    · simp [hkid]
    · simpa [hkid] using ht.next k hk

/-- When the block of the array has been freed, every other block is as it was
and the object can be pointed back at its scratch space. -/
theorem freeArray_ok (ht : Tidy c s) (hv : Valid c s) :
    ∃ t, freeArray c s = .ok t ∧ Tidy c t ∧ ∀ q, q ≠ s.array → t.cellsAt q = s.cellsAt q := by
  unfold freeArray
  by_cases h : s.array = c.scratch
  · exact ⟨s, if_neg (not_not.mpr h), ht, fun _ _ => rfl⟩
  rw [if_pos h]
  obtain ⟨id, b, hid, hb⟩ := hv.resolve_left h
  simp only [hid, State.freeBlock, hb]
  refine ⟨_, rfl, ht.freed id _, ?_⟩
  intro q hq
  cases q with
  | null => rfl
  | scratch => rfl
  | heap k =>
    have hk : k ≠ id := fun h => hq (h ▸ rfl)
    simp [State.cellsAt, hk]

theorem scratch_storage (ht : Tidy c s) (ha : s.array = c.scratch) :
    s.storage.length = c.initialSize.toNat := by
  unfold State.storage
  rw [ha]
  unfold Config.scratch State.cellsAt
  by_cases h : c.initialSize = 0
  · simp [h]
  · rw [if_neg h]
    exact ht.scratch

theorem init_backed (ht : Tidy c s) : Backed c (init c s) [] where
  tidy := ⟨ht.scratch, ht.next⟩
  valid := .inl rfl
  used := rfl
  le := Nat.zero_le _
  bytes := c.scratch_le
  room := (scratch_storage (s := init c s) ⟨ht.scratch, ht.next⟩ rfl).ge
  holds := rfl

theorem start_backed (c : Config α) : Backed c (start c) [] :=
  init_backed ⟨CheckedArray.Block.size_alloc _, fun _ _ => rfl⟩

/-- The common part of `DYNARRAY_FREE` and `mark_failed`. -/
theorem freeAll_ok {β : Type} (k : State α → Except Fault β) (ht : Tidy c s) (hv : Valid c s)
    (hu : s.used.toNat ≤ s.storage.length) :
    ∃ t, (freeElements c 0 s.used.toNat s >>= fun s => freeArray c s >>= k) = k t ∧ Tidy c t := by
  obtain ⟨f, hf⟩ := freeElements_ok (c := c) (i := 0) (n := s.used.toNat) (s := s) (by omega)
  have ht' : Tidy c { s with freed := f } := ⟨ht.scratch, ht.next⟩
  have hv' : Valid c { s with freed := f } := hv
  obtain ⟨t, hrun, htt, -⟩ := freeArray_ok ht' hv'
  refine ⟨t, ?_, htt⟩
  rw [hf, ok_bind, hrun]
  rfl

theorem markFailed_ok (ht : Tidy c s) (hv : Valid c s) (hu : s.used.toNat ≤ s.storage.length) :
    ∃ t, markFailed c s = .ok t ∧ Failed c t := by
  obtain ⟨t, hrun, htt⟩ := freeAll_ok
    (fun s => .ok { s with array := c.scratch, used := 0, allocated := errorMarker }) ht hv hu
  exact ⟨_, hrun, ⟨htt.scratch, htt.next⟩, rfl, rfl, rfl⟩

theorem free_ok (ht : Tidy c s) (hv : Valid c s) (hu : s.used.toNat ≤ s.storage.length) :
    ∃ t, free c s = .ok t ∧ Backed c t [] := by
  obtain ⟨t, hrun, htt⟩ := freeAll_ok (fun s => .ok (init c s)) ht hv hu
  exact ⟨_, hrun, init_backed htt⟩

theorem Backed.used_le (h : Backed c s l) : s.used.toNat ≤ s.storage.length := by
  rw [h.used]
  exact h.le.trans h.room

/-! ### Growing -/

theorem Backed.allocated_le (h : Backed c s l) : s.allocated.toNat ≤ ptrdiffMax :=
  (Nat.le_mul_of_pos_right _ c.elementSize_pos).trans h.bytes

theorem Backed.not_failed (h : Backed c s l) : s.allocated ≠ errorMarker := by
  intro hm
  have hle := h.allocated_le
  rw [hm] at hle
  exact absurd hle (by decide)

/-- The products of a count and the element size do not wrap while the array
has not failed. -/
theorem Backed.used_mul (h : Backed c s l) :
    (s.used * c.elementSize).toNat = l.length * c.elementSize.toNat := by
  rw [← h.used]
  apply SizeT.toNat_mul_of_lt
  rw [h.used]
  have hle := (Nat.mul_le_mul_right c.elementSize.toNat h.le).trans h.bytes
  unfold ptrdiffMax at hle
  omega

variable {bytes : UInt64}

theorem cellsOf_mul (h : bytes.toNat = n * c.elementSize.toNat) :
    c.cellsOf bytes = n := by
  rw [Config.cellsOf, h]
  exact Nat.mul_div_cancel n c.elementSize_pos

theorem newBlock_tidy (ht : Tidy c s) (b : Block α) : Tidy c (s.newBlock b) where
  scratch := ht.scratch
  next := by
    intro id hid
    have hid : s.next + 1 ≤ id := hid
    have hne : id ≠ s.next := by omega
    simpa [State.newBlock, hne] using ht.next id (by omega)

theorem newBlock_cellsAt_next (s : State α) (b : Block α) :
    (s.newBlock b).cellsAt (.heap s.next) = b.cells := by
  simp [State.newBlock, State.cellsAt]

theorem newBlock_cellsAt (s : State α) (b : Block α) {q : Pointer} (hq : q ≠ .heap s.next) :
    (s.newBlock b).cellsAt q = s.cellsAt q := by
  cases q with
  | null => rfl
  | scratch => rfl
  | heap id =>
    have hid : id ≠ s.next := fun h => hq (h ▸ rfl)
    simp [State.newBlock, State.cellsAt, hid]

theorem scratch_ne_heap (c : Config α) (id : ℕ) : c.scratch ≠ .heap id := by
  unfold Config.scratch
  split_ifs <;> simp

theorem Backed.array_ne (h : Backed c s l) : s.array ≠ .heap s.next := by
  intro ha
  cases h.valid with
  | inl hs => exact scratch_ne_heap c s.next (hs.symm.trans ha)
  | inr hid =>
    obtain ⟨id, b, hid, hb⟩ := hid
    have hnext : id = s.next := Pointer.heap.inj (hid.symm.trans ha)
    rw [hnext, h.tidy.next s.next le_rfl] at hb
    cases hb

/-- What a new array of `n` elements is like: a block of its own that has the
elements of the old one. -/
structure Moved (c : Config α) (s t : State α) (p : Pointer) (n : ℕ)
    (l : List (Option α)) : Prop where
  tidy : Tidy c t
  used : t.used = s.used
  pointer : ∃ id b, p = .heap id ∧ t.heap id = some b
  length : (t.cellsAt p).length = n
  holds : (t.cellsAt p).take l.length = l

theorem copy_moved (h : Backed c s l) (hbytes : c.cellsOf bytes = l.length) (hn : l.length ≤ n) :
    ∃ t, memcpy c (.heap s.next) s.array bytes (s.newBlock (.alloc n)) = .ok t ∧
      Moved c s t (.heap s.next) n l ∧ t.array = s.array ∧ t.next = s.next + 1 ∧
      ∀ id, id ≠ s.next → (t.heap id).isSome = (s.heap id).isSome := by
  have hsrc : (s.newBlock (.alloc n)).cellsAt s.array = s.storage :=
    newBlock_cellsAt s _ h.array_ne
  have hdst : (s.newBlock (.alloc n)).cellsAt (.heap s.next) = (Block.alloc n).cells :=
    newBlock_cellsAt_next s _
  have hsize : (Block.alloc n : Block α).cells.length = n := CheckedArray.Block.size_alloc n
  obtain ⟨t, hrun, ht⟩ := memcpy_ok (c := c) (s := s.newBlock (.alloc n)) (.heap s.next)
    s.array bytes
    (by rw [hsrc, hbytes]; exact h.le.trans h.room) (by rw [hdst, hbytes, hsize]; exact hn)
  rw [hsrc, hdst, hbytes, h.holds] at ht
  refine ⟨t, hrun, ⟨ht.tidy (newBlock_tidy h.tidy _), ht.used, ?_, ?_, ?_⟩, ht.array, ht.next, ?_⟩
  · have hlive := ht.live s.next
    simp only [State.newBlock, Function.update_self, Option.isSome_some,
      Option.isSome_iff_exists] at hlive
    obtain ⟨b, hb⟩ := hlive
    exact ⟨s.next, b, rfl, hb⟩
  · rw [ht.cells, List.length_append, List.length_drop, hsize]
    omega
  · rw [ht.cells]
    exact List.take_left
  · intro id hid
    rw [ht.live id]
    simp [State.newBlock, hid]

theorem newArrayBytes_refused (hg : granted g bytes = false) (hpos : bytes ≠ 0) :
    newArrayBytes c g bytes s = .ok (.null, s) := by
  unfold newArrayBytes
  split_ifs with ha
  · simp only [malloc, hg]
    rfl
  · simp only [realloc, hg, if_neg hpos]
    rfl

theorem newArrayBytes_granted (h : Backed c s l)
    (hg : granted g bytes = true) (hbytes : bytes.toNat = n * c.elementSize.toNat)
    (hn : l.length ≤ n) (hpos : bytes ≠ 0) :
    ∃ p t, newArrayBytes c g bytes s = .ok (p, t) ∧ Moved c s t p n l := by
  have hcells := cellsOf_mul hbytes
  unfold newArrayBytes
  by_cases ha : s.array = c.scratch
  · rw [if_pos ha]
    simp only [malloc, hg, hcells, if_true]
    by_cases hnull : s.array = .null
    · -- There is no scratch space, and nothing to copy.
      have hl : l = [] := by
        have hlen := h.le.trans h.room
        simp only [State.storage, hnull, State.cellsAt, List.length_nil] at hlen
        exact List.length_eq_zero_iff.mp (by omega)
      refine ⟨.heap s.next, s.newBlock (.alloc n), if_neg (by simp [hnull]),
        newBlock_tidy h.tidy _, rfl, ⟨s.next, .alloc n, rfl, ?_⟩, ?_, ?_⟩
      · simp [State.newBlock]
      · rw [newBlock_cellsAt_next]
        exact CheckedArray.Block.size_alloc n
      · simp [hl]
    · obtain ⟨t, hrun, ht, -⟩ := copy_moved h (cellsOf_mul h.used_mul) hn
      rw [if_pos ⟨by simp, hnull⟩, hrun]
      exact ⟨_, t, rfl, ht⟩
  · obtain ⟨id, b, hid, hb⟩ := h.valid.resolve_left ha
    have hstorage : s.storage = b.cells := by simp [State.storage, hid, State.cellsAt, hb]
    rw [if_neg ha]
    simp only [realloc, if_neg hpos, hg, if_true, hid, State.deref, hb, State.freeBlock, hcells]
    refine ⟨_, _, rfl, newBlock_tidy (h.tidy.freed id _) _, rfl, ⟨s.next, b.realloc n, rfl, ?_⟩, ?_, ?_⟩
    · simp [State.newBlock]
    · rw [newBlock_cellsAt_next]
      simp only [Block.realloc, List.length_append, List.length_take, List.length_replicate]
      omega
    · have hlen := h.le.trans h.room
      have hholds := h.holds
      rw [hstorage] at hlen hholds
      rw [newBlock_cellsAt_next, Block.realloc, List.take_append_of_le_length, List.take_take,
        min_eq_left hn, hholds]
      rw [List.length_take]
      omega

/-- Memory for `n` elements is not to be had. -/
def Config.Refused (c : Config α) (g : Bool) (n : ℕ) : Prop :=
  g = false ∨ ptrdiffMax < n * c.elementSize.toNat

theorem newArray_cases {n : UInt64} (h : Backed c s l) (hn : l.length ≤ n.toNat)
    (hpos : 0 < n.toNat) :
    (∃ p t, newArray c g n s = .ok (p, t) ∧ Moved c s t p n.toNat l ∧
      n.toNat * c.elementSize.toNat ≤ ptrdiffMax) ∨
    newArray c g n s = .ok (.null, s) ∧ c.Refused g n.toNat := by
  unfold newArray multiplyWrapv
  by_cases hlt : n.toNat * c.elementSize.toNat < 2 ^ 64
  · have hbytes : (n * c.elementSize).toNat = n.toNat * c.elementSize.toNat :=
      SizeT.toNat_mul_of_lt hlt
    have hne : n * c.elementSize ≠ 0 := by
      intro h0
      rw [h0] at hbytes
      exact (Nat.mul_pos hpos c.elementSize_pos).ne hbytes
    rw [if_pos hlt]
    cases hg : granted g (n * c.elementSize) with
    | true =>
      obtain ⟨p, t, hrun, hmoved⟩ := newArrayBytes_granted h hg hbytes hn hne
      refine .inl ⟨p, t, hrun, hmoved, ?_⟩
      rw [granted, Bool.and_eq_true, decide_eq_true_eq, hbytes] at hg
      exact hg.2
    | false =>
      refine .inr ⟨newArrayBytes_refused hg hne, ?_⟩
      rw [granted, Bool.and_eq_false_iff, decide_eq_false_iff_not, hbytes, not_le] at hg
      exact hg
  · rw [if_neg hlt]
    refine .inr ⟨rfl, .inr ?_⟩
    unfold ptrdiffMax
    omega

theorem Moved.ne_null (h : Moved c s t p n l) : p ≠ .null := by
  obtain ⟨id, b, rfl, -⟩ := h.pointer
  simp

theorem Moved.backed {n : UInt64} {l' : List (Option α)}
    (h : Moved c s t p n.toNat l) (used : UInt64) (hn : n.toNat * c.elementSize.toNat ≤ ptrdiffMax)
    (hused : used.toNat = l'.length) (hle : l'.length ≤ n.toNat)
    (hl : (t.cellsAt p).take l'.length = l') :
    Backed c { t with array := p, allocated := n, used := used } l' where
  tidy := ⟨h.tidy.scratch, h.tidy.next⟩
  valid := by
    obtain ⟨id, b, rfl, hb⟩ := h.pointer
    exact .inr ⟨id, b, rfl, hb⟩
  used := hused
  le := hle
  bytes := hn
  room := h.length.ge
  holds := hl

def Config.growth (c : Config α) (n : ℕ) : ℕ :=
  if n = 0 then
    if c.elementSize.toNat < 4 then 16 else if c.elementSize.toNat < 8 then 8 else 4
  else n + n / 2 + 1

theorem lt_growth (c : Config α) (n : ℕ) : n < c.growth n := by
  unfold Config.growth
  split_ifs <;> omega

theorem newAllocated_ok {a : UInt64} (h : a.toNat ≤ ptrdiffMax) :
    ∃ n, newAllocated c a = some n ∧ n.toNat = c.growth a.toNat := by
  unfold newAllocated Config.growth
  by_cases ha : a = 0
  · have ha' : a.toNat = 0 := by rw [ha]; rfl
    rw [if_pos ha, if_pos ha']
    refine ⟨_, rfl, ?_⟩
    split_ifs with h4 h4' h8 h8' h8'
    all_goals first | rfl | contradiction
  · have ha' : a.toNat ≠ 0 := fun h0 => ha (UInt64.toNat_inj.mp h0)
    unfold ptrdiffMax at h
    have hdiv : (a / 2).toNat = a.toNat / 2 := UInt64.toNat_div a 2
    have hsum : (a + a / 2).toNat = a.toNat + a.toNat / 2 := by
      exact SizeT.toNat_add_of_lt (by omega)
    have hn : (a + a / 2 + 1).toNat = a.toNat + a.toNat / 2 + 1 := by
      rw [← hsum]
      exact SizeT.toNat_add_of_lt (by rw [hsum, UInt64.toNat_one]; omega)
    rw [if_neg ha, if_neg ha']
    refine ⟨_, if_neg ?_, hn⟩
    rw [UInt64.le_iff_toNat_le, hn]
    omega

theorem emplaceEnlarge_cases (h : Backed c s l) (hfull : s.used = s.allocated) :
    (∃ t, emplaceEnlarge c g s = .ok (true, t) ∧ Backed c t l ∧ l.length < t.allocated.toNat) ∨
    emplaceEnlarge c g s = .ok (false, s) ∧ c.Refused g (c.growth l.length) := by
  obtain ⟨n, hn, hgrow⟩ := newAllocated_ok (c := c) h.allocated_le
  rw [← hfull, h.used] at hgrow
  have hlt := lt_growth c l.length
  unfold emplaceEnlarge
  rw [hn, ← hgrow]
  cases newArray_cases (g := g) (n := n) h (by omega) (by omega) with
  | inl hmoved =>
    obtain ⟨p, t, hrun, hmoved, hbytes⟩ := hmoved
    refine .inl ⟨{ t with array := p, allocated := n }, ?_, ?_, hgrow ▸ hlt⟩
    · simp only [hrun]
      exact if_neg hmoved.ne_null
    · exact hmoved.backed t.used hbytes (by rw [hmoved.used, h.used]) (by omega)
        hmoved.holds
  | inr hrefused =>
    refine .inr ⟨?_, hrefused.2⟩
    simp only [hrefused.1]
    rfl

/-- The elements a larger `used` takes in are the ones the storage held. -/
theorem extend_take (hn : l.length ≤ n) (hcells : n ≤ cells.length) (hl : cells.take l.length = l) :
    ∃ added, (l ++ added).length = n ∧ cells.take (l ++ added).length = l ++ added := by
  have happ : l ++ (cells.take n).drop l.length = cells.take n := by
    calc l ++ (cells.take n).drop l.length
        = (cells.take n).take l.length ++ (cells.take n).drop l.length := by
          rw [List.take_take, min_eq_left hn, hl]
      _ = cells.take n := List.take_append_drop _ _
  refine ⟨(cells.take n).drop l.length, ?_⟩
  rw [happ, List.length_take, min_eq_left hcells]
  exact ⟨rfl, rfl⟩

variable {size : UInt64}

theorem Backed.resized {l' f : List (Option α)} (h : Backed c s l)
    (hused : size.toNat = l'.length) (hle : l'.length ≤ s.allocated.toNat)
    (hl : s.storage.take l'.length = l') : Backed c { s with used := size, freed := f } l' :=
  ⟨⟨h.tidy.scratch, h.tidy.next⟩, h.valid, hused, hle, h.bytes, h.room, hl⟩

theorem libcResize_cases (h : Backed c s l) (hsize : l.length < size.toNat) :
    (∃ t added, libcResize c g size s = .ok (true, t) ∧ Backed c t (l ++ added) ∧
      (l ++ added).length = size.toNat) ∨
    libcResize c g size s = .ok (false, s) ∧ c.Refused g size.toNat := by
  unfold libcResize
  by_cases hle : size ≤ s.allocated
  · rw [if_pos hle]
    obtain ⟨added, hlen, hadded⟩ := extend_take hsize.le (hle.trans h.room) h.holds
    exact .inl ⟨_, added, rfl, h.resized hlen.symm (hlen.trans_le hle) hadded, hlen⟩
  · rw [if_neg hle]
    cases newArray_cases (g := g) (n := size) h hsize.le (by omega) with
    | inl hmoved =>
      obtain ⟨p, t, hrun, hmoved, hbytes⟩ := hmoved
      obtain ⟨added, hlen, hadded⟩ := extend_take hsize.le hmoved.length.ge hmoved.holds
      refine .inl ⟨{ t with array := p, allocated := size, used := size }, added, ?_, ?_, hlen⟩
      · simp only [hrun]
        exact if_neg hmoved.ne_null
      · exact hmoved.backed size hbytes hlen.symm hlen.le hadded
    | inr hrefused =>
      refine .inr ⟨?_, hrefused.2⟩
      simp only [hrefused.1]
      rfl

/-! ### Storing elements -/

theorem store_tail {l₀ l : List (Option α)} (as : List (Option α)) {u : UInt64} (h : Backed c s l₀)
    (hl : s.storage.take l.length = l) (hlen : l.length + as.length ≤ s.allocated.toNat)
    (hu : u.toNat = l.length + as.length) :
    ∃ t, s.store s.array l.length as = .ok t ∧ t.used = s.used ∧
      Backed c { t with used := u } (l ++ as) := by
  have hroom : l.length + as.length ≤ s.storage.length := hlen.trans h.room
  obtain ⟨t, hrun, ht⟩ := store_ok (s := s) (p := s.array) as hroom
  have hstorage : t.storage = l ++ as ++ s.storage.drop (l.length + as.length) := by
    change t.cellsAt t.array = _
    rw [ht.array, ht.cells]
    exact congrArg (· ++ as ++ s.storage.drop (l.length + as.length)) hl
  have hv := h.valid.of_live ht.array fun id _ => ht.live id
  have htidy := ht.tidy h.tidy
  refine ⟨t, hrun, ht.used, ⟨htidy.scratch, htidy.next⟩, hv, ?_, ?_, ?_, ?_, ?_⟩
  · rw [List.length_append]
    exact hu
  · rw [List.length_append, ht.allocated]
    exact hlen
  · rw [ht.allocated]
    exact h.bytes
  · change t.allocated.toNat ≤ t.storage.length
    have hle := h.room
    rw [ht.allocated, hstorage, List.length_append, List.length_append, List.length_drop]
    omega
  · change t.storage.take _ = _
    rw [hstorage]
    exact List.take_left

theorem Backed.succ_used (h : Backed c s l) (hlt : l.length < s.allocated.toNat) :
    (s.used + 1).toNat = l.length + 1 := by
  have hle := h.allocated_le
  have hused := h.used
  unfold ptrdiffMax at hle
  rw [SizeT.toNat_add_of_lt, hused, UInt64.toNat_one]
  rw [UInt64.toNat_one]
  omega

theorem append_ok (item : Option α) (h : Backed c s l) (hlt : l.length < s.allocated.toNat) :
    ∃ t, append item s = .ok t ∧ Backed c t (l ++ [item]) := by
  obtain ⟨t, hrun, hused, ht⟩ := store_tail [item] h h.holds hlt (h.succ_used hlt)
  refine ⟨{ t with used := t.used + 1 }, ?_, hused ▸ ht⟩
  unfold append
  rw [h.used, hrun]
  rfl

section
variable (h : Backed c s l)
include h

theorem emplaceTail_ok (hlt : l.length < s.allocated.toNat) :
    ∃ t x, emplaceTail c s = .ok (some s.used, t) ∧ Backed c t (l ++ [x]) ∧
      ∀ a, c.initial = some a → x = some a := by
  unfold emplaceTail initElement
  cases hi : c.initial with
  | some a =>
    obtain ⟨t, hrun, -, ht⟩ := store_tail [some a] h h.holds hlt (h.succ_used hlt)
    refine ⟨{ t with used := s.used + 1 }, some a, ?_, ht, fun _ hb => hb⟩
    change (s.store s.array s.used.toNat [some a] >>= _) = _
    rw [h.used, hrun]
    rfl
  | none =>
    obtain ⟨added, hlen, hadded⟩ := extend_take (Nat.le_succ l.length) (hlt.trans_le h.room) h.holds
    rw [List.length_append, Nat.succ_eq_add_one, Nat.add_left_cancel_iff,
      List.length_eq_one_iff] at hlen
    obtain ⟨x, rfl⟩ := hlen
    refine ⟨{ s with used := s.used + 1 }, x, rfl, ?_, fun _ hb => absurd hb (Option.some_ne_none _).symm⟩
    have hlen : (l ++ [x]).length = l.length + 1 := List.length_append
    exact h.resized ((h.succ_used hlt).trans hlen.symm) (hlen.trans_le hlt) hadded

theorem Backed.truncate {n : UInt64} {f : List (Option α)} (hn : n.toNat ≤ l.length) :
    Backed c { s with used := n, freed := f } (l.take n.toNat) := by
  have hlen : (l.take n.toNat).length = n.toNat := List.length_take_of_le hn
  refine h.resized hlen.symm (hlen.trans_le (hn.trans h.le)) ?_
  rw [hlen]
  conv_rhs => rw [← h.holds]
  rw [List.take_take, min_eq_left hn]

/-! ### Operations on an array that has not failed -/

theorem markFailed_backed : ∃ t, markFailed c s = .ok t ∧ Failed c t :=
  markFailed_ok h.tidy h.valid h.used_le

theorem Backed.not_hasFailed : ¬hasFailed s = true := by
  simpa [hasFailed] using h.not_failed

theorem Backed.lt_of_ne (hne : s.used ≠ s.allocated) : l.length < s.allocated.toNat := by
  have hne' : s.used.toNat ≠ s.allocated.toNat := fun he => hne (UInt64.toNat_inj.mp he)
  rw [h.used] at hne'
  exact lt_of_le_of_ne h.le hne'

end

theorem add_cases (item : α) (h : Backed c s l) :
    (∃ t, add c g item s = .ok t ∧ Backed c t (l ++ [some item])) ∨
    (∃ t, add c g item s = .ok t ∧ Failed c t) ∧ c.Refused g (c.growth l.length) := by
  unfold add
  rw [if_neg h.not_hasFailed]
  by_cases hfull : s.used = s.allocated
  · rw [if_pos hfull, addSlow]
    cases emplaceEnlarge_cases (g := g) h hfull with
    | inl hok =>
      obtain ⟨t, hrun, ht, hlt⟩ := hok
      obtain ⟨t', hrun', ht'⟩ := append_ok (some item) ht hlt
      refine .inl ⟨t', ?_, ht'⟩
      rw [hrun]
      exact hrun'
    | inr hrefused =>
      obtain ⟨t, hrun, ht⟩ := markFailed_backed h
      refine .inr ⟨⟨t, ?_, ht⟩, hrefused.2⟩
      rw [hrefused.1]
      exact hrun
  · rw [if_neg hfull]
    exact .inl (append_ok (some item) h (h.lt_of_ne hfull))

/-- A new element: what the skeleton initializes it with, if it does. -/
def Config.Fresh (c : Config α) (x : Option α) : Prop :=
  ∀ a, c.initial = some a → x = some a

theorem emplace_cases (h : Backed c s l) :
    (∃ t i x, emplace c g s = .ok (some i, t) ∧ i.toNat = l.length ∧ Backed c t (l ++ [x]) ∧
      c.Fresh x) ∨
    (∃ t, emplace c g s = .ok (none, t) ∧ Failed c t) ∧ c.Refused g (c.growth l.length) := by
  unfold emplace
  rw [if_neg h.not_hasFailed]
  by_cases hfull : s.used = s.allocated
  · rw [if_pos hfull, emplaceSlow]
    cases emplaceEnlarge_cases (g := g) h hfull with
    | inl hok =>
      obtain ⟨t, hrun, ht, hlt⟩ := hok
      obtain ⟨t', x, hrun', ht', hx⟩ := emplaceTail_ok ht hlt
      refine .inl ⟨t', t.used, x, ?_, ht.used, ht', hx⟩
      rw [hrun]
      exact hrun'
    | inr hrefused =>
      obtain ⟨t, hrun, ht⟩ := markFailed_backed h
      refine .inr ⟨⟨t, ?_, ht⟩, hrefused.2⟩
      rw [hrefused.1, ok_bind]
      dsimp only
      rw [hrun]
      rfl
  · rw [if_neg hfull]
    obtain ⟨t, x, hrun, ht, hx⟩ := emplaceTail_ok h (h.lt_of_ne hfull)
    exact .inl ⟨t, s.used, x, hrun, h.used, ht, hx⟩

theorem store_replicate {added : List (Option α)} {a : α} (ht : Backed c t (l ++ added)) :
    ∃ t', t.store t.array l.length (List.replicate added.length (some a)) = .ok t' ∧
      Backed c t' (l ++ List.replicate added.length (some a)) := by
  have hlen : l.length + (List.replicate added.length (some a)).length = (l ++ added).length := by
    simp
  have hl : t.storage.take l.length = l := by
    have hholds := congrArg (List.take l.length) ht.holds
    rwa [List.take_take, List.take_left, min_eq_left (by simp)] at hholds
  obtain ⟨t', hrun, hused, ht'⟩ := store_tail (List.replicate added.length (some a)) ht hl
    (hlen ▸ ht.le) (hlen ▸ ht.used)
  refine ⟨t', hrun, ?_⟩
  rw [← hused] at ht'
  exact ht'

theorem store_fresh {added : List (Option α)} {a : α} (ht : Backed c t (l ++ added))
    (ha : c.initial = some a) (hlen : (l ++ added).length = size.toNat) :
    ∃ t' added', (do
        let s ← t.store t.array l.length (List.replicate added.length (some a))
        .ok (true, s)) = .ok (true, t') ∧ Backed c t' (l ++ added') ∧
      (l ++ added').length = size.toNat ∧ ∀ x ∈ added', c.Fresh x := by
  obtain ⟨t', hrun, ht'⟩ := store_replicate (a := a) ht
  refine ⟨t', List.replicate added.length (some a), by rw [hrun]; rfl, ht', by simpa using hlen, ?_⟩
  intro x hx b hb
  rw [List.eq_of_mem_replicate hx, ← ha, hb]

/-- The numbers of bytes `__libc_dynarray_resize_clear` computes are those of the
old elements and of the new ones. -/
theorem clear_cells {added : List (Option α)} (h : Backed c s l)
    (ht : Backed c t (l ++ added)) (hlen : (l ++ added).length = size.toNat) :
    c.cellsOf (s.used * c.elementSize) = l.length ∧
      c.cellsOf ((size - s.used) * c.elementSize) = added.length := by
  refine ⟨cellsOf_mul h.used_mul, cellsOf_mul ?_⟩
  have hsub : (size - s.used).toNat = added.length := by
    rw [SizeT.toNat_sub_of_le, h.used, ← hlen, List.length_append, Nat.add_sub_cancel_left]
    rw [h.used, ← hlen, List.length_append]
    exact Nat.le_add_right _ _
  rw [← hsub]
  apply SizeT.toNat_mul_of_lt
  have hbytes := (Nat.mul_le_mul_right c.elementSize.toNat ht.le).trans ht.bytes
  rw [List.length_append, Nat.add_mul] at hbytes
  unfold ptrdiffMax at hbytes
  rw [hsub]
  omega

theorem enlarge_cases (h : Backed c s l) (hsize : l.length < size.toNat) :
    (∃ t added, enlarge c g size s = .ok (true, t) ∧ Backed c t (l ++ added) ∧
      (l ++ added).length = size.toNat ∧ ∀ x ∈ added, c.Fresh x) ∨
    enlarge c g size s = .ok (false, s) ∧ c.Refused g size.toNat := by
  unfold enlarge resizeClear
  cases libcResize_cases (g := g) h hsize with
  | inr hrefused =>
    refine .inr ⟨?_, hrefused.2⟩
    rw [hrefused.1]
    cases c.elementInit with
    | some a => rfl
    | none => cases c.elementFree <;> rfl
  | inl hok =>
    obtain ⟨t, added, hrun, ht, hlen⟩ := hok
    rw [hrun]
    have hcount : size.toNat - l.length = added.length := by
      rw [← hlen, List.length_append, Nat.add_sub_cancel_left]
    cases hinit : c.elementInit with
    | some a =>
      obtain ⟨t', added', hrun', ht'⟩ := store_fresh ht (by rw [Config.initial, hinit]) hlen
      refine .inl ⟨t', added', ?_, ht'⟩
      simp only [h.used, hcount]
      exact hrun'
    | none =>
      cases hfree : c.elementFree with
      | false =>
        refine .inl ⟨t, added, rfl, ht, hlen, ?_⟩
        intro x _ b hb
        simp [Config.initial, hinit, hfree] at hb
      | true =>
        obtain ⟨t', added', hrun', ht'⟩ := store_fresh ht (a := c.zero)
          (by rw [Config.initial, hinit, hfree]; rfl) hlen
        obtain ⟨hold, hnew⟩ := clear_cells h ht hlen
        refine .inl ⟨t', added', ?_, ht'⟩
        simp only [hold, hnew]
        exact hrun'

theorem resize_cases (size : UInt64) (h : Backed c s l) :
    (∃ t added, l.length < size.toNat ∧ resize c g size s = .ok (true, t) ∧
      Backed c t (l ++ added) ∧ (l ++ added).length = size.toNat ∧ ∀ x ∈ added, c.Fresh x) ∨
    (∃ t, l.length < size.toNat ∧ resize c g size s = .ok (false, t) ∧ Failed c t ∧
      c.Refused g size.toNat) ∨ ∃ t, size.toNat ≤ l.length ∧ resize c g size s = .ok (true, t) ∧
      Backed c t (l.take size.toNat) := by
  unfold resize
  by_cases hlt : s.used < size
  · rw [if_pos hlt]
    rw [UInt64.lt_iff_toNat_lt, h.used] at hlt
    cases enlarge_cases (g := g) h hlt with
    | inl hok =>
      obtain ⟨t, added, hrun, ht, hlen, hfresh⟩ := hok
      refine .inl ⟨t, added, hlt, ?_, ht, hlen, hfresh⟩
      rw [hrun]
      rfl
    | inr hrefused =>
      obtain ⟨t, hrun, ht⟩ := markFailed_backed h
      refine .inr (.inl ⟨t, hlt, ?_, ht, hrefused.2⟩)
      rw [hrefused.1, ok_bind]
      dsimp only
      rw [hrun]
      rfl
  · rw [if_neg hlt]
    rw [UInt64.lt_iff_toNat_lt, h.used, not_lt] at hlt
    have hsub : (s.used - size).toNat = l.length - size.toNat := by
      rw [SizeT.toNat_sub_of_le (h.used ▸ hlt), h.used]
    have hroom := h.le.trans h.room
    obtain ⟨f, hf⟩ := freeElements_ok (c := c) (s := s) (i := size.toNat)
      (n := (s.used - size).toNat) (by omega)
    refine .inr (.inr ⟨_, hlt, ?_, h.truncate (f := f) hlt⟩)
    rw [hf]
    rfl

theorem removeLast_ok (h : Backed c s l) :
    ∃ t, removeLast c s = .ok t ∧ Backed c t l.dropLast := by
  unfold removeLast
  by_cases hpos : 0 < s.used
  · rw [if_pos hpos]
    rw [UInt64.lt_iff_toNat_lt, h.used, UInt64.toNat_zero] at hpos
    have hpred : (s.used - 1).toNat = l.length - 1 := by
      rw [SizeT.toNat_sub_of_le, h.used, UInt64.toNat_one]
      rw [h.used, UInt64.toNat_one]
      exact hpos
    have hroom := h.le.trans h.room
    obtain ⟨f, hf⟩ := freeElements_ok (c := c) (s := s) (i := (s.used - 1).toNat) (n := 1)
      (by omega)
    have ht := h.truncate (n := s.used - 1) (f := f) (by omega)
    rw [hpred, ← List.dropLast_eq_take] at ht
    refine ⟨_, ?_, ht⟩
    simp only [hf]
    rfl
  · rw [if_neg hpos]
    rw [UInt64.lt_iff_toNat_lt, h.used, UInt64.toNat_zero, Nat.pos_iff_ne_zero, not_not,
      List.length_eq_zero_iff] at hpos
    subst hpos
    exact ⟨s, rfl, h⟩

theorem clear_ok (h : Backed c s l) : ∃ t, clear c s = .ok t ∧ Backed c t [] := by
  have hroom := h.used_le
  obtain ⟨f, hf⟩ := freeElements_ok (c := c) (s := s) (i := 0) (n := s.used.toNat) (by omega)
  refine ⟨{ s with used := 0, freed := f }, ?_, h.truncate (n := 0) (Nat.zero_le _)⟩
  unfold clear
  rw [hf]
  rfl

theorem libcFinalize_cases (h : Backed c s l) :
    (∃ p n t, libcFinalize c g s = .ok (some (p, n), t) ∧ Tidy c t ∧ n.toNat = l.length ∧
      l.length ≤ (t.cellsAt p).length ∧ (t.cellsAt p).take l.length = l) ∨
    libcFinalize c g s = .ok (none, s) ∧ g = false := by
  unfold libcFinalize
  rw [if_neg h.not_failed]
  by_cases hempty : s.used = 0
  · have hl : l = [] := by
      rw [← List.length_eq_zero_iff, ← h.used, hempty]
      rfl
    obtain ⟨t, hrun, ht, -⟩ := freeArray_ok h.tidy h.valid
    rw [if_pos hempty, hrun, hl]
    exact .inl ⟨_, _, t, rfl, ht, rfl, Nat.zero_le _, rfl⟩
  · rw [if_neg hempty]
    have hbytes : (s.used * c.elementSize).toNat ≤ ptrdiffMax := by
      rw [h.used_mul]
      exact (Nat.mul_le_mul_right _ h.le).trans h.bytes
    have hcells := cellsOf_mul h.used_mul
    cases g with
    | false => exact .inr ⟨rfl, rfl⟩
    | true =>
      have hgranted : granted true (s.used * c.elementSize) = true := by
        exact decide_eq_true hbytes
      have hnull : s.array ≠ .null := by
        intro hnull
        have hroom := h.used_le
        rw [State.storage, hnull] at hroom
        exact hempty (UInt64.toNat_inj.mp (Nat.le_zero.mp hroom))
      obtain ⟨t, hcopy, hmoved, harray, -, hlive⟩ := copy_moved h hcells (le_refl l.length)
      have hvalid : Valid c t :=
        h.valid.of_live harray fun id hid => hlive id fun he => h.array_ne (he ▸ hid)
      obtain ⟨t', hfree, htidy, hsame⟩ := freeArray_ok hmoved.tidy hvalid
      have hsame := hsame (.heap s.next) (harray ▸ h.array_ne.symm)
      refine .inl ⟨.heap s.next, s.used, t', ?_, htidy, h.used, ?_, ?_⟩
      · simp only [malloc, hgranted, hcells, if_true, ne_eq, reduceCtorEq, not_false_eq_true]
        rw [copyElements, if_pos (show (s.newBlock _).array ≠ .null from hnull)]
        change (memcpy c (.heap s.next) s.array _ _ >>= _) = _
        rw [hcopy]
        change (freeArray c t >>= _) = _
        rw [hfree]
        rfl
      · rw [hsame]
        exact hmoved.length.ge
      · rw [hsame]
        exact hmoved.holds

/-! ### The array as a list -/

/-- What each operation does to a list of elements; `none` is a failed array.
An operation that needs memory fails only where the memory is refused, and a
failed array accepts no element and no size until it is finalized or freed. -/
inductive Allowed (c : Config α) (g : Bool) :
    Option (List (Option α)) → Op α → Outcome α → Option (List (Option α)) → Prop where
  | add (l : List (Option α)) (item : α) :
      Allowed c g (some l) (.add item) .done (some (l ++ [some item]))
  | addRefused (l : List (Option α)) (item : α) (h : c.Refused g (c.growth l.length)) :
      Allowed c g (some l) (.add item) .done none
  | addFailed (item : α) : Allowed c g none (.add item) .done none
  | emplace (l : List (Option α)) (x : Option α) (h : c.Fresh x) :
      Allowed c g (some l) (.emplace none) (.placed true) (some (l ++ [x]))
  | emplaceStore (l : List (Option α)) (item : α) :
      Allowed c g (some l) (.emplace (some item)) (.placed true) (some (l ++ [some item]))
  | emplaceRefused (l : List (Option α)) (item : Option α)
      (h : c.Refused g (c.growth l.length)) :
      Allowed c g (some l) (.emplace item) (.placed false) none
  | emplaceFailed (item : Option α) : Allowed c g none (.emplace item) (.placed false) none
  | grow (l added : List (Option α)) (size : UInt64) (h : l.length < size.toNat)
      (hlen : (l ++ added).length = size.toNat) (hfresh : ∀ x ∈ added, c.Fresh x) :
      Allowed c g (some l) (.resize size) (.resized true) (some (l ++ added))
  | growRefused (l : List (Option α)) (size : UInt64) (h : l.length < size.toNat)
      (href : c.Refused g size.toNat) :
      Allowed c g (some l) (.resize size) (.resized false) none
  | shrink (l : List (Option α)) (size : UInt64) (h : size.toNat ≤ l.length) :
      Allowed c g (some l) (.resize size) (.resized true) (some (l.take size.toNat))
  | resizeFailed (size : UInt64) : Allowed c g none (.resize size) (.resized false) none
  | removeLast (l : List (Option α)) : Allowed c g (some l) .removeLast .done (some l.dropLast)
  | removeLastFailed : Allowed c g none .removeLast .done none
  | clear (l : List (Option α)) : Allowed c g (some l) .clear .done (some [])
  | clearFailed : Allowed c g none .clear .done none
  | finalize (l : List (Option α)) : Allowed c g (some l) .finalize (.final (some l)) (some [])
  | finalizeRefused (l : List (Option α)) (h : g = false) :
      Allowed c g (some l) .finalize (.final none) (some [])
  | finalizeFailed : Allowed c g none .finalize (.final none) (some [])
  | free (a : Option (List (Option α))) : Allowed c g a .free .done (some [])
  | markFailed (a : Option (List (Option α))) : Allowed c g a .markFailed .done none

/-- What the object shows of the list: the elements are there, in storage that
has room for them, and their size in bytes is a `size_t`; a failed array has no
elements. -/
def Shows (c : Config α) (s : State α) : Option (List (Option α)) → Prop
  | some l => hasFailed s = false ∧ s.used.toNat = l.length ∧
      s.used.toNat ≤ s.storage.length ∧ s.used.toNat * c.elementSize.toNat < 2 ^ 64 ∧
      s.storage.take s.used.toNat = l
  | none => hasFailed s = true ∧ s.used = 0

/-- The run from `s` on is one of the list `a`: every operation returns, with the
outcome of the list, and leaves an object that shows the list. -/
inductive Conforms (c : Config α) :
    State α → Option (List (Option α)) → List (Op α × Bool) → Prop where
  | nil {s : State α} {a : Option (List (Option α))} (h : Shows c s a) : Conforms c s a []
  | cons {s t : State α} {a b : Option (List (Option α))} {op : Op α} {g : Bool}
      {r : Outcome α} {ops : List (Op α × Bool)} (h : Shows c s a)
      (hrun : step c g s op = .ok (r, t)) (hallowed : Allowed c g a op r b)
      (htail : Conforms c t b ops) : Conforms c s a ((op, g) :: ops)

/-- No operation of the run is a `resize` of an array that has failed. -/
def NoFailedResize (c : Config α) : State α → List (Op α × Bool) → Prop
  | _, [] => True
  | s, (op, g) :: ops =>
    (hasFailed s = true → ∀ size, op ≠ .resize size) ∧
      ∀ r t, step c g s op = .ok (r, t) → NoFailedResize c t ops

/-! ### Steps -/

def Represents (c : Config α) (s : State α) : Option (List (Option α)) → Prop
  | some l => Backed c s l
  | none => Failed c s

variable {a : Option (List (Option α))}

theorem Represents.shows (h : Represents c s a) : Shows c s a := by
  cases a with
  | none => exact ⟨decide_eq_true h.allocated, h.used⟩
  | some l =>
    have hb : Backed c s l := h
    refine ⟨decide_eq_false hb.not_failed, hb.used, hb.used_le, ?_, ?_⟩
    · have hle := (Nat.mul_le_mul_right c.elementSize.toNat hb.le).trans hb.bytes
      unfold ptrdiffMax at hle
      rw [hb.used]
      omega
    · rw [hb.used]
      exact hb.holds

theorem Shows.unique {b : Option (List (Option α))} (ha : Shows c s a) (hb : Shows c s b) :
    a = b := by
  cases a with
  | none =>
    cases b with
    | none => rfl
    | some l => exact absurd (ha.1.symm.trans hb.1) (by decide)
  | some l =>
    cases b with
    | none => exact absurd (ha.1.symm.trans hb.1) (by decide)
    | some l' =>
      obtain ⟨-, -, -, -, hl⟩ := ha
      obtain ⟨-, -, -, -, hl'⟩ := hb
      rw [← hl, hl']

theorem Failed.hasFailed (h : Failed c s) : hasFailed s = true := decide_eq_true h.allocated

theorem Failed.used_zero (h : Failed c s) : s.used.toNat = 0 := by rw [h.used]; rfl

theorem Failed.valid (h : Failed c s) : Valid c s := .inl h.array

theorem step_backed (h : Backed c s l) (op : Op α) :
    ∃ r t b, step c g s op = .ok (r, t) ∧ Allowed c g (some l) op r b ∧ Represents c t b := by
  cases op with
  | add item =>
    cases add_cases (g := g) item h with
    | inl hok =>
      obtain ⟨t, hrun, ht⟩ := hok
      exact ⟨.done, t, some _, by rw [step, hrun]; rfl, .add l item, ht⟩
    | inr href =>
      obtain ⟨⟨t, hrun, ht⟩, href⟩ := href
      exact ⟨.done, t, none, by rw [step, hrun]; rfl, .addRefused l item href, ht⟩
  | emplace item =>
    cases emplace_cases (g := g) h with
    | inl hok =>
      obtain ⟨t, i, x, hrun, hi, ht, hx⟩ := hok
      cases item with
      | none =>
        refine ⟨.placed true, t, some _, ?_, .emplace l x hx, ht⟩
        rw [step, callEmplace, hrun]
        rfl
      | some a =>
        obtain ⟨t', hrun', ht'⟩ := store_replicate (a := a) ht
        refine ⟨.placed true, t', some _, ?_, .emplaceStore l a, ht'⟩
        rw [step, callEmplace, hrun]
        change (t.store t.array i.toNat [some a] >>= _) = _
        rw [hi]
        change (t.store t.array l.length (List.replicate [x].length (some a)) >>= _) = _
        rw [hrun']
        rfl
    | inr href =>
      obtain ⟨⟨t, hrun, ht⟩, href⟩ := href
      refine ⟨.placed false, t, none, ?_, .emplaceRefused l item href, ht⟩
      rw [step, callEmplace, hrun]
      rfl
  | resize size =>
    obtain ⟨t, added, hlt, hrun, ht, hlen, hfresh⟩ | ⟨t, hlt, hrun, ht, href⟩ | ⟨t, hle, hrun, ht⟩ :=
      resize_cases (g := g) size h
    · exact ⟨_, t, some _, by rw [step, hrun]; rfl, .grow l added size hlt hlen hfresh, ht⟩
    · exact ⟨_, t, none, by rw [step, hrun]; rfl, .growRefused l size hlt href, ht⟩
    · exact ⟨_, t, some _, by rw [step, hrun]; rfl, .shrink l size hle, ht⟩
  | removeLast =>
    obtain ⟨t, hrun, ht⟩ := removeLast_ok h
    exact ⟨.done, t, some _, by rw [step, hrun]; rfl, .removeLast l, ht⟩
  | clear =>
    obtain ⟨t, hrun, ht⟩ := clear_ok h
    exact ⟨.done, t, some _, by rw [step, hrun]; rfl, .clear l, ht⟩
  | finalize =>
    cases libcFinalize_cases (g := g) h with
    | inl hok =>
      obtain ⟨p, n, t, hrun, htidy, hn, hlen, hl⟩ := hok
      refine ⟨.final (some l), init c t, some [], ?_, .finalize l, init_backed htidy⟩
      rw [step, callFinalize, finalize, hrun]
      change ((init c t).load p 0 n.toNat >>= _) = _
      have hcells : (init c t).cellsAt p = t.cellsAt p := by cases p <;> rfl
      rw [load_ok (by rw [hcells, hn]; omega), hcells, hn, List.drop_zero, hl]
      rfl
    | inr href =>
      obtain ⟨t, hrun, ht⟩ := free_ok h.tidy h.valid h.used_le
      refine ⟨.final none, t, some [], ?_, .finalizeRefused l href.2, ht⟩
      rw [step, callFinalize, finalize, href.1]
      change ((free c s >>= _) >>= _) = _
      rw [hrun]
      rfl
  | free =>
    obtain ⟨t, hrun, ht⟩ := free_ok h.tidy h.valid h.used_le
    exact ⟨.done, t, some [], by rw [step, hrun]; rfl, .free _, ht⟩
  | markFailed =>
    obtain ⟨t, hrun, ht⟩ := markFailed_backed h
    exact ⟨.done, t, none, by rw [step, hrun]; rfl, .markFailed _, ht⟩

theorem step_failed (h : Failed c s) (op : Op α) (hop : ∀ size, op ≠ .resize size) :
    ∃ r t b, step c g s op = .ok (r, t) ∧ Allowed c g none op r b ∧ Represents c t b := by
  have hused : s.used.toNat ≤ s.storage.length := by
    rw [h.used_zero]
    exact Nat.zero_le _
  cases op with
  | add item =>
    refine ⟨.done, s, none, ?_, .addFailed item, h⟩
    rw [step, add, if_pos h.hasFailed]
    rfl
  | emplace item =>
    refine ⟨.placed false, s, none, ?_, .emplaceFailed item, h⟩
    rw [step, callEmplace, emplace, if_pos h.hasFailed]
    rfl
  | resize size => exact absurd rfl (hop size)
  | removeLast =>
    refine ⟨.done, s, none, ?_, .removeLastFailed, h⟩
    rw [step, removeLast, h.used]
    rfl
  | clear =>
    obtain ⟨f, hf⟩ := freeElements_ok (c := c) (s := s) (i := 0) (n := s.used.toNat) (by omega)
    refine ⟨.done, { s with used := 0, freed := f }, none, ?_, .clearFailed,
      ⟨h.tidy.scratch, h.tidy.next⟩, h.array, rfl, h.allocated⟩
    rw [step, clear, hf]
    rfl
  | finalize =>
    obtain ⟨t, hrun, ht⟩ := free_ok h.tidy h.valid hused
    refine ⟨.final none, t, some [], ?_, .finalizeFailed, ht⟩
    rw [step, callFinalize, finalize, libcFinalize, if_pos h.allocated, ok_bind]
    dsimp only
    rw [hrun]
    rfl
  | free =>
    obtain ⟨t, hrun, ht⟩ := free_ok h.tidy h.valid hused
    exact ⟨.done, t, some [], by rw [step, hrun]; rfl, .free _, ht⟩
  | markFailed =>
    obtain ⟨t, hrun, ht⟩ := markFailed_ok h.tidy h.valid hused
    exact ⟨.done, t, none, by rw [step, hrun]; rfl, .markFailed _, ht⟩

theorem step_represents (h : Represents c s a) {op : Op α}
    (hop : hasFailed s = true → ∀ size, op ≠ .resize size) :
    ∃ r t b, step c g s op = .ok (r, t) ∧ Allowed c g a op r b ∧ Represents c t b := by
  cases a with
  | some l => exact step_backed h op
  | none => exact step_failed h op (hop (Failed.hasFailed h))

/-! ### A resize of a failed array -/

/-- The error marker is the largest size, so that any size fits. -/
theorem libcResize_failed (h : Failed c s) (size : UInt64) :
    libcResize c g size s = .ok (true, { s with used := size }) := by
  unfold libcResize
  rw [if_pos]
  rw [h.allocated, UInt64.le_iff_toNat_le]
  exact Nat.le_of_lt_succ size.toNat_lt

theorem store_ne_false (x : Except Fault (State α)) :
    (do let s ← x; .ok (true, s)) ≠ .ok (false, t) := by
  cases x <;> nofun

theorem enlarge_failed (h : Failed c s) (size : UInt64) :
    enlarge c g size s ≠ .ok (false, t) := by
  unfold enlarge resizeClear
  rw [libcResize_failed h]
  cases c.elementInit with
  | some a => exact store_ne_false _
  | none =>
    cases c.elementFree with
    | false => nofun
    | true => exact store_ne_false _

theorem resize_failed (h : Failed c s) (size : UInt64) : resize c g size s ≠ .ok (false, t) := by
  unfold resize
  intro hrun
  split_ifs at hrun with hlt
  · obtain ⟨⟨ok, t'⟩, hen, hrest⟩ := CheckedArray.ok_of_bind hrun
    cases ok with
    | true => cases hrest
    | false => exact enlarge_failed h size hen
  · obtain ⟨t', -, hrest⟩ := CheckedArray.ok_of_bind hrun
    cases hrest

/-! ### Runs -/

theorem Conforms.shows {ops : List (Op α × Bool)} (h : Conforms c s a ops) : Shows c s a := by
  cases h with
  | nil h => exact h
  | cons h _ _ _ => exact h

/-- The list requires a `resize` of a failed array to report failure. -/
theorem not_resize_of_allowed {b : Option (List (Option α))} {op : Op α} {r : Outcome α}
    (h : Represents c s a) (hrun : step c g s op = .ok (r, t)) (hallowed : Allowed c g a op r b)
    (hfailed : hasFailed s = true) (size : UInt64) : op ≠ .resize size := by
  rintro rfl
  cases a with
  | some l => exact absurd (hfailed.symm.trans h.shows.1) (by decide)
  | none =>
    cases hallowed with
    | resizeFailed =>
      rw [step] at hrun
      cases hres : resize c g size s with
      | error e =>
        rw [hres] at hrun
        cases hrun
      | ok result =>
        obtain ⟨ok, t'⟩ := result
        rw [hres] at hrun
        cases hrun
        exact resize_failed h size hres

/-- From an object that represents a list on, a run is one of the list exactly
when it resizes no failed array. -/
theorem conforms_iff {ops : List (Op α × Bool)}
    (h : Represents c s a) : Conforms c s a ops ↔ NoFailedResize c s ops := by
  induction ops generalizing s a with
  | nil => exact ⟨fun _ => trivial, fun _ => .nil h.shows⟩
  | cons op ops ih =>
    obtain ⟨op, g⟩ := op
    constructor
    · intro hc
      cases hc with
      | cons hshows hrun hallowed htail =>
        have hop := not_resize_of_allowed h hrun hallowed
        obtain ⟨r, t, b, hrun', -, ht⟩ := step_represents (g := g) h hop
        cases hrun.symm.trans hrun'
        cases htail.shows.unique ht.shows
        refine ⟨hop, ?_⟩
        intro r' t' hrun''
        cases hrun'.symm.trans hrun''
        exact (ih ht).mp htail
    · rintro ⟨hop, htail⟩
      obtain ⟨r, t, b, hrun, hallowed, ht⟩ := step_represents (g := g) h hop
      exact .cons h.shows hrun hallowed ((ih ht).mpr (htail r t hrun))

/-- A dynamic array is a list, whichever allocations fail, exactly in the runs
that resize no array which has failed. -/
theorem dynarray_list (c : Config α) (ops : List (Op α × Bool)) :
    Conforms c (start c) (some []) ops ↔ NoFailedResize c (start c) ops :=
  conforms_iff (start_backed c)

/-- Elements of eight bytes with room for two in the object. -/
def twoWords : Config ℕ :=
  ⟨8, 2, none, false, 0, by decide, by decide⟩

/-- A refused `resize` to five elements fails; the same `resize` then succeeds
without any memory, with five elements in a scratch space of two. -/
theorem dynarray_list_resize_twice :
    ∃ s t, step twoWords false (start twoWords) (.resize 5) = .ok (.resized false, s) ∧
      step twoWords false s (.resize 5) = .ok (.resized true, t) ∧
      t.used = 5 ∧ t.storage.length = 2 ∧
      ¬ Conforms twoWords (start twoWords) (some []) [(.resize 5, false), (.resize 5, false)] := by
  refine ⟨_, _, rfl, rfl, rfl, rfl, ?_⟩
  intro hc
  have hno := (conforms_iff (a := some []) (start_backed twoWords)).mp hc
  exact (hno.2 _ _ rfl).1 rfl 5 rfl

end AwaitGlibc.Dynarray
