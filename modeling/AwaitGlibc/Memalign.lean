import AwaitGlibc.MapSegmentsAligned

/-! Aligned allocation, `_mid_memalign` with `_int_memalign`, in the arithmetic of words. The
allocator under it is a parameter: a chunk it gives for a request is large enough for the padded
request and lies inside the address space, and it refuses more than `PTRDIFF_MAX` bytes. The
operand of the padded request is a sum that only the largest alignment can make wrap. -/
namespace AwaitGlibc.Memalign

open MapSegments (word sub alignDown powerof2 powerof2_pow)

def ptrdiffMax : ℕ := 2 ^ 63 - 1

def sizeSz : ℕ := 8

def chunkHdrSz : ℕ := 16

def mallocAlignment : ℕ := 16

def minsize : ℕ := 32

structure Chunk where
  addr : ℕ
  size : ℕ
  mmapped : Bool
  deriving DecidableEq

def Chunk.mem (c : Chunk) : ℕ := c.addr + chunkHdrSz

/-- The end of the bytes a caller may use. They reach into the next chunk, if there is one. -/
def Chunk.limit (c : Chunk) : ℕ := c.addr + c.size + if c.mmapped then 0 else sizeSz

def request2size (req : ℕ) : ℕ :=
  if word (req + sizeSz + (mallocAlignment - 1)) < minsize then minsize
  else alignDown (word (req + sizeSz + (mallocAlignment - 1))) mallocAlignment

def checkedRequest2size (req : ℕ) : Option ℕ :=
  if req > ptrdiffMax then none else some (request2size req)

/-- The chunk returned, the one it is a part of, and what is given back of that. -/
structure Block where
  obtained : Chunk
  chunk : Chunk
  lead : Option Chunk
  trail : Option Chunk
  deriving DecidableEq

inductive Result
  | null
  | abort
  | block (b : Block)
  deriving DecidableEq

/-! ## `_int_memalign` -/

/-- The first place for a chunk whose memory is aligned, with room for a chunk before it. -/
def brk (p : Chunk) (alignment : ℕ) : ℕ :=
  let b := sub (alignDown (word (p.mem + alignment - 1)) alignment) chunkHdrSz
  if sub b p.addr < minsize then word (b + alignment) else b

/-- An mmapped chunk only has its offset adjusted, another gives back its leader. -/
def splitLead (p : Chunk) (alignment : ℕ) : Chunk × Option Chunk :=
  if p.mem % alignment ≠ 0 then
    let leadsize := sub (brk p alignment) p.addr
    (⟨brk p alignment, sub p.size leadsize, p.mmapped⟩,
      if p.mmapped then none else some ⟨p.addr, leadsize, false⟩)
  else (p, none)

def splitTrail (p : Chunk) (nb : ℕ) : Chunk × Option Chunk :=
  if ¬ p.mmapped ∧ p.size > word (nb + minsize) then
    (⟨p.addr, nb, false⟩, some ⟨word (p.addr + nb), sub p.size nb, false⟩)
  else (p, none)

def intMemalign (intMalloc : ℕ → Option Chunk) (alignment bytes : ℕ) : Result :=
  match checkedRequest2size bytes with
  | none => .null
  | some nb =>
    match intMalloc (word (nb + alignment + minsize)) with
    | none => .null
    | some p =>
      let (newp, lead) := splitLead p alignment
      -- the assertion stands where a leader has been given back
      if lead.isSome ∧ ¬ (newp.size ≥ nb ∧ newp.mem % alignment = 0) then .abort
      else
        let (newp, trail) := splitTrail newp nb
        .block ⟨p, newp, lead, trail⟩

/-! ## `_mid_memalign` -/

/-- What the calls return: `__libc_malloc`, and `_int_malloc` at each attempt in an arena. -/
structure Heap (Arena : Type) where
  singleThread : Bool
  mainArena : Arena
  arenaGet : ℕ → Option Arena
  arenaGetRetry : Arena → ℕ → Option Arena
  libcMalloc : ℕ → Option Chunk
  intMalloc : ℕ → Option Arena → ℕ → Option Chunk

/-- The first power of two from `a` on that is no smaller. -/
def roundPower (alignment : ℕ) : ℕ → ℕ → ℕ
  | 0, a => a
  | fuel + 1, a => if a < alignment then roundPower alignment fuel (word (a * 2)) else a

variable {Arena : Type}

def midMemalign (h : Heap Arena) (alignment bytes : ℕ) : Result :=
  if alignment ≤ mallocAlignment then
    match h.libcMalloc bytes with
    | none => .null
    | some c => .block ⟨c, c, none, none⟩
  else
    let alignment := if alignment < minsize then minsize else alignment
    if alignment > (2 ^ 64 - 1) / 2 + 1 then .null
    else
      let alignment :=
        if powerof2 alignment then alignment else roundPower alignment 64 (mallocAlignment * 2)
      if h.singleThread then intMemalign (h.intMalloc 0 (some h.mainArena)) alignment bytes
      else
        let arena := h.arenaGet (word (bytes + alignment + minsize))
        match intMemalign (h.intMalloc 0 arena) alignment bytes, arena with
        | .null, some a => intMemalign (h.intMalloc 1 (h.arenaGetRetry a bytes)) alignment bytes
        | r, _ => r

/-! ## What is asked of it -/

structure Serves (req : ℕ) (c : Chunk) : Prop where
  le : req ≤ ptrdiffMax
  room : request2size req + (if c.mmapped then sizeSz else 0) ≤ c.size
  aligned : mallocAlignment ∣ c.addr
  inside : c.addr + c.size + sizeSz ≤ 2 ^ 64

structure Heap.Sound (h : Heap Arena) : Prop where
  libcMalloc : ∀ req c, h.libcMalloc req = some c → Serves req c
  intMalloc : ∀ i a req c, h.intMalloc i a req = some c → Serves req c

structure Block.Holds (b : Block) (alignment bytes : ℕ) : Prop where
  aligned : alignment ∣ b.chunk.mem
  start : b.obtained.addr ≤ b.chunk.addr
  bytes : b.chunk.mem + bytes ≤ b.chunk.limit
  limit : b.chunk.limit ≤ b.obtained.limit
  lead : ∀ l ∈ b.lead, minsize ≤ l.size ∧ l.addr = b.obtained.addr ∧ l.addr + l.size = b.chunk.addr

def Result.Good (alignment bytes : ℕ) : Result → Prop
  | .null => True
  | .abort => False
  | .block b => b.Holds alignment bytes

/-- The bytes asked for to have room for an aligned chunk. -/
def padded (alignment bytes : ℕ) : ℕ := request2size bytes + alignment + minsize

/-- The padded request is served in full, a block returned is as asked for, and there is none
where the heap has no chunk for it. -/
structure Heap.Meets (h : Heap Arena) (alignment bytes : ℕ) : Prop where
  whole : bytes ≤ ptrdiffMax → ∀ i a c,
    h.intMalloc i a (word (padded (max alignment minsize) bytes)) = some c →
      padded (max alignment minsize) bytes ≤ c.size
  good : (midMemalign h alignment bytes).Good alignment bytes
  null : ptrdiffMax < bytes ∨ (∀ req c, h.libcMalloc req = some c → c.size < request2size bytes) ∧
      (∀ i a req c, h.intMalloc i a req = some c → c.size < padded (max alignment minsize) bytes) →
    midMemalign h alignment bytes = .null

/-! ## The sum does not wrap -/

section
variable {alignment bytes nb req : ℕ} {p : Chunk} {h : Heap Arena}

theorem word_eq {x : ℕ} (h : x < 2 ^ 64) : word x = x := Nat.mod_eq_of_lt h

theorem sub_eq {x y : ℕ} (h : y ≤ x) (hx : x < 2 ^ 64) : sub x y = x - y := by
  simp only [sub, word]
  omega

theorem request2size_spec (h : req ≤ ptrdiffMax) :
    max 32 (req + 8) ≤ request2size req ∧ request2size req ≤ max 32 (req + 23) ∧
      16 ∣ request2size req := by
  rw [ptrdiffMax] at h
  have hword : word (req + sizeSz + (mallocAlignment - 1)) = req + 23 :=
    word_eq (show req + 23 < _ by omega)
  simp only [request2size, hword]
  split_ifs with hlt <;> simp only [alignDown, minsize, mallocAlignment] at * <;> omega

/-- A chunk with room for `nb` bytes wherever the aligned chunk starts in it. -/
structure Roomy (p : Chunk) (alignment nb : ℕ) : Prop where
  room : nb + alignment + 40 + (if p.mmapped then 8 else 0) ≤ p.size
  aligned : 16 ∣ p.addr
  inside : p.addr + p.size + 8 ≤ 2 ^ 64

theorem Serves.roomy (h : Serves (word (padded alignment bytes)) p)
    (hlt : padded alignment bytes < 2 ^ 64) : Roomy p alignment (request2size bytes) := by
  rw [word_eq hlt] at h
  have := (request2size_spec h.le).1
  have := h.room
  refine ⟨?_, h.aligned, h.inside⟩
  simp only [padded, minsize, sizeSz] at *
  omega

theorem brk_spec (h : Roomy p alignment nb) (hal : 16 ∣ alignment) (hmin : 32 ≤ alignment)
    (hm : p.mem % alignment ≠ 0) :
    alignment ∣ brk p alignment + 16 ∧ p.addr + 32 ≤ brk p alignment ∧
      brk p alignment ≤ p.addr + alignment + 16 := by
  have := h.room
  have := h.inside
  have hmem : p.mem = p.addr + 16 := rfl
  have hdvd : 16 ∣ p.mem % alignment :=
    (Nat.dvd_mod_iff hal).mpr ((Nat.dvd_add_left (dvd_refl 16)).mpr h.aligned)
  have hlt : p.mem % alignment < alignment := Nat.mod_lt _ (by omega)
  obtain ⟨q, hq⟩ : alignment ∣ p.mem - p.mem % alignment + alignment :=
    (Nat.dvd_sub_mod _).add (dvd_refl _)
  have hle := Nat.mod_le p.mem alignment
  generalize p.mem % alignment = r at *
  have hup : alignDown (word (p.mem + alignment - 1)) alignment = alignment * q := by
    have hsum : p.mem + alignment - 1 = alignment * q + (r - 1) := by omega
    rw [word_eq (by omega), alignDown, hsum, Nat.mul_add_mod, Nat.mod_eq_of_lt (by omega),
      Nat.add_sub_cancel]
  have hdvd : alignment ∣ alignment * q := dvd_mul_right _ _
  have hback : sub (alignment * q) 16 = alignment * q - 16 := sub_eq (by omega) (by omega)
  simp only [brk, hup, chunkHdrSz, minsize, hback]
  rw [sub_eq (by omega) (by omega)]
  split_ifs
  · rw [word_eq (by omega), show alignment * q - 16 + alignment + 16 = alignment * q + alignment by
      omega]
    exact ⟨Nat.dvd_add_self_right.mpr hdvd, by omega, by omega⟩
  · rw [Nat.sub_add_cancel (by omega)]
    exact ⟨hdvd, by omega, by omega⟩

/-- The leader is a chunk of its own, and the rest has more than the room asked for. -/
theorem splitLead_spec (h : Roomy p alignment nb) (hal : 16 ∣ alignment) (hmin : 32 ≤ alignment) :
    ∃ c lead, splitLead p alignment = (c, lead) ∧ alignment ∣ c.mem ∧
      p.addr ≤ c.addr ∧ nb + 24 ≤ c.size ∧ c.addr + c.size = p.addr + p.size ∧
      c.mmapped = p.mmapped ∧
      ∀ l ∈ lead, minsize ≤ l.size ∧ l.addr = p.addr ∧ l.addr + l.size = c.addr := by
  have := h.room
  have := h.inside
  by_cases hm : p.mem % alignment = 0
  · exact ⟨p, none, if_neg (not_not.mpr hm), Nat.dvd_of_mod_eq_zero hm, le_refl _, by omega,
      rfl, rfl, nofun⟩
  · obtain ⟨hdvd, hlo, hhi⟩ := brk_spec h hal hmin hm
    refine ⟨_, _, if_pos hm, hdvd, ?_⟩
    have hle : p.addr ≤ brk p alignment := by omega
    simp only [sub_eq hle (by omega)]
    rw [sub_eq (by omega) (by omega)]
    refine ⟨hle, by omega, by omega, trivial, fun l hl => ?_⟩
    split_ifs at hl <;> cases hl
    exact ⟨(Nat.le_sub_iff_add_le' hle).mpr hlo, rfl, Nat.add_sub_cancel' hle⟩

theorem intMemalign_null {intMalloc : ℕ → Option Chunk}
    (h : bytes ≤ ptrdiffMax → intMalloc (word (padded alignment bytes)) = none) :
    intMemalign intMalloc alignment bytes = .null := by
  rw [padded] at h
  rw [intMemalign, checkedRequest2size]
  split_ifs with hle
  · rfl
  · simp only [h (not_lt.mp hle)]

/-- In a heap whose chunks have the room asked for, an aligned block is cut out of one. -/
theorem intMemalign_good {intMalloc : ℕ → Option Chunk}
    (h : bytes ≤ ptrdiffMax → ∀ p, intMalloc (word (padded alignment bytes)) = some p →
      Roomy p alignment (request2size bytes))
    (hal : 16 ∣ alignment) (hmin : 32 ≤ alignment) :
    (intMemalign intMalloc alignment bytes).Good alignment bytes := by
  by_cases hle : bytes ≤ ptrdiffMax
  · cases hp : intMalloc (word (padded alignment bytes)) with
    | none => rw [intMemalign_null fun _ => hp]; trivial
    | some p =>
      have hreq := request2size_spec hle
      obtain ⟨c, lead, hsplit, hdvd, hstart, hsize, hend, hmap, hlead⟩ :=
        splitLead_spec (h hle p hp) hal hmin
      rw [padded] at hp
      simp only [intMemalign, checkedRequest2size, if_neg (not_lt.mpr hle), hp, hsplit]
      rw [if_neg fun hn => hn.2 ⟨by omega, Nat.mod_eq_zero_of_dvd hdvd⟩, splitTrail]
      split_ifs with htrail
      · refine ⟨hdvd, hstart, ?_, ?_, hlead⟩ <;>
          simp only [Chunk.mem, Chunk.limit, ← hmap, htrail.1, Bool.false_eq_true, if_false, sizeSz,
            chunkHdrSz] <;> omega
      · refine ⟨hdvd, hstart, ?_, ?_, hlead⟩ <;>
          simp only [Chunk.mem, Chunk.limit, hmap, chunkHdrSz] <;> omega
  · rw [intMemalign_null fun h => absurd h hle]
    trivial

/-- The sum wraps for the largest alignment only, and there for requests near the largest. -/
theorem padded_lt_iff {k : ℕ} (hk : k < 64) (hle : bytes ≤ ptrdiffMax) :
    padded (2 ^ max k 5) bytes < 2 ^ 64 ↔ ¬ (k = 63 ∧ 2 ^ 63 - 55 ≤ bytes) := by
  have := request2size_spec hle
  rw [ptrdiffMax] at hle
  simp only [padded, minsize]
  obtain rfl | hne := eq_or_ne k 63
  · rw [max_eq_left (by decide)]
    omega
  · have : 2 ^ max k 5 ≤ 2 ^ 62 := Nat.pow_le_pow_right two_pos (by omega)
    omega

theorem max_minsize (k : ℕ) : max (2 ^ k) minsize = 2 ^ max k 5 := by
  have hmono : Monotone (2 ^ · : ℕ → ℕ) := fun _ _ => Nat.pow_le_pow_right two_pos
  exact (hmono.map_max (a := k) (b := 5)).symm

theorem midMemalign_cases {k : ℕ} (hk : k < 64) {P : Result → Prop} (hnull : P .null)
    (hsmall : ∀ c, h.libcMalloc bytes = some c → 2 ^ k ∣ mallocAlignment →
      P (.block ⟨c, c, none, none⟩))
    (hlarge : ∀ i a, P (intMemalign (h.intMalloc i a) (2 ^ max k 5) bytes)) :
    P (midMemalign h (2 ^ k) bytes) := by
  rw [midMemalign]
  by_cases hle : 2 ^ k ≤ mallocAlignment
  · rw [if_pos hle]
    cases hc : h.libcMalloc bytes with
    | none => exact hnull
    | some c =>
      exact hsmall c hc (Nat.pow_dvd_pow 2 ((Nat.pow_le_pow_iff_right (m := 4) one_lt_two).mp hle))
  · have hraise : (if 2 ^ k < minsize then minsize else 2 ^ k) = 2 ^ max k 5 := by
      rw [← max_minsize]
      split_ifs <;> omega
    have hacc : ¬ 2 ^ max k 5 > (2 ^ 64 - 1) / 2 + 1 :=
      not_lt.mpr (Nat.pow_le_pow_right (j := 63) two_pos (by omega))
    simp only [if_neg hle, hraise, if_neg hacc, powerof2_pow, if_true]
    split_ifs
    · exact hlarge _ _
    · split
      · exact hlarge _ _
      · exact hlarge _ _

theorem meets_of_padded_lt {k : ℕ} (hk : k < 64) (hs : h.Sound)
    (hlt : bytes ≤ ptrdiffMax → padded (2 ^ max k 5) bytes < 2 ^ 64) : h.Meets (2 ^ k) bytes := by
  have hroom (hle : bytes ≤ ptrdiffMax) (i a c)
      (hc : h.intMalloc i a (word (padded (2 ^ max k 5) bytes)) = some c) :
      Roomy c (2 ^ max k 5) (request2size bytes) :=
    (hs.intMalloc _ _ _ _ hc).roomy (hlt hle)
  have hwhole (hle : bytes ≤ ptrdiffMax) (i a c)
      (hc : h.intMalloc i a (word (padded (2 ^ max k 5) bytes)) = some c) :
      padded (2 ^ max k 5) bytes ≤ c.size := by
    have := (hroom hle i a c hc).room
    simp only [padded, minsize]
    omega
  refine ⟨max_minsize k ▸ hwhole, ?_, fun hcan => ?_⟩
  · refine midMemalign_cases hk trivial (fun c hc hdvd => ?_) fun i a => ?_
    · obtain ⟨hle, hroom, haddr, hin⟩ := hs.libcMalloc _ _ hc
      have := request2size_spec hle
      refine ⟨hdvd.trans (haddr.add (dvd_refl 16)), le_refl _, ?_, le_refl _, nofun⟩
      simp only [Chunk.mem, Chunk.limit, chunkHdrSz, sizeSz] at *
      split_ifs at * <;> omega
    · have hgood := intMemalign_good (fun hle p => hroom hle i a p)
        (Nat.pow_dvd_pow 2 (le_max_of_le_right (by decide : 4 ≤ 5)))
        (Nat.pow_le_pow_right two_pos (le_max_right k 5))
      generalize intMemalign (h.intMalloc i a) (2 ^ max k 5) bytes = r at hgood
      cases r with
      | null => trivial
      | abort => exact hgood
      | block b => exact { hgood with
          aligned := (Nat.pow_dvd_pow 2 (le_max_left k 5)).trans hgood.aligned }
  · rw [max_minsize] at hcan
    refine midMemalign_cases (P := (· = .null)) hk rfl (fun c hc _ => ?_) fun i a =>
      intMemalign_null fun hle => ?_
    · obtain ⟨hle, hroom, -, -⟩ := hs.libcMalloc _ _ hc
      have := (hcan.resolve_left (not_lt.mpr hle)).1 _ _ hc
      omega
    · cases hc : h.intMalloc i a (word (padded (2 ^ max k 5) bytes)) with
      | none => rfl
      | some c =>
        have := (hcan.resolve_left (not_lt.mpr hle)).2 _ _ _ _ hc
        exact absurd (hwhole hle i a c hc) (not_le.mpr this)

end

def exactHeap : Heap Unit where
  singleThread := true
  mainArena := ()
  arenaGet _ := some ()
  arenaGetRetry _ _ := none
  libcMalloc req := if req ≤ 2 ^ 48 then some ⟨2 ^ 20, request2size req, false⟩ else none
  intMalloc _ _ req := if req ≤ 2 ^ 48 then some ⟨2 ^ 20, request2size req, false⟩ else none

theorem exactHeap_sound : exactHeap.Sound := by
  have hserves (req : ℕ) (c : Chunk)
      (h : (if req ≤ 2 ^ 48 then some ⟨2 ^ 20, request2size req, false⟩ else none) = some c) :
      Serves req c := by
    split_ifs at h with hle
    cases h
    have hreq : req ≤ ptrdiffMax := hle.trans (by decide)
    have := request2size_spec hreq
    exact ⟨hreq, le_refl _, (by decide : 16 ∣ 2 ^ 20), show 2 ^ 20 + request2size req + 8 ≤ _ by omega⟩
  exact ⟨hserves, fun _ _ => hserves⟩

/-- An aligned block is what was asked for in every heap, unless the alignment is the largest
power of two and the request is within 55 bytes of it: the padded request then wraps. -/
theorem memalign_meets_iff {k bytes : ℕ} (hk : k < 64) :
    (∀ (Arena : Type) (h : Heap Arena), h.Sound → h.Meets (2 ^ k) bytes) ↔
      ¬ (k = 63 ∧ 2 ^ 63 - 55 ≤ bytes ∧ bytes < 2 ^ 63) := by
  constructor
  · rintro h ⟨rfl, hlo, hhi⟩
    have hle : bytes ≤ ptrdiffMax := Nat.le_sub_one_of_lt hhi
    have hwhole := (h Unit exactHeap exactHeap_sound).whole hle 0 none
    have := request2size_spec hle
    rw [max_minsize] at hwhole
    have hpad : padded (2 ^ max 63 5) bytes = request2size bytes + 2 ^ 63 + 32 := by
      rw [padded, max_eq_left (by decide), minsize]
    have hsmall : word (padded (2 ^ max 63 5) bytes) ≤ 48 := by
      rw [hpad, word]
      omega
    generalize word (padded (2 ^ max 63 5) bytes) = req at *
    have := request2size_spec (hsmall.trans (by decide : 48 ≤ ptrdiffMax))
    have := hwhole _ (if_pos (show req ≤ 2 ^ 48 by omega))
    simp only [hpad] at this
    omega
  · intro hn Arena h hs
    refine meets_of_padded_lt hk hs fun hle => (padded_lt_iff hk hle).mpr fun hwrap => ?_
    exact hn ⟨hwrap.1, hwrap.2, Nat.lt_of_le_sub_one (by decide) hle⟩

theorem memalign_meets_page : exactHeap.Meets (2 ^ 12) 100 :=
  (memalign_meets_iff (by decide)).mpr (by decide) Unit exactHeap exactHeap_sound

/-- A chunk of 64 bytes is taken for a request of nearly `2 ^ 63`, and the aligned chunk starts
far behind it. -/
theorem memalign_wraps : exactHeap.Sound ∧ ¬ exactHeap.Meets (2 ^ 63) (2 ^ 63 - 1) := by
  refine ⟨exactHeap_sound, fun h => ?_⟩
  have hgood := h.good
  exact absurd hgood.limit (by decide)

end AwaitGlibc.Memalign
