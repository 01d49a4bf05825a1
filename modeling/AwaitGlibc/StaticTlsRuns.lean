import Mathlib
import AwaitGlibc.StaticTlsLayout

/-! Runs over the static TLS area: the layout of the start-up, then any sequence
of loads, late allocations and unloads. The interesting part is the unload
loop, which remembers one chunk of freed blocks. Its start uses the value
`NO_TLS_OFFSET`, zero, for "no chunk", although a chunk that reaches the thread
pointer starts at zero too; the invariant of the loop therefore has a third
state next to "nothing remembered" and "a chunk is remembered". -/
namespace AwaitGlibc.StaticTls
open SizeT

variable {α : Type} [DecidableEq α] {tls : α → Segment} {p : Parameters}

/-! ### Late allocation -/

/-- A late block takes at least its size and, with its first byte offset, a
whole number of alignments less than what is free. -/
theorem lateUse_spec {m : Segment} {freebytes : UInt64}
    (hsum : m.blocksize.toNat + m.firstbyteOffset.toNat < 2 ^ 63)
    (hfits : ¬ freebytes < m.blocksize + m.firstbyteOffset) :
    m.blocksize.toNat ≤ (lateUse m freebytes).toNat ∧
    ∃ n, (lateUse m freebytes).toNat + m.firstbyteOffset.toNat + n * m.align.toNat
      = freebytes.toNat := by
  have hblsize : (m.blocksize + m.firstbyteOffset).toNat
      = m.blocksize.toNat + m.firstbyteOffset.toNat := toNat_add_of_lt (by omega)
  rw [UInt64.lt_iff_toNat_lt, hblsize, not_lt] at hfits
  generalize hn : (freebytes - (m.blocksize + m.firstbyteOffset)) / m.align = n
  have hle : n.toNat * m.align.toNat
      ≤ freebytes.toNat - (m.blocksize.toNat + m.firstbyteOffset.toNat) := by
    rw [← hn, UInt64.toNat_div, toNat_sub_of_le (hblsize ▸ hfits), hblsize]
    exact Nat.div_mul_le_self _ _
  have hmul : (n * m.align).toNat = n.toNat * m.align.toNat :=
    toNat_mul_of_lt (by have := freebytes.toNat_lt; omega)
  have huse : (lateUse m freebytes).toNat
      = freebytes.toNat - n.toNat * m.align.toNat - m.firstbyteOffset.toNat := by
    rw [lateUse, hn, toNat_sub_of_le, toNat_sub_of_le, hmul] <;>
      (try rw [toNat_sub_of_le]) <;> omega
  exact ⟨by omega, n.toNat, by omega⟩

/-- What a successful call does: the object gets an offset at the new end of the
used part, with its whole block above the old end. -/
structure Allocated (tls : α → Segment) (p : Parameters) (s : State α) (x : α)
    (s' : State α) (off : UInt64) : Prop where
  offset : s'.offset = Function.update s.offset x off
  used : s'.staticUsed = off
  size : s'.staticSize = s.staticSize
  align : s'.staticAlign = s.staticAlign
  live : s'.live = s.live
  above : s.staticUsed.toNat + (tls x).blocksize.toNat ≤ off.toNat
  inside : off.toNat ≤ area p s
  align_le : (tls x).align.toNat ≤ s.staticAlign.toNat
  dvd : (tls x).align.toNat ∣ off.toNat + (tls x).firstbyteOffset.toNat

theorem tryAllocateStaticTls_spec {s s' : State α} {x : α} {optional : Bool}
    (h : Laid tls p s)
    (hsum : (tls x).blocksize.toNat + (tls x).firstbyteOffset.toNat < 2 ^ 63)
    (hrun : tryAllocateStaticTls tls p s x optional = some s') :
    ∃ off, Allocated tls p s x s' off := by
  simp only [tryAllocateStaticTls, Option.ite_none_left_eq_some] at hrun
  obtain ⟨hstatic, -, hfits, -, hs'⟩ := hrun
  rw [not_or, UInt64.lt_iff_toNat_lt, not_lt] at hstatic
  obtain ⟨hge, n, hn⟩ := lateUse_spec hsum hfits
  have htcb := h.tcb_le
  have hused := h.used_le
  rw [area] at hused
  have hfree : (s.staticSize - s.staticUsed - p.tcbSize).toNat + s.staticUsed.toNat
      = area p s := by
    rw [area, toNat_sub_of_le, toNat_sub_of_le] <;> (try rw [toNat_sub_of_le]) <;> omega
  generalize lateUse (tls x) (s.staticSize - s.staticUsed - p.tcbSize) = use at hge hn hs'
  have hoff : (s.staticUsed + use).toNat = s.staticUsed.toNat + use.toNat :=
    toNat_add_of_lt (by have := s.staticSize.toNat_lt; rw [area] at hfree; omega)
  refine ⟨s.staticUsed + use, ?_⟩
  cases hs'
  constructor
  case above => omega
  case inside => omega
  case align_le => exact hstatic.2
  case dvd =>
    have hdvd : (tls x).align.toNat ∣ area p s :=
      ((tls x).align_pow.dvd_of_le h.align_pow hstatic.2).trans h.align_dvd
    have hback : (s.staticUsed + use).toNat + (tls x).firstbyteOffset.toNat
        = area p s - n * (tls x).align.toNat := by omega
    rw [hback]
    exact Nat.dvd_sub hdvd (Nat.dvd_mul_left _ _)
  all_goals rfl

/-- The block of a late object is apart from all blocks of the used part. -/
theorem Laid.allocate {s s' : State α} {x : α} {off : UInt64} (h : Laid tls p s)
    (ha : Allocated tls p s x s' off) : Laid tls p s' := by
  have hmono : s.staticUsed.toNat ≤ s'.staticUsed.toNat := by
    rw [ha.used]
    exact (Nat.le_add_right _ _).trans ha.above
  have hother : ∀ {y}, y ≠ x → s'.offset y = s.offset y := fun hne => by
    rw [ha.offset, Function.update_of_ne hne]
  have hself : s'.offset x = off := by rw [ha.offset, Function.update_self]
  have hstatic : ∀ {y}, y ≠ x → HasStatic s' y → HasStatic s y := fun hne hy => by
    rwa [HasStatic, hother hne] at hy
  have hnew : ∀ y ∈ s.live, y ≠ x → HasStatic s' y →
      (blockAt tls s'.offset x).Apart (blockAt tls s'.offset y) := by
    intro y hy hne hs
    have hle := (h.fitted y hy (hstatic hne hs)).le_used
    have habove := ha.above
    right
    simp only [blockAt, hself, hother hne]
    omega
  constructor
  case align_pow => exact ha.align ▸ h.align_pow
  case tcb_le => exact ha.size ▸ h.tcb_le
  case align_dvd => rw [area, ha.align, ha.size]; exact h.align_dvd
  case used_le => rw [area, ha.used, ha.size]; exact ha.inside
  case fitted =>
    intro y hy hs
    by_cases hne : y = x
    · rw [hne, hself, ha.used, ha.align]
      exact ⟨(Nat.le_add_left _ _).trans ha.above, le_rfl, ha.align_le, ha.dvd⟩
    · rw [hother hne, ha.align]
      exact (h.fitted y (ha.live ▸ hy) (hstatic hne hs)).mono hmono le_rfl
  case apart =>
    intro y hy z hz hsy hsz hyz
    rw [ha.live] at hy hz
    by_cases hyx : y = x
    · exact hyx ▸ hnew z hz (fun hzx => hyz (hyx.trans hzx.symm)) hsz
    by_cases hzx : z = x
    · exact hzx ▸ (hnew y hy hyx hsy).symm
    · simp only [blockAt, hother hyx, hother hzx]
      exact h.apart y hy z hz (hstatic hyx hsy) (hstatic hzx hsz) hyz

/-! ### The chunk that the unload loop remembers -/

section Chunk
variable {β : Type} {block : β → Block} {left : β → Prop} {start stop : ℕ} {x : β}

/-- The blocks are not empty, reach up to the thread pointer at most and are
apart from each other. -/
structure Separate (block : β → Block) (left : β → Prop) : Prop where
  pos : ∀ x, left x → 0 < (block x).size
  size_le : ∀ x, left x → (block x).size ≤ (block x).top
  apart : ∀ x y, left x → left y → x ≠ y → (block x).Apart (block y)

/-- What `tls_free_start` and `tls_free_end` say about the blocks that are not
freed. In the last state the chunk reached the thread pointer, was taken for
"no chunk" and its start was overwritten by that of a block further away: all
blocks left lie beyond the end, and none lies across the start. -/
inductive Chunk (block : β → Block) (left : β → Prop) (start stop : ℕ) : Prop
  | idle (hstart : start = 0) (hstop : stop = 0)
  | kept (hlt : start < stop)
      (hout : ∀ x, left x → (block x).top ≤ start ∨ stop + (block x).size ≤ (block x).top)
  | crossed (hpos : 0 < stop) (hle : stop ≤ start)
      (hout : ∀ x, left x → stop + (block x).size ≤ (block x).top ∧
        ((block x).top ≤ start ∨ start + (block x).size < (block x).top))

theorem Chunk.mono {left' : β → Prop} (h : Chunk block left start stop)
    (hsub : ∀ x, left' x → left x) : Chunk block left' start stop := by
  cases h with
  | idle hstart hstop => exact .idle hstart hstop
  | kept hlt hout => exact .kept hlt fun x hx => hout x (hsub x hx)
  | crossed hpos hle hout => exact .crossed hpos hle fun x hx => hout x (hsub x hx)

theorem Separate.chunk (hsep : Separate block left) (hx : left x) :
    Chunk block (fun y => left y ∧ y ≠ x) ((block x).top - (block x).size) (block x).top := by
  have hpos := hsep.pos x hx
  have hle := hsep.size_le x hx
  apply Chunk.kept (by omega)
  intro y hy
  have happart := hsep.apart x y hx hy.1 hy.2.symm
  simp only [Block.Apart] at happart
  omega

section
variable (h : Chunk block left start stop) (hsep : Separate block left)
include h hsep

/-- The first branch of the loop: no chunk yet, or the block ends where the chunk
starts. -/
theorem Chunk.extend (hx : left x) (hat : start = 0 ∨ (block x).top = start) :
    Chunk block (fun y => left y ∧ y ≠ x) ((block x).top - (block x).size)
      (if stop = 0 then (block x).top else stop) := by
  have hpos := hsep.pos x hx
  have hsize := hsep.size_le x hx
  cases h with
  | idle _ hstop =>
    rw [if_pos hstop]
    exact hsep.chunk hx
  | kept hlt hout =>
    rw [if_neg (by omega)]
    have hx' := hout x hx
    cases hat with
    | inl hzero =>
      apply Chunk.crossed (by omega) (by omega)
      intro y hy
      have happart := hsep.apart x y hx hy.1 hy.2.symm
      have hy' := hout y hy.1
      have hypos := hsep.pos y hy.1
      have hysize := hsep.size_le y hy.1
      simp only [Block.Apart] at happart
      omega
    | inr hat =>
      apply Chunk.kept (by omega)
      intro y hy
      have happart := hsep.apart x y hx hy.1 hy.2.symm
      have hy' := hout y hy.1
      have hypos := hsep.pos y hy.1
      simp only [Block.Apart] at happart
      omega
  | crossed hstop hle hout =>
    rw [if_neg (by omega)]
    have hx' := hout x hx
    apply Chunk.crossed (by omega) (by omega)
    intro y hy
    have happart := hsep.apart x y hx hy.1 hy.2.symm
    have hy' := hout y hy.1
    simp only [Block.Apart] at happart
    omega

/-- The second branch: the block starts where the chunk ends. -/
theorem Chunk.extendBack
    (hx : left x) (hstart : start ≠ 0) (hat : (block x).top - (block x).size = stop) :
    Chunk block (fun y => left y ∧ y ≠ x) start (block x).top := by
  have hapart : ∀ y, left y ∧ y ≠ x → stop + (block y).size ≤ (block y).top →
      (block x).top + (block y).size ≤ (block y).top := by
    intro y hy hbeyond
    have happart := hsep.apart x y hx hy.1 hy.2.symm
    have hypos := hsep.pos y hy.1
    simp only [Block.Apart] at happart
    omega
  cases h with
  | idle hzero _ => exact absurd hzero hstart
  | kept hlt hout =>
    apply Chunk.kept (by omega)
    intro y hy
    exact (hout y hy.1).imp_right (hapart y hy)
  | crossed hstop hle hout =>
    have hx' := hout x hx
    apply Chunk.crossed (by omega) (by omega)
    intro y hy
    exact ⟨hapart y hy (hout y hy.1).1, (hout y hy.1).2⟩

/-- When the chunk ends at the end of the used part, the used part can end at
its start. -/
theorem Chunk.release (hused : ∀ x, left x → (block x).top ≤ stop) :
    ∀ x, left x → (block x).top ≤ start := by
  intro x hx
  have hpos := hsep.pos x hx
  have hle := hused x hx
  cases h with
  | idle hstart hstop => omega
  | kept hlt hout =>
    have := hout x hx
    omega
  | crossed hstop hle hout =>
    omega

end

end Chunk

/-! ### The unload loop -/

/-- The invariant of the unload loop, with the blocks `left` that are not freed. -/
structure Reclaiming (tls : α → Segment) (s : State α) (bound : ℕ) (left : α → Prop)
    (c : Reclaim) : Prop where
  used_le : c.used.toNat ≤ bound
  start_le : c.freeStart.toNat ≤ bound
  le_used : ∀ x, left x → (s.offset x).toNat ≤ c.used.toNat
  chunk : Chunk (blockAt tls s.offset) left c.freeStart.toNat c.freeEnd.toNat

section Reclaim
variable {s : State α} {bound : ℕ} {left : α → Prop} {c : Reclaim} {x : α}

omit [DecidableEq α] in
theorem Reclaiming.mono {left' : α → Prop} (h : Reclaiming tls s bound left c)
    (hsub : ∀ x, left' x → left x) : Reclaiming tls s bound left' c :=
  ⟨h.used_le, h.start_le, fun x hx => h.le_used x (hsub x hx), h.chunk.mono hsub⟩

theorem Separate.mono {β : Type} {block : β → Block} {left left' : β → Prop}
    (h : Separate block left) (hsub : ∀ x, left' x → left x) : Separate block left' :=
  ⟨fun x hx => h.pos x (hsub x hx), fun x hx => h.size_le x (hsub x hx),
    fun x y hx hy => h.apart x y (hsub x hx) (hsub y hy)⟩

omit [DecidableEq α] in
/-- Each branch of the loop keeps the invariant for the blocks that are left. -/
theorem Reclaiming.block (h : Reclaiming tls s bound left c)
    (hsep : Separate (blockAt tls s.offset) left) (hx : left x) :
    Reclaiming tls s bound (fun y => left y ∧ y ≠ x)
      (reclaimBlock c (s.offset x) (tls x).blocksize) := by
  have hused := h.used_le
  have hxused := h.le_used x hx
  have hsize : (tls x).blocksize.toNat ≤ (s.offset x).toNat := hsep.size_le x hx
  have hsub : (s.offset x - (tls x).blocksize).toNat
      = (s.offset x).toNat - (tls x).blocksize.toNat := toNat_sub_of_le hsize
  have hle : (s.offset x - (tls x).blocksize).toNat ≤ bound := by omega
  have hchunk := h.chunk.mono fun y (hy : left y ∧ y ≠ x) => hy.1
  have hfresh := hsep.chunk hx
  rw [← show (s.offset x - (tls x).blocksize).toNat
    = (blockAt tls s.offset x).top - (blockAt tls s.offset x).size from hsub] at hfresh
  have hbelow : ∀ y, left y ∧ y ≠ x → (s.offset y).toNat ≤ c.used.toNat :=
    fun y hy => h.le_used y hy.1
  unfold reclaimBlock
  by_cases hfirst : c.freeStart = noTlsOffset ∨ s.offset x = c.freeStart
  · rw [if_pos hfirst]
    have hextend := h.chunk.extend hsep hx
      (hfirst.imp (congrArg UInt64.toNat) (congrArg UInt64.toNat))
    have hstop : (if c.freeEnd.toNat = 0 then (s.offset x).toNat else c.freeEnd.toNat)
        = (if c.freeEnd = noTlsOffset then s.offset x else c.freeEnd).toNat := by
      rw [apply_ite UInt64.toNat]
      exact ite_congr (propext (UInt64.toNat_inj (b := noTlsOffset))) (fun _ => rfl) fun _ => rfl
    exact ⟨hused, hle, hbelow, hsub ▸ hstop ▸ hextend⟩
  rw [if_neg hfirst]
  rw [not_or] at hfirst
  by_cases hback : s.offset x - (tls x).blocksize = c.freeEnd
  · rw [if_pos hback]
    refine ⟨hused, h.start_le, hbelow, h.chunk.extendBack hsep hx ?_ ?_⟩
    · exact fun he => hfirst.1 (UInt64.toNat_inj.mp he)
    · exact hsub ▸ congrArg UInt64.toNat hback
  rw [if_neg hback]
  by_cases hend : c.freeEnd = c.used
  · rw [if_pos hend]
    have hrelease := h.chunk.release hsep fun y hy => hend ▸ h.le_used y hy
    exact ⟨h.start_le, hle, fun y hy => hrelease y hy.1, hfresh⟩
  rw [if_neg hend]
  by_cases hlast : s.offset x = c.used
  · rw [if_pos hlast]
    refine ⟨hle, h.start_le, fun y hy => ?_, hchunk⟩
    have happart := hsep.apart x y hx hy.1 hy.2.symm
    have hpos := hsep.pos y hy.1
    have hyused := h.le_used y hy.1
    rw [← hlast] at hyused
    simp only [Block.Apart, blockAt] at happart hpos
    change (s.offset y).toNat ≤ (s.offset x - (tls x).blocksize).toNat
    omega
  rw [if_neg hlast]
  by_cases hlater : c.freeEnd < s.offset x
  · rw [if_pos hlater]
    exact ⟨hused, hle, hbelow, hfresh⟩
  · rw [if_neg hlater]
    exact ⟨hused, h.start_le, hbelow, hchunk⟩

omit [DecidableEq α] in
theorem Reclaiming.object (h : Reclaiming tls s bound left c)
    (hsep : Separate (blockAt tls s.offset) left) (hx : HasStatic s x → left x) :
    Reclaiming tls s bound (fun y => left y ∧ y ≠ x) (reclaimObject tls s c x) := by
  have hmark : Reclaiming tls s bound left { c with anyTls := true } := { h with }
  have hpos : 0 < (tls x).blocksize := UInt64.lt_iff_toNat_lt.mpr (tls x).blocksize_pos
  rw [reclaimObject, if_pos hpos]
  by_cases hstatic : HasStatic s x
  · rw [if_pos hstatic]
    exact hmark.block hsep (hx hstatic)
  · rw [if_neg hstatic]
    exact hmark.mono fun y hy => hy.1

omit [DecidableEq α] in
theorem Reclaiming.objects {closing : List α} (h : Reclaiming tls s bound left c)
    (hsep : Separate (blockAt tls s.offset) left) (hnodup : closing.Nodup)
    (hleft : ∀ x ∈ closing, HasStatic s x → left x) :
    Reclaiming tls s bound (fun y => left y ∧ y ∉ closing)
      (closing.foldl (reclaimObject tls s) c) := by
  induction closing generalizing left c with
  | nil => exact h.mono fun y hy => hy.1
  | cons x rest ih =>
    rw [List.nodup_cons] at hnodup
    have hstep := h.object hsep (hleft x List.mem_cons_self)
    have hrest := ih hstep (hsep.mono fun y hy => hy.1) hnodup.2 ?_
    · apply hrest.mono
      intro y hy
      rw [List.mem_cons, not_or] at hy
      exact ⟨⟨hy.1, hy.2.1⟩, hy.2.2⟩
    · intro y hy hstatic
      exact ⟨hleft y (List.mem_cons_of_mem x hy) hstatic, fun he => hnodup.1 (he ▸ hy)⟩

/-- Unloading any loaded objects in any order keeps the area laid out. -/
theorem Laid.dlclose (h : Laid tls p s) {closing : List α} (hnodup : closing.Nodup)
    (hlive : ∀ x ∈ closing, x ∈ s.live) : Laid tls p (StaticTls.dlclose tls s closing) := by
  have hsep : Separate (blockAt tls s.offset) fun x => x ∈ s.live ∧ HasStatic s x :=
    ⟨fun x _ => (tls x).blocksize_pos, fun x hx => (h.fitted x hx.1 hx.2).size_le,
      fun x y hx hy => h.apart x hx.1 y hy.1 hx.2 hy.2⟩
  have hstart : Reclaiming tls s (area p s) (fun x => x ∈ s.live ∧ HasStatic s x)
      ⟨noTlsOffset, noTlsOffset, s.staticUsed, false⟩ :=
    ⟨h.used_le, Nat.zero_le _, fun x hx => (h.fitted x hx.1 hx.2).le_used, .idle rfl rfl⟩
  have hend := hstart.objects hsep hnodup fun x hx hstatic => ⟨hlive x hx, hstatic⟩
  unfold StaticTls.dlclose
  generalize closing.foldl (reclaimObject tls s) _ = c at hend ⊢
  have hused : (if c.anyTls ∧ c.freeEnd = c.used then c.freeStart else c.used).toNat ≤ area p s ∧
      ∀ x, (x ∈ s.live ∧ HasStatic s x) ∧ x ∉ closing → (s.offset x).toNat ≤
        (if c.anyTls ∧ c.freeEnd = c.used then c.freeStart else c.used).toNat := by
    by_cases hat : c.anyTls ∧ c.freeEnd = c.used
    · rw [if_pos hat]
      refine ⟨hend.start_le, hend.chunk.release (hsep.mono fun x hx => hx.1) ?_⟩
      exact fun x hx => hat.2 ▸ hend.le_used x hx
    · rw [if_neg hat]
      exact ⟨hend.used_le, hend.le_used⟩
  have hmem : ∀ {x}, x ∈ s.live.filter (· ∉ closing) → x ∈ s.live ∧ x ∉ closing := by
    simp
  constructor
  case align_pow => exact h.align_pow
  case tcb_le => exact h.tcb_le
  case align_dvd => exact h.align_dvd
  case used_le => exact hused.1
  case fitted =>
    intro x hx hstatic
    have hfit := h.fitted x (hmem hx).1 hstatic
    exact ⟨hfit.size_le, hused.2 x ⟨⟨(hmem hx).1, hstatic⟩, (hmem hx).2⟩, hfit.align_le, hfit.dvd⟩
  case apart =>
    intro x hx y hy
    exact h.apart x (hmem hx).1 y (hmem hy).1

end Reclaim

/-! ### Runs -/

/-- What happens to the area after the start-up. -/
inductive Op (α : Type) where
  /-- an object is mapped, without an offset -/
  | load (x : α)
  /-- the dynamic access path of `__tls_get_addr` claims an object without an offset -/
  | forceDynamic (x : α)
  /-- a relocation asks for a static block -/
  | tryAllocate (x : α) (optional : Bool)
  /-- the objects are unloaded in this order -/
  | dlclose (closing : List α)

def step (tls : α → Segment) (p : Parameters) (s : State α) : Op α → State α
  | .load x => { s with offset := Function.update s.offset x noTlsOffset, live := x :: s.live }
  | .forceDynamic x =>
    if s.offset x = noTlsOffset then
      { s with offset := Function.update s.offset x forcedDynamicTlsOffset }
    else s
  | .tryAllocate x optional => (tryAllocateStaticTls tls p s x optional).getD s
  | .dlclose closing => dlclose tls s closing

def Op.Legal (s : State α) : Op α → Prop
  | .dlclose closing => closing.Nodup ∧ ∀ x ∈ closing, x ∈ s.live
  | _ => True

def LegalFrom (tls : α → Segment) (p : Parameters) : State α → List (Op α) → Prop
  | _, [] => True
  | s, op :: ops => op.Legal s ∧ LegalFrom tls p (step tls p s op) ops

def run (tls : α → Segment) (p : Parameters) (s : State α) (ops : List (Op α)) : State α :=
  ops.foldl (step tls p) s

theorem Laid.clear {s : State α} (h : Laid tls p s) (x : α) {off : UInt64} {live : List α}
    (hoff : off = noTlsOffset ∨ off = forcedDynamicTlsOffset)
    (hlive : ∀ y ∈ live, y = x ∨ y ∈ s.live) :
    Laid tls p { s with offset := Function.update s.offset x off, live := live } := by
  have hstill : ∀ {y}, y ∈ live →
      HasStatic { s with offset := Function.update s.offset x off, live := live } y →
      Function.update s.offset x off y = s.offset y ∧ y ∈ s.live ∧ HasStatic s y := by
    intro y hy hstatic
    have hne : y ≠ x := by
      intro he
      simp only [HasStatic, he, Function.update_self] at hstatic
      exact hoff.elim hstatic.1 hstatic.2
    simp only [HasStatic, Function.update_of_ne hne] at hstatic
    exact ⟨Function.update_of_ne hne _ _, (hlive y hy).resolve_left hne, hstatic⟩
  constructor
  case align_pow => exact h.align_pow
  case tcb_le => exact h.tcb_le
  case align_dvd => exact h.align_dvd
  case used_le => exact h.used_le
  case fitted =>
    intro y hy hstatic
    obtain ⟨heq, hy, hstatic⟩ := hstill hy hstatic
    simp only [heq]
    exact h.fitted y hy hstatic
  case apart =>
    intro y hy z hz hsy hsz hne
    obtain ⟨heqy, hy, hsy⟩ := hstill hy hsy
    obtain ⟨heqz, hz, hsz⟩ := hstill hz hsz
    simp only [blockAt, heqy, heqz]
    exact h.apart y hy z hz hsy hsz hne

/-- No block and its first byte offset overflow together. -/
def SumsFit (tls : α → Segment) : Prop :=
  ∀ x, (tls x).blocksize.toNat + (tls x).firstbyteOffset.toNat < 2 ^ 63

theorem Laid.step {s : State α} (h : Laid tls p s) (hsum : SumsFit tls) {op : Op α}
    (hlegal : op.Legal s) : Laid tls p (StaticTls.step tls p s op) := by
  cases op with
  | load x => exact h.clear x (.inl rfl) fun y hy => List.mem_cons.mp hy
  | forceDynamic x =>
    simp only [StaticTls.step]
    split
    · exact h.clear x (.inr rfl) fun y hy => .inr hy
    · exact h
  | tryAllocate x optional =>
    simp only [StaticTls.step]
    cases hrun : tryAllocateStaticTls tls p s x optional with
    | none => exact h
    | some s' =>
      obtain ⟨off, ha⟩ := tryAllocateStaticTls_spec h (hsum x) hrun
      exact h.allocate ha
  | dlclose closing => exact h.dlclose hlegal.1 hlegal.2

theorem Laid.run {s : State α} (h : Laid tls p s) (hsum : SumsFit tls) {ops : List (Op α)}
    (hlegal : LegalFrom tls p s ops) : Laid tls p (StaticTls.run tls p s ops) := by
  induction ops generalizing s with
  | nil => exact h
  | cons op ops ih => exact ih (h.step hsum hlegal.1) hlegal.2

/-! ### The layout in addresses -/

def bytes (tls : α → Segment) (tp : ℤ) (s : State α) (x : α) : Set ℤ :=
  Set.Ico (tp - (s.offset x).toNat) (tp - (s.offset x).toNat + (tls x).blocksize.toNat)

/-- The static blocks of the loaded objects, seen from a thread. -/
structure LaidOut (tls : α → Segment) (p : Parameters) (tp : ℤ) (s : State α) : Prop where
  disjoint : ∀ x ∈ s.live, ∀ y ∈ s.live, HasStatic s x → HasStatic s y → x ≠ y →
    Disjoint (bytes tls tp s x) (bytes tls tp s y)
  inside : ∀ x ∈ s.live, HasStatic s x →
    bytes tls tp s x ⊆ Set.Ico (tp - (s.staticSize.toNat - p.tcbSize.toNat)) tp
  aligned : (s.staticAlign.toNat : ℤ) ∣ tp → ∀ x ∈ s.live, HasStatic s x →
    tp - (s.offset x).toNat ≡ (tls x).firstbyteOffset.toNat [ZMOD (tls x).align.toNat]
  used : ∀ x ∈ s.live, HasStatic s x → s.offset x ≤ s.staticUsed

omit [DecidableEq α] in
theorem Laid.laidOut {s : State α} (h : Laid tls p s) (tp : ℤ) : LaidOut tls p tp s := by
  constructor
  case disjoint =>
    intro x hx y hy hsx hsy hne
    have happart := h.apart x hx y hy hsx hsy hne
    simp only [Block.Apart, blockAt] at happart
    rw [Set.disjoint_left]
    intro a hax hay
    simp only [bytes, Set.mem_Ico] at hax hay
    omega
  case inside =>
    intro x hx hstatic a ha
    have hfit := h.fitted x hx hstatic
    have hsize := hfit.size_le
    have hle := hfit.le_used.trans h.used_le
    simp only [bytes, Set.mem_Ico, area] at ha hle ⊢
    omega
  case aligned =>
    intro htp x hx hstatic
    have hfit := h.fitted x hx hstatic
    have hdvd : ((tls x).align.toNat : ℤ) ∣ tp :=
      (Int.natCast_dvd_natCast.mpr ((tls x).align_pow.dvd_of_le h.align_pow hfit.align_le)).trans
        htp
    have hoff := Int.natCast_dvd_natCast.mpr hfit.dvd
    have hdiff : ((tls x).firstbyteOffset.toNat : ℤ) - (tp - (s.offset x).toNat)
        = ((s.offset x).toNat + (tls x).firstbyteOffset.toNat : ℕ) - tp := by
      push_cast
      ring
    rw [Int.modEq_iff_dvd, hdiff]
    exact Int.dvd_sub hoff hdvd
  case used =>
    intro x hx hstatic
    exact UInt64.le_iff_toNat_le.mpr (h.fitted x hx hstatic).le_used

/-- After any start-up and any sequence of loads, allocations and unloads, the
static blocks of the loaded objects are disjoint, inside the area, aligned, and
below `dl_tls_static_used`. -/
theorem static_blocks_laidOut (tls : α → Segment) (p : Parameters) {startup : List α}
    (hnodup : startup.Nodup)
    (hroom : roomFor tls startup + p.surplus.toNat + p.tcbSize.toNat < 2 ^ 63)
    (hsum : SumsFit tls) {ops : List (Op α)}
    (hlegal : LegalFrom tls p (determineTlsoffset tls p startup) ops) (tp : ℤ) :
    LaidOut tls p tp (run tls p (determineTlsoffset tls p startup) ops) := by
  have hstart := laid_determineTlsoffset tls p hnodup hroom
  exact (hstart.run hsum hlegal).laidOut tp

/-- Two objects at the start, two more take surplus, the later of them and one of
the start are unloaded, and a fifth takes the surplus again. -/
theorem static_blocks_laidOut_reused :
    let tls : Fin 5 → Segment := fun i =>
      if i = 1 then ⟨24, 16, 8, by decide, 4, rfl⟩ else ⟨32, 8, 0, by decide, 3, rfl⟩
    let p : Parameters := ⟨2304, 1664, 512⟩
    let ops : List (Op (Fin 5)) := [.load 2, .tryAllocate 2 false, .load 3, .tryAllocate 3 true,
      .dlclose [3, 0], .load 4, .forceDynamic 1, .tryAllocate 4 false]
    LaidOut tls p 4096 (run tls p (determineTlsoffset tls p [0, 1]) ops) ∧
    (run tls p (determineTlsoffset tls p [0, 1]) ops).live = [4, 2, 1] := by
  intro tls p ops
  have hlegal : LegalFrom tls p (determineTlsoffset tls p [0, 1]) ops :=
    ⟨trivial, trivial, trivial, trivial, ⟨by decide, by decide +kernel⟩, trivial, trivial,
      trivial, trivial⟩
  have hsum : ∀ x, (tls x).blocksize.toNat + (tls x).firstbyteOffset.toNat < 2 ^ 63 := by
    decide +kernel
  exact ⟨static_blocks_laidOut tls p (by decide) (by decide +kernel) hsum hlegal 4096,
    by decide +kernel⟩

end AwaitGlibc.StaticTls
