import Mathlib.Logic.Function.Basic
import AwaitGlibc.SizeT

/-! The static TLS area of `elf/dl-tls.c`, `elf/dl-reloc.c` and
`elf/dl-close.c` on a machine with the thread control block at the thread
pointer (`TLS_TCB_AT_TP`). Blocks lie below the thread pointer; the offset of a
block is the distance of its first byte from it. `determineTlsoffset` lays out
the objects of the start-up, `tryAllocateStaticTls` takes surplus for a late
object and `dlclose` gives surplus back.

All sizes are `size_t` with wrapping arithmetic. Objects without a TLS segment
do not reach any of this code and are not represented. The size of the thread
control block and the surplus are parameters. -/
namespace AwaitGlibc.StaticTls
open SizeT

/-- The TLS segment of an object. The loader skips a segment of size zero
(`dl-load.c`), so a block is never empty. -/
structure Segment where
  blocksize : UInt64
  align : UInt64
  firstbyteOffset : UInt64
  blocksize_pos : 0 < blocksize.toNat
  align_pow : PowerOfTwo align

def noTlsOffset : UInt64 := 0

def forcedDynamicTlsOffset : UInt64 := -1

/-- `TCB_ALIGNMENT` of `sysdeps/x86/nptl/pthreaddef.h`. -/
def tcbAlignment : UInt64 := 64

/-! ### The layout of the start-up -/

/-- The variables of the loop of `_dl_determine_tlsoffset`: the one gap that is
remembered reaches from `freetop` to `freebottom`. -/
structure Cursor where
  maxAlign : UInt64
  freetop : UInt64
  freebottom : UInt64
  offset : UInt64

/-- The expression `roundup (start + blocksize - firstbyte, align) + firstbyte`,
which the loop evaluates for the gap and for the end of the area. -/
def offsetAbove (start : UInt64) (m : Segment) : UInt64 :=
  let firstbyte := negMod m.firstbyteOffset m.align
  roundup (start + m.blocksize - firstbyte) m.align + firstbyte

/-- One turn of the loop: the offset of the object and the variables after it. -/
def place (c : Cursor) (m : Segment) : UInt64 × Cursor :=
  let maxAlign := if m.align < c.maxAlign then c.maxAlign else m.align
  let inGap := offsetAbove c.freetop m
  if m.blocksize ≤ c.freebottom - c.freetop ∧ inGap ≤ c.freebottom then
    (inGap, { c with maxAlign, freetop := inGap })
  else
    let off := offsetAbove c.offset m
    -- the padding below this block is remembered when it is the larger gap
    if c.offset + m.blocksize + (c.freebottom - c.freetop) < off then
      (off, ⟨maxAlign, c.offset, off - m.blocksize, off⟩)
    else
      (off, { c with maxAlign, offset := off })

variable {α : Type} [DecidableEq α] (tls : α → Segment)

/-- The loop over the start-up objects, which fills in their `l_tls_offset`. -/
def placeAll : List α → Cursor → (α → UInt64) → Cursor × (α → UInt64)
  | [], c, offset => (c, offset)
  | x :: rest, c, offset =>
    let (off, c') := place c (tls x)
    placeAll rest c' (Function.update offset x off)

/-- The shared variables of the static TLS area, with `l_tls_offset` of each
object and the objects that are loaded. -/
structure State (α : Type) where
  offset : α → UInt64
  staticUsed : UInt64
  staticSize : UInt64
  staticAlign : UInt64
  staticOptional : UInt64
  live : List α

/-- What the area is built with: `TLS_TCB_SIZE`, `dl_tls_static_surplus` and
the first value of `dl_tls_static_optional`. -/
structure Parameters where
  tcbSize : UInt64
  surplus : UInt64
  optional : UInt64

variable (p : Parameters)

def determineTlsoffset (startup : List α) : State α :=
  let (c, offset) := placeAll tls startup ⟨tcbAlignment, 0, 0, 0⟩ fun _ => noTlsOffset
  { offset
    staticUsed := c.offset
    staticSize := roundup (c.offset + p.surplus) c.maxAlign + p.tcbSize
    staticAlign := c.maxAlign
    staticOptional := p.optional
    live := startup }

/-! ### Late allocation -/

/-- The bytes that a late block takes from the `freebytes` that are left. The
whole number `n` of alignments stays free, so that the block ends an aligned
distance from the far end of the area. -/
def lateUse (m : Segment) (freebytes : UInt64) : UInt64 :=
  let n := (freebytes - (m.blocksize + m.firstbyteOffset)) / m.align
  freebytes - n * m.align - m.firstbyteOffset

/-- `_dl_try_allocate_static_tls`; `none` is the result `-1`. -/
def tryAllocateStaticTls (s : State α) (x : α) (optional : Bool) : Option (State α) :=
  let m := tls x
  if s.offset x = forcedDynamicTlsOffset ∨ s.staticAlign < m.align then none
  else
    let freebytes := s.staticSize - s.staticUsed
    if freebytes < p.tcbSize then none
    else
      let freebytes := freebytes - p.tcbSize
      if freebytes < m.blocksize + m.firstbyteOffset then none
      else
        let use := lateUse m freebytes
        if optional ∧ s.staticOptional < use then none
        else
          let offset := s.staticUsed + use
          some { s with
            offset := Function.update s.offset x offset
            staticUsed := offset
            staticOptional := if optional then s.staticOptional - use else s.staticOptional }

/-! ### Reclaiming at unload -/

/-- The variables of the unload loop: the chunk of freed blocks that is
remembered, and `dl_tls_static_used`. -/
structure Reclaim where
  freeStart : UInt64
  freeEnd : UInt64
  used : UInt64
  anyTls : Bool

def reclaimBlock (c : Reclaim) (offset blocksize : UInt64) : Reclaim :=
  if c.freeStart = noTlsOffset ∨ offset = c.freeStart then
    { c with
      freeStart := offset - blocksize
      freeEnd := if c.freeEnd = noTlsOffset then offset else c.freeEnd }
  else if offset - blocksize = c.freeEnd then
    { c with freeEnd := offset }
  else if c.freeEnd = c.used then
    { c with used := c.freeStart, freeEnd := offset, freeStart := offset - blocksize }
  else if offset = c.used then
    { c with used := offset - blocksize }
  else if c.freeEnd < offset then
    { c with freeEnd := offset, freeStart := offset - blocksize }
  else c

def HasStatic (s : State α) (x : α) : Prop :=
  s.offset x ≠ noTlsOffset ∧ s.offset x ≠ forcedDynamicTlsOffset

instance (s : State α) (x : α) : Decidable (HasStatic s x) :=
  inferInstanceAs (Decidable (_ ∧ _))

/-- One turn of the unload loop. -/
def reclaimObject (s : State α) (c : Reclaim) (x : α) : Reclaim :=
  if 0 < (tls x).blocksize then
    if HasStatic s x then
      reclaimBlock { c with anyTls := true } (s.offset x) (tls x).blocksize
    else { c with anyTls := true }
  else c

/-- The static TLS part of `_dl_close_worker` for the unloaded objects in the
order of the array `maps`. -/
def dlclose (s : State α) (closing : List α) : State α :=
  let c := closing.foldl (reclaimObject tls s) ⟨noTlsOffset, noTlsOffset, s.staticUsed, false⟩
  { s with
    staticUsed := if c.anyTls ∧ c.freeEnd = c.used then c.freeStart else c.used
    live := s.live.filter (· ∉ closing) }

end AwaitGlibc.StaticTls
