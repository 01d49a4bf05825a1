import AwaitGlibc.FileStream

/-! The input side of file streams: refills of the get area, reads, `ftell` and `fseek`. -/
namespace AwaitGlibc.FileStream
open CheckedArray

def Stream.loadByte (s : Stream) (i : ℕ) : Except Fault UInt8 :=
  match s.buf[i]? with
  | some b => .ok b
  | none => .error (.loadOutside s.size i)

/-- The areas behind `_IO_switch_to_get_mode`. -/
def Stream.getMode (s : Stream) : Stream :=
  { s with
    readBase := 0
    readEnd := if s.writePtr > s.readEnd then s.writePtr else s.readEnd
    readPtr := s.writePtr
    writeBase := s.writePtr
    writeEnd := s.writePtr
    putting := false }

def Stream.rewound (s : Stream) : Stream := (s.setg 0 0 0).setp 0 0

section Calls

variable {K : Type} (kernel : Kernel K) (alloc : Alloc)

/-- `if (fp->_IO_write_ptr > fp->_IO_write_base) _IO_OVERFLOW (fp, EOF)`. -/
def overflowPending (st : State K) : Except Fault (Bool × State K) :=
  if st.s.writePtr > st.s.writeBase then overflowEof kernel alloc st else .ok (true, st)

/-- `_IO_switch_to_get_mode`; `false` is `EOF`. -/
def switchToGetMode (st : State K) : Except Fault (Bool × State K) := do
  let (flushed, st) ← overflowPending kernel alloc st
  if flushed then return (true, { st with s := st.s.getMode }) else return (false, st)

/-- The read of `_IO_new_file_underflow`. -/
def refill (st : State K) : Except Fault (Option UInt8 × State K) :=
  let s := st.s.rewound
  match kernel.read st.k s.size with
  | (none, k) => .ok (none, ⟨{ s with err := true, offset := none }, k⟩)
  | (some data, k) =>
    if data = [] then .ok (none, ⟨{ s with eof := true, offset := none }, k⟩)
    else do
      let s ← s.store 0 data
      let b ← s.loadByte s.readPtr
      return (some b, ⟨{ s with
        readEnd := s.readEnd + data.length
        offset := s.offset.map (· + data.length) }, k⟩)

/-- `_IO_new_file_underflow`. -/
def fileUnderflow (st : State K) : Except Fault (Option UInt8 × State K) :=
  if st.s.eof then .ok (none, st)
  else if st.s.noReads then .ok (none, { st with s := { st.s with err := true } })
  else if st.s.readPtr < st.s.readEnd then do
    let b ← st.s.loadByte st.s.readPtr
    return (some b, st)
  else do
    -- what the switch returns is not looked at
    let (_, st) ← switchToGetMode kernel alloc { st with s := doallocbuf alloc st.s }
    refill kernel st

/-- `if (_IO_in_put_mode (fp)) _IO_switch_to_get_mode (fp)`. -/
def leavePutMode (st : State K) : Except Fault (Bool × State K) :=
  if st.s.putting then switchToGetMode kernel alloc st else .ok (true, st)

def underflow (st : State K) : Except Fault (Option UInt8 × State K) := do
  let (switched, st) ← leavePutMode kernel alloc st
  if switched then
    if st.s.readPtr < st.s.readEnd then do
      let b ← st.s.loadByte st.s.readPtr
      return (some b, st)
    else fileUnderflow kernel alloc st
  else return (none, st)

/-- `*fp->_IO_read_ptr++`. -/
def takeByte (st : State K) : Except Fault (Option UInt8 × State K) := do
  let b ← st.s.loadByte st.s.readPtr
  return (some b, { st with s := { st.s with readPtr := st.s.readPtr + 1 } })

def defaultUflow (st : State K) : Except Fault (Option UInt8 × State K) := do
  let (ch, st) ← fileUnderflow kernel alloc st
  match ch with
  | none => return (none, st)
  | some _ => takeByte st

def uflow (st : State K) : Except Fault (Option UInt8 × State K) := do
  let (switched, st) ← leavePutMode kernel alloc st
  if switched then
    if st.s.readPtr < st.s.readEnd then takeByte st else defaultUflow kernel alloc st
  else return (none, st)

/-- `getc`; `none` is `EOF`. -/
def getc (st : State K) : Except Fault (Option UInt8 × State K) :=
  if st.s.readPtr ≥ st.s.readEnd then uflow kernel alloc st else takeByte st

/-- A read of `_IO_file_xsgetn` that goes around the buffer; `none` ends the loop. -/
def directRead (st : State K) (want : ℕ) : Option Bytes × State K :=
  let s := st.s.rewound
  match kernel.read st.k (want - (if s.size ≥ 128 then want % s.size else 0)) with
  | (none, k) => (none, ⟨{ s with err := true }, k⟩)
  | (some data, k) =>
    if data = [] then (none, ⟨{ s with eof := true }, k⟩)
    else (some data, ⟨{ s with offset := s.offset.map (· + data.length) }, k⟩)

/-- The loop of `_IO_file_xsgetn`. -/
def getLoop : ℕ → State K → ℕ → Except Fault (Bytes × State K)
  | 0, _, _ => .error .outOfFuel
  | fuel + 1, st, want =>
    if want = 0 then .ok ([], st)
    else if want ≤ st.s.readEnd - st.s.readPtr then do
      let data ← st.s.load st.s.readPtr (st.s.readPtr + want)
      return (data, { st with s := { st.s with readPtr := st.s.readPtr + want } })
    else do
      let data ← st.s.load st.s.readPtr st.s.readEnd
      let want := want - (st.s.readEnd - st.s.readPtr)
      let st := { st with s := { st.s with readPtr := st.s.readEnd } }
      if want < st.s.size then
        let (ch, st) ← underflow kernel alloc st
        match ch with
        | none => return (data, st)
        | some _ =>
          let (more, st) ← getLoop fuel st want
          return (data ++ more, st)
      else
        match directRead kernel st want with
        | (none, st) => return (data, st)
        | (some part, st) =>
          let (more, st) ← getLoop fuel st (want - part.length)
          return (data ++ part ++ more, st)

/-- `_IO_file_xsgetn`. Each byte takes at most two rounds. -/
def xsgetn (st : State K) (n : ℕ) : Except Fault (Bytes × State K) :=
  getLoop kernel alloc (2 * n + 2) { st with s := doallocbuf alloc st.s } n

def fread (st : State K) (n : ℕ) : Except Fault (Bytes × State K) :=
  if n = 0 then .ok ([], st) else xsgetn kernel alloc st n

/-! ### Positions -/

def Stream.ahead (s : Stream) : ℤ :=
  if s.buf = [] then 0
  else if ¬s.writePtr > s.writeBase then s.readPtr - s.readEnd
  else if s.appending then s.writePtr - s.writeBase
  else s.writePtr - s.readEnd

/-- `do_ftell` when the end of an appending stream is known; `none` is `EOF`. -/
def tellFrom (st : State K) : Option ℕ × State K :=
  match st.s.offset with
  | some pos => (if pos + st.s.ahead < 0 then none else some (pos + st.s.ahead).toNat, st)
  | none =>
    match kernel.seek st.k 0 .cur with
    | (.error _, k) => (none, { st with k := k })
    | (.ok pos, k) =>
      (if pos + st.s.ahead < 0 then none else some (pos + st.s.ahead).toNat, { st with k := k })

/-- `ftell`, by `do_ftell`; `none` is `EOF`. -/
def ftell (st : State K) : Option ℕ × State K :=
  if st.s.buf ≠ [] ∧ st.s.writePtr > st.s.writeBase ∧ st.s.appending then
    match kernel.seek st.k 0 .end_ with
    | (.error _, k) => (none, { st with k := k })
    | (.ok pos, k) => tellFrom kernel ⟨{ st.s with offset := some pos }, k⟩
  else tellFrom kernel st

/-- The label `dumb` of `_IO_new_file_seekoff`. -/
def seekDumb (st : State K) (offset : ℤ) (whence : Whence) : Option ℤ × State K :=
  match kernel.seek st.k offset whence with
  | (.error _, k) => (none, { st with k := k })
  | (.ok pos, k) => (some pos, ⟨{ st.s.rewound with eof := false, offset := some pos }, k⟩)

def Stream.seeked (s : Stream) (delta count pos : ℕ) : Stream :=
  { (s.setg 0 delta count).setp 0 0 with eof := false, offset := some (pos + count) }

/-- The block boundary at or before an offset, and the distance to it. -/
def blockStart (s : Stream) (offset : ℤ) : ℤ × ℤ :=
  let start := offset.land (Int.lnot (s.size - 1))
  if offset - start > s.size then (offset, 0) else (start, offset - start)

def seekBlock (mustBeExact : Bool) (st : State K) (offset : ℤ) : Except Fault (Option ℤ × State K) :=
  if st.s.noReads then .ok (seekDumb kernel st offset .set)
  else
    let (start, delta) := blockStart st.s offset
    match kernel.seek st.k start .set with
    | (.error _, k) => .ok (none, { st with k := k })
    | (.ok pos, k) =>
      if delta = 0 then .ok (some offset, ⟨st.s.seeked 0 0 pos, k⟩)
      else
        match kernel.read k (if mustBeExact then delta.toNat else st.s.size) with
        | (none, k) => .ok (seekDumb kernel { st with k := k } delta .cur)
        | (some data, k) => do
          let s ← st.s.store 0 data
          if data.length < delta then
            return seekDumb kernel ⟨s, k⟩ (delta - data.length) .cur
          else return (some offset, ⟨s.seeked delta.toNat data.length pos, k⟩)

/-- A seek to an offset from the start; one inside the get area moves only the read pointer. -/
def seekSet (mustBeExact : Bool) (st : State K) (offset : ℤ) : Except Fault (Option ℤ × State K) :=
  match st.s.offset with
  | none => seekBlock kernel mustBeExact st offset
  | some pos =>
    let startOffset : ℤ := pos - st.s.readEnd
    if ¬st.s.null ∧ offset ≥ startOffset ∧ offset < pos then
      let s := (st.s.setg 0 (offset - startOffset).toNat st.s.readEnd).setp 0 0
      .ok (some offset, ⟨{ s with eof := false }, (kernel.seek st.k pos .set).2⟩)
    else seekBlock kernel mustBeExact st offset

/-- The buffer that `_IO_new_file_seekoff` allocates. -/
def Stream.buffered (s : Stream) : Stream :=
  if s.buf = [] then (doallocbuf alloc s).rewound else s

/-- The offset from the start, in `_IO_new_file_seekoff`. -/
def seekFrom (mustBeExact : Bool) (st : State K) (offset : ℤ) (whence : Whence) :
    Except Fault (Option ℤ × State K) :=
  match whence with
  | .set => seekSet kernel mustBeExact st offset
  | .cur =>
    let offset := offset - (st.s.readEnd - st.s.readPtr)
    match st.s.offset with
    | none => .ok (seekDumb kernel st offset .cur)
    | some pos =>
      if offset + pos < 0 then .ok (none, st) else seekSet kernel mustBeExact st (offset + pos)
  | .end_ =>
    match kernel.size st.k with
    | none => .ok (seekDumb kernel st offset .end_)
    | some size => seekSet kernel mustBeExact st (offset + size)

def flushForSeek (st : State K) : Except Fault (Bool × State K) :=
  if st.s.writePtr > st.s.writeBase ∨ st.s.putting then switchToGetMode kernel alloc st
  else .ok (true, st)

/-- `fseek`, by `_IO_new_file_seekoff`; `none` is `EOF`. -/
def fseek (st : State K) (offset : ℤ) (whence : Whence) : Except Fault (Option ℤ × State K) := do
  let mustBeExact := st.s.readBase = st.s.readEnd ∧ st.s.writeBase = st.s.writePtr
  let (flushed, st) ← flushForSeek kernel alloc st
  if flushed then
    seekFrom kernel mustBeExact { st with s := st.s.buffered alloc } offset whence
  else return (none, st)

end Calls

end AwaitGlibc.FileStream
