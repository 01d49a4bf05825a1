import Mathlib
import AwaitGlibc.CheckedArray

/-! The file streams of libio: one buffer with a get area and a put area, over a file
descriptor. Pointers are offsets from `_IO_buf_base`; a load or store outside the buffer is
a fault. Streams are byte oriented and have no pushed back characters and no markers. -/
namespace AwaitGlibc.FileStream
open CheckedArray

abbrev Bytes := List UInt8

def newline : UInt8 := 10

inductive Whence
  | set | cur | end_
deriving DecidableEq, Repr

inductive SeekError
  | espipe | other
deriving DecidableEq, Repr

/-- What the kernel answers. A `write` of some bytes fails or takes at least one of them; the
answer is the count less one. -/
structure Kernel (K : Type) where
  write : K → (data : Bytes) → Option (Fin data.length) × K
  read : K → ℕ → Option Bytes × K
  seek : K → ℤ → Whence → Except SeekError ℕ × K
  /-- The size of a regular file. -/
  size : K → Option ℕ

inductive Buffering
  | full | line | unbuffered
deriving DecidableEq, Repr

structure Stream where
  /-- The memory from `_IO_buf_base` to `_IO_buf_end`; empty before there is a buffer. -/
  buf : Bytes
  /-- The pointers of the get and the put area are still null. -/
  null : Bool
  readBase : ℕ
  readPtr : ℕ
  readEnd : ℕ
  writeBase : ℕ
  writePtr : ℕ
  writeEnd : ℕ
  buffering : Buffering
  putting : Bool
  eof : Bool
  err : Bool
  appending : Bool
  noReads : Bool
  noWrites : Bool
  /-- `_offset`, with `_IO_pos_BAD` as `none`. -/
  offset : Option ℕ

structure State (K : Type) where
  s : Stream
  k : K

/-- A buffer that would be allocated: its size, and whether the descriptor is a terminal. -/
structure Alloc where
  size : ℕ
  tty : Bool
  pos : 0 < size

def Stream.size (s : Stream) : ℕ := s.buf.length

def Stream.setg (s : Stream) (base ptr end_ : ℕ) : Stream :=
  { s with null := false, readBase := base, readPtr := ptr, readEnd := end_ }

def Stream.setp (s : Stream) (ptr end_ : ℕ) : Stream :=
  { s with null := false, writeBase := ptr, writePtr := ptr, writeEnd := end_ }

def Stream.load (s : Stream) (first last : ℕ) : Except Fault Bytes :=
  if first ≤ last ∧ last ≤ s.size then .ok ((s.buf.drop first).take (last - first))
  else .error (.loadOutside s.size last)

def Stream.store (s : Stream) (first : ℕ) (data : Bytes) : Except Fault Stream :=
  if first + data.length ≤ s.size then
    .ok { s with buf := s.buf.take first ++ data ++ s.buf.drop (first + data.length) }
  else .error (.storeOutside s.size (first + data.length))

/-- `_IO_doallocbuf` and `_IO_file_doallocate`. -/
def doallocbuf (alloc : Alloc) (s : Stream) : Stream :=
  if s.buf ≠ [] then s
  else if s.buffering = .unbuffered then { s with buf := [0] }
  else
    { s with
      buf := List.replicate alloc.size 0
      buffering := if alloc.tty then .line else s.buffering }

section Calls

variable {K : Type} (kernel : Kernel K) (alloc : Alloc)

/-! ### Output -/

/-- The loop of `_IO_new_file_write`: how much was written, and whether an error ended it. -/
def writeLoop (k : K) (data : Bytes) : ℕ × Bool × K :=
  if _h : data = [] then (0, false, k)
  else
    match kernel.write k data with
    | (none, k) => (0, true, k)
    | (some count, k) =>
      let rest := writeLoop k (data.drop (count + 1))
      (count + 1 + rest.1, rest.2)
termination_by data.length
decreasing_by
  rw [List.length_drop]
  have := count.isLt
  omega

/-- `_IO_new_file_write`. -/
def fileWrite (st : State K) (data : Bytes) : ℕ × State K :=
  let (n, failed, k) := writeLoop kernel st.k data
  (n, ⟨{ st.s with err := st.s.err || failed, offset := st.s.offset.map (· + n) }, k⟩)

/-- The end of `new_do_write`. -/
def Stream.resetAreas (s : Stream) : Stream :=
  { s.setg 0 0 0 with
    writeBase := 0
    writePtr := 0
    writeEnd := if s.buffering = .full then s.size else 0 }

def newDoWrite (st : State K) (data : Bytes) : ℕ × State K :=
  let write (st : State K) : ℕ × State K :=
    let (count, st) := fileWrite kernel st data
    (count, { st with s := st.s.resetAreas })
  if st.s.appending then write { st with s := { st.s with offset := none } }
  else if st.s.readEnd ≠ st.s.writeBase then
    match kernel.seek st.k (st.s.writeBase - st.s.readEnd) .cur with
    | (.error _, k) => (0, { st with k := k })
    | (.ok pos, k) => write ⟨{ st.s with offset := some pos }, k⟩
  else write st

/-- `_IO_new_do_write`; `false` is `EOF`. -/
def doWrite (st : State K) (data : Bytes) : Bool × State K :=
  if data = [] then (true, st)
  else
    let (count, st) := newDoWrite kernel st data
    (count = data.length, st)

def doFlush (st : State K) : Except Fault (Bool × State K) := do
  let data ← st.s.load st.s.writeBase st.s.writePtr
  return doWrite kernel st data

/-- The start of `_IO_new_file_overflow`: the put area is set up where the get area is. -/
def startPutting (s : Stream) : Stream :=
  if s.putting && !s.null then s
  else
    let s := if s.null then (doallocbuf alloc s).setg 0 0 0 else s
    let s := if s.readPtr = s.size then { s with readPtr := 0, readEnd := 0 } else s
    let s := { s with
      writePtr := s.readPtr, writeBase := s.readPtr, writeEnd := s.size
      readBase := s.readEnd, readPtr := s.readEnd
      putting := true }
    if s.buffering = .full then s else { s with writeEnd := s.writePtr }

/-- `_IO_new_file_overflow (f, EOF)`; `false` is `EOF`. -/
def overflowEof (st : State K) : Except Fault (Bool × State K) :=
  if st.s.noWrites then .ok (false, { st with s := { st.s with err := true } })
  else doFlush kernel { st with s := startPutting alloc st.s }

def makeRoom (st : State K) : Except Fault (Bool × State K) :=
  if st.s.writePtr = st.s.size then doFlush kernel st else .ok (true, st)

/-- The character is stored, and the buffer flushed where the mode asks for it. -/
def putChar (st : State K) (ch : UInt8) : Except Fault (Bool × State K) := do
  let s ← st.s.store st.s.writePtr [ch]
  let st := { st with s := { s with writePtr := s.writePtr + 1 } }
  if st.s.buffering = .unbuffered ∨ (st.s.buffering = .line ∧ ch = newline) then doFlush kernel st
  else return (true, st)

/-- `_IO_new_file_overflow (f, ch)` with a character; `false` is `EOF`. -/
def overflow (st : State K) (ch : UInt8) : Except Fault (Bool × State K) :=
  if st.s.noWrites then .ok (false, { st with s := { st.s with err := true } })
  else do
    let (room, st) ← makeRoom kernel { st with s := startPutting alloc st.s }
    if room then putChar kernel st ch else return (false, st)

def fillSpace (s : Stream) (data : Bytes) (space : ℕ) : Except Fault Stream := do
  let s ← s.store s.writePtr (data.take space)
  return { s with writePtr := s.writePtr + (data.take space).length }

/-- `_IO_default_xsputn`: how many bytes were taken. -/
def defaultXsputn (st : State K) (data : Bytes) : Except Fault (ℕ × State K) := do
  let space := st.s.writeEnd - st.s.writePtr
  let s ← fillSpace st.s data space
  match _h : data.drop space with
  | [] => return (data.length, { st with s := s })
  | ch :: more =>
    let (taken, st) ← overflow kernel alloc { st with s := s } ch
    if taken then
      let (count, st) ← defaultXsputn st more
      return (data.length - more.length + count, st)
    else return (data.length - (more.length + 1), st)
termination_by data.length
decreasing_by
  have := congrArg List.length _h
  rw [List.length_drop, List.length_cons] at this
  omega

/-- How much `_IO_new_file_xsputn` copies into the buffer, and `must_flush`. -/
def firstPart (s : Stream) (data : Bytes) : ℕ × Bool :=
  if s.buffering = .line ∧ s.putting then
    let count := s.size - s.writePtr
    if count ≥ data.length then
      -- the part up to the last newline
      let lines := data.rdropWhile (· != newline)
      if lines ≠ [] then (lines.length, true) else (count, false)
    else (count, false)
  else (s.writeEnd - s.writePtr, false)

/-- What is left when the buffer has been flushed: whole blocks go to the descriptor, the remainder
through the buffer. -/
def putRest (st : State K) (rest : Bytes) : Except Fault (ℕ × State K) :=
  let direct := rest.length - (if st.s.size ≥ 128 then rest.length % st.s.size else 0)
  let (written, st) := if direct = 0 then (0, st) else newDoWrite kernel st (rest.take direct)
  if written < direct ∨ direct = rest.length then .ok (written, st)
  else do
    let (more, st) ← defaultXsputn kernel alloc st (rest.drop direct)
    return (written + more, st)

/-- `_IO_new_file_xsputn`: the count, or `none` for `EOF`. -/
def xsputn (st : State K) (data : Bytes) : Except Fault (Option ℕ × State K) :=
  if data = [] then .ok (some 0, st)
  else do
    let (count, mustFlush) := firstPart st.s data
    let s ← fillSpace st.s data count
    let rest := data.drop count
    if rest = [] ∧ !mustFlush then return (some data.length, { st with s := s })
    else
      let (flushed, st) ← overflowEof kernel alloc { st with s := s }
      if flushed then
        let (written, st) ← putRest kernel alloc st rest
        return (some (data.length - rest.length + written), st)
      else return (if rest = [] then none else some (data.length - rest.length), st)

/-- `putc`; `false` is `EOF`. -/
def putc (st : State K) (ch : UInt8) : Except Fault (Bool × State K) :=
  if st.s.writePtr ≥ st.s.writeEnd then overflow kernel alloc st ch
  else do
    let s ← st.s.store st.s.writePtr [ch]
    return (true, { st with s := { s with writePtr := s.writePtr + 1 } })

/-- `if (fp->_IO_write_ptr > fp->_IO_write_base) _IO_do_flush (fp)`. -/
def flushPending (st : State K) : Except Fault (Bool × State K) :=
  if st.s.writePtr > st.s.writeBase then doFlush kernel st else .ok (true, st)

/-- The file offset is set back to what has been read of the get area. -/
def syncGetArea (st : State K) : Bool × State K :=
  if st.s.readPtr ≠ st.s.readEnd then
    match kernel.seek st.k (st.s.readPtr - st.s.readEnd) .cur with
    | (.ok _, k) => (true, ⟨{ st.s with readEnd := st.s.readPtr, offset := none }, k⟩)
    | (.error .espipe, k) => (true, ⟨{ st.s with offset := none }, k⟩)
    | (.error .other, k) => (false, { st with k := k })
  else (true, { st with s := { st.s with offset := none } })

/-- `fflush`, by `_IO_new_file_sync`; `false` is `EOF`. -/
def fflush (st : State K) : Except Fault (Bool × State K) := do
  let (flushed, st) ← flushPending kernel st
  if flushed then return syncGetArea kernel st else return (false, st)

end Calls

end AwaitGlibc.FileStream
