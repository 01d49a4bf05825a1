import AwaitGlibc.FileContent
import AwaitGlibc.FileStreamInput
import AwaitGlibc.OutputStream

/-! Streams that are both read and written, on a regular file. The kernel moves as many bytes of
a request as it likes, at least one, and fails only for seeks before the start. Between two calls
the stream either stands for the file as the kernel has it, or holds bytes that are still to be
written. -/
namespace AwaitGlibc.FileStream
open CheckedArray FileContent

/-- A regular file in the kernel; `choice` says how much the next requests move. -/
structure Disk where
  content : Bytes
  pos : ℕ
  choice : ℕ → ℕ

namespace Disk

def target (d : Disk) (offset : ℤ) : Whence → ℤ
  | .set => offset
  | .cur => d.pos + offset
  | .end_ => d.content.length + offset

def write (d : Disk) (data : Bytes) : Option (Fin data.length) × Disk :=
  if h : data = [] then (none, d)
  else
    let count := d.choice 0 % data.length
    (some ⟨count, Nat.mod_lt _ (List.length_pos_of_ne_nil h)⟩,
      { content := overwrite 0 d.content d.pos (data.take (count + 1))
        pos := d.pos + (count + 1)
        choice := fun i => d.choice (i + 1) })

def read (d : Disk) (n : ℕ) : Option Bytes × Disk :=
  let available := slice d.content d.pos n
  let data := available.take (d.choice 0 % available.length + 1)
  (some data, { d with pos := d.pos + data.length, choice := fun i => d.choice (i + 1) })

def seek (d : Disk) (offset : ℤ) (whence : Whence) : Except SeekError ℕ × Disk :=
  if d.target offset whence < 0 then (.error .other, d)
  else (.ok (d.target offset whence).toNat, { d with pos := (d.target offset whence).toNat })

def kernel : Kernel Disk where
  write := write
  read := read
  seek := seek
  size d := some d.content.length

theorem seek_of_target {d : Disk} {offset : ℤ} {whence : Whence} {pos : ℕ}
    (h : d.target offset whence = pos) :
    kernel.seek d offset whence = (.ok pos, { d with pos := pos }) := by
  change seek d offset whence = _
  rw [seek, h, if_neg (by omega), Int.toNat_natCast]

theorem seek_of_negative {d : Disk} {offset : ℤ} {whence : Whence}
    (h : d.target offset whence < 0) : kernel.seek d offset whence = (.error .other, d) := if_pos h

theorem read_spec (d : Disk) (n : ℕ) :
    ∃ data d', kernel.read d n = (some data, d') ∧ data = slice d.content d.pos data.length ∧
      data.length ≤ n ∧ d'.content = d.content ∧ d'.pos = d.pos + data.length ∧
      (0 < n → data = [] → d.content.length ≤ d.pos) := by
  refine ⟨_, _, rfl, ?_, ?_, rfl, rfl, ?_⟩
  · rw [slice, List.take_take]
    exact (slice_length _ _ _).symm
  · rw [List.length_take, length_slice]
    omega
  · intro hn hnil
    apply le_of_slice_eq_nil _ hn
    apply (List.take_eq_nil_iff.mp hnil).resolve_left
    omega

theorem writeLoop_spec (d : Disk) (data : Bytes) :
    ∃ d', writeLoop kernel d data = (data.length, false, d') ∧
      d'.content = overwrite 0 d.content d.pos data ∧ d'.pos = d.pos + data.length := by
  fun_induction writeLoop kernel d data with
  | case1 d => exact ⟨d, rfl, (overwrite_nil _ _ _).symm, rfl⟩
  | case2 d data hdata d' hwrite =>
    change write d data = _ at hwrite
    rw [write, dif_neg hdata] at hwrite
    cases hwrite
  | case3 d data hdata count d' hwrite rest ih =>
    change write d data = _ at hwrite
    rw [write, dif_neg hdata] at hwrite
    obtain ⟨d'', hrest, hcontent, hpos⟩ := ih
    injection hwrite with hcount hd
    injection hcount with hcount
    have hval : d.choice 0 % data.length = count := congrArg Fin.val hcount
    have hd' : d'.content = overwrite 0 d.content d.pos (data.take (count + 1)) ∧
        d'.pos = d.pos + (count + 1) := by
      rw [← hd, hval]
      exact ⟨rfl, rfl⟩
    have htaken : (data.take (count + 1)).length = count + 1 := by
      rw [List.length_take]
      omega
    refine ⟨d'', ?_, ?_, ?_⟩
    · rw [show rest = _ from hrest, List.length_drop]
      congr 1
      omega
    · rw [hcontent, hd'.1, hd'.2]
      have happend := overwrite_append 0 d.content d.pos (data.take (count + 1)) (data.drop (count + 1))
      rwa [htaken, List.take_append_drop] at happend
    · rw [hpos, hd'.2, List.length_drop]
      omega

end Disk

/-- The file without a buffer: reads and writes happen at the position. -/
structure ModelFile where
  content : Bytes
  pos : ℕ

namespace ModelFile

def read (m : ModelFile) (n : ℕ) : Bytes × ModelFile :=
  (slice m.content m.pos n, { m with pos := m.pos + (slice m.content m.pos n).length })

def write (m : ModelFile) (data : Bytes) : ModelFile :=
  ⟨overwrite 0 m.content m.pos data, m.pos + data.length⟩

def target (m : ModelFile) (offset : ℤ) : Whence → ℤ
  | .set => offset
  | .cur => m.pos + offset
  | .end_ => m.content.length + offset

/-- A seek before the start fails and leaves the position. -/
def seek (m : ModelFile) (offset : ℤ) (whence : Whence) : Option ℤ × ModelFile :=
  if m.target offset whence < 0 then (none, m)
  else (some (m.target offset whence), { m with pos := (m.target offset whence).toNat })

theorem write_nil (m : ModelFile) : m.write [] = m := by rw [write, overwrite_nil]; rfl

theorem write_append (m : ModelFile) (data more : Bytes) :
    (m.write data).write more = m.write (data ++ more) := by
  rw [write, write, write, overwrite_append, List.length_append, Nat.add_assoc]

theorem end_of_write {m : ModelFile} (h : m.content.length ≤ m.pos) (data : Bytes) :
    (m.write data).content.length ≤ (m.write data).pos := by
  by_cases hdata : data = []
  · rwa [hdata, write_nil]
  · rw [write, length_overwrite _ _ _ hdata]
    change _ ≤ m.pos + data.length
    omega

end ModelFile

/-! ### The stream between two calls -/

def Stream.putArea (s : Stream) : Bytes := slice s.buf s.writeBase (s.writePtr - s.writeBase)

/-- The stream may be read and written, at any position. -/
structure Stream.Open (s : Stream) : Prop where
  appending : s.appending = false
  noReads : s.noReads = false
  noWrites : s.noWrites = false

/-- The stream knows the kernel's position or nothing about it, and its pointers are in order. -/
structure Updatable (st : State Disk) (m : ModelFile) : Prop extends st.s.Open where
  offset : ∀ pos, st.s.offset = some pos → pos = st.k.pos
  eof : st.s.eof = true → m.content.length ≤ m.pos
  readPtr : st.s.readPtr ≤ st.s.readEnd
  writePtr : st.s.writePtr ≤ st.s.size
  writeEnd : st.s.writeEnd ≤ st.s.size

/-- Nothing is left to be written, and the get area is a copy of the bytes before the kernel's
position. -/
structure Reading (st : State Disk) (m : ModelFile) : Prop extends Updatable st m where
  content : m.content = st.k.content
  position : m.pos + st.s.readEnd = st.k.pos + st.s.readPtr
  readEnd : st.s.readEnd ≤ st.s.size
  behind : st.s.readEnd ≤ st.k.pos
  copy : st.s.buf.take st.s.readEnd = slice st.k.content (st.k.pos - st.s.readEnd) st.s.readEnd
  nothing : st.s.writePtr = st.s.writeBase
  ready : st.s.null = true ∨ st.s.buf ≠ []
  fresh : st.s.null = true → st.s.readEnd = 0 ∧ st.s.putting = false
  idle : st.s.putting = false → st.s.writeEnd ≤ st.s.writePtr
  emptied : st.s.putting = true → st.s.readEnd = 0 ∧ st.s.writePtr = 0

/-- The put area is to be written where its start is from the kernel's position. -/
structure Writing (st : State Disk) (m : ModelFile) : Prop extends Updatable st m where
  putting : st.s.putting = true
  notNull : st.s.null = false
  base_lt : st.s.writeBase < st.s.size
  base_le : st.s.writeBase ≤ st.s.writePtr
  reach : st.s.readEnd ≤ st.k.pos + st.s.writeBase
  content : m.content =
    overwrite 0 st.k.content (st.k.pos + st.s.writeBase - st.s.readEnd) st.s.putArea
  position : m.pos + st.s.readEnd = st.k.pos + st.s.writePtr

/-- There are bytes to be written, or both areas start with the buffer. -/
def Settled (s : Stream) : Prop := s.writeBase < s.writePtr ∨ s.readEnd = 0 ∧ s.writePtr = 0

variable {s : Stream}

theorem Stream.length_putArea (h : s.writePtr ≤ s.size) :
    s.putArea.length = s.writePtr - s.writeBase := by
  rw [putArea, length_slice]
  change min _ (s.size - _) = _
  omega

theorem Stream.putArea_eq_nil (h : s.writePtr = s.writeBase) : s.putArea = [] := by
  rw [putArea, h, Nat.sub_self]
  rfl

variable {m : ModelFile} {st : State Disk}

theorem Reading.settled (h : Reading st m)
    (hputting : st.s.putting = true) : Settled st.s := .inr (h.emptied hputting)

/-- A stream in put mode without bytes to be written can be seen both ways. -/
theorem Reading.writing (h : Reading st m) (hputting : st.s.putting = true) : Writing st m := by
  have hnull : st.s.null = false := by
    by_contra hnull
    rw [(h.fresh (by simpa using hnull)).2] at hputting
    exact Bool.false_ne_true hputting
  have hbuf : st.s.buf ≠ [] := h.ready.resolve_left (by rw [hnull]; exact Bool.false_ne_true)
  have hsize : 0 < st.s.size := List.length_pos_of_ne_nil hbuf
  have hzero := h.emptied hputting
  have hbase := h.nothing
  have hptr := h.readPtr
  have hpos := h.position
  constructor
  case toUpdatable => exact h.toUpdatable
  case putting => exact hputting
  case notNull => exact hnull
  case content =>
    rw [Stream.putArea_eq_nil h.nothing, overwrite_nil]
    exact h.content
  all_goals omega

theorem Writing.reading (h : Writing st m) (hsettled : Settled st.s)
    (hnothing : st.s.writePtr = st.s.writeBase) : Reading st m := by
  have hzero : st.s.readEnd = 0 ∧ st.s.writePtr = 0 := by
    apply hsettled.resolve_left
    omega
  have hsize := h.base_lt
  have hpos := h.position
  have hread := h.readPtr
  constructor
  case toUpdatable => exact h.toUpdatable
  case content => rw [h.content, Stream.putArea_eq_nil hnothing, overwrite_nil]
  case copy =>
    rw [hzero.1]
    rfl
  case ready => exact .inr (List.ne_nil_of_length_pos (by exact Nat.zero_lt_of_lt hsize))
  case fresh =>
    intro hnull
    rw [h.notNull] at hnull
    exact absurd hnull Bool.false_ne_true
  case idle =>
    intro hidle
    rw [h.putting] at hidle
    exact absurd hidle.symm Bool.false_ne_true
  case emptied => exact fun _ => hzero
  all_goals omega

variable (alloc : Alloc)

/-! ### Writes -/

/-- An empty put area at an offset, when the get area ends at another. -/
def Stream.putAt (s : Stream) (ptr end_ : ℕ) : Stream :=
  { s with
    writePtr := ptr, writeBase := ptr, writeEnd := if s.buffering = .full then s.size else ptr
    readBase := end_, readPtr := end_, readEnd := end_
    putting := true }

theorem startPutting_eq (hnull : s.null = false) (hidle : s.putting = false) :
    startPutting alloc s =
      if s.readPtr = s.size then s.putAt 0 0 else s.putAt s.readPtr s.readEnd := by
  simp only [startPutting, hidle, hnull, Bool.false_and, Bool.false_eq_true, if_false]
  by_cases hend : s.readPtr = s.size
  · simp only [hend, if_true, Stream.putAt]
    split_ifs
    · rw [hnull]; rfl
    · rw [hnull]
  · simp only [hend, if_false, Stream.putAt]
    split_ifs
    · rfl
    · rfl

theorem startPutting_null (hnull : s.null = true) :
    startPutting alloc s = ((doallocbuf alloc s).setg 0 0 0).putAt 0 0 := by
  obtain ⟨buf, buffering, hbuf, -, halloc⟩ := doallocbuf_eq alloc s
  have hsize : ¬0 = buf.length := (List.length_pos_of_ne_nil hbuf).ne
  simp only [startPutting, hnull, Bool.not_true, Bool.and_false, Bool.false_eq_true, if_false, if_true,
    halloc]
  by_cases hfull : buffering = .full <;>
    simp [hfull, hsize, Stream.putAt, Stream.setg, Stream.size]

theorem Writing.putAt (h : Updatable st m) (hnull : st.s.null = false)
    (hcontent : m.content = st.k.content) {ptr end_ : ℕ} (hptr : ptr < st.s.size)
    (hpos : m.pos + end_ = st.k.pos + ptr) : Writing ⟨st.s.putAt ptr end_, st.k⟩ m := by
  constructor
  case toUpdatable =>
    refine { h with readPtr := le_refl _, writePtr := hptr.le, writeEnd := ?_ }
    simp only [Stream.putAt, Stream.size]
    split_ifs
    · exact le_refl _
    · exact hptr.le
  case putting => rfl
  case notNull => exact hnull
  case base_lt => exact hptr
  case base_le => exact le_refl _
  case reach =>
    change end_ ≤ st.k.pos + ptr
    omega
  case content =>
    rw [Stream.putArea_eq_nil rfl, overwrite_nil]
    exact hcontent
  case position => exact hpos

theorem startPutting_reading (h : Reading st m) (hidle : st.s.putting = false) :
    Writing ⟨startPutting alloc st.s, st.k⟩ m := by
  have hpos := h.position
  have hptr := h.readPtr
  have hend := h.readEnd
  cases hnull : st.s.null with
  | true =>
    obtain ⟨buf, buffering, hbuf, hold, halloc⟩ := doallocbuf_eq alloc st.s
    have hzero := (h.fresh hnull).1
    have hsize : st.s.size ≤ buf.length := hold.length_le
    have hfresh : Updatable ⟨(doallocbuf alloc st.s).setg 0 0 0, st.k⟩ m := by
      rw [halloc]
      exact ⟨⟨h.appending, h.noReads, h.noWrites⟩, h.offset, h.eof, le_refl _, h.writePtr.trans hsize,
        h.writeEnd.trans hsize⟩
    rw [startPutting_null alloc hnull]
    apply Writing.putAt hfresh rfl h.content
    · rw [halloc]
      exact List.length_pos_of_ne_nil hbuf
    · change m.pos + 0 = st.k.pos + 0
      omega
  | false =>
    have hbuf : st.s.buf ≠ [] := h.ready.resolve_left (by rw [hnull]; exact Bool.false_ne_true)
    have hsize : 0 < st.s.size := List.length_pos_of_ne_nil hbuf
    rw [startPutting_eq alloc hnull hidle]
    split_ifs with hfull
    · exact .putAt h.toUpdatable hnull h.content hsize (by omega)
    · exact .putAt h.toUpdatable hnull h.content (by omega) hpos

theorem startPutting_writing (h : Writing st m) : startPutting alloc st.s = st.s := by
  rw [startPutting, h.putting, h.notNull]
  rfl

theorem offset_map {offset : Option ℕ} {pos n : ℕ} (h : ∀ p, offset = some p → p = pos) :
    ∀ p, offset.map (· + n) = some p → p = pos + n := by
  intro p hmap
  obtain ⟨old, hold, rfl⟩ := Option.map_eq_some_iff.mp hmap
  rw [h old hold]

/-- `new_do_write` writes everything at the start of the put area and empties both areas. -/
theorem newDoWrite_disk (h : Writing st m) (data : Bytes) :
    ∃ offset d, newDoWrite Disk.kernel st data =
        (data.length, ⟨{ st.s.resetAreas with offset := offset }, d⟩) ∧
      (∀ pos, offset = some pos → pos = d.pos) ∧
      d.content =
        overwrite 0 st.k.content (st.k.pos + st.s.writeBase - st.s.readEnd) data ∧
      d.pos + st.s.readEnd = st.k.pos + st.s.writeBase + data.length := by
  have hreach := h.reach
  rw [newDoWrite, h.appending, if_neg Bool.false_ne_true]
  by_cases hsame : st.s.readEnd = st.s.writeBase
  · obtain ⟨d, hrun, hcontent, hpos⟩ := Disk.writeLoop_spec st.k data
    rw [if_neg (not_not.mpr hsame)]
    refine ⟨st.s.offset.map (· + data.length), d, ?_, hpos ▸ offset_map h.offset, ?_, by omega⟩
    · simp [fileWrite, hrun, Stream.resetAreas, Stream.setg, Stream.size]
    · rw [hcontent]
      congr 1
      omega
  · have htarget : st.k.target (st.s.writeBase - st.s.readEnd) .cur =
        (st.k.pos + st.s.writeBase - st.s.readEnd : ℕ) := by
      rw [Disk.target]
      omega
    obtain ⟨d, hrun, hcontent, hpos⟩ := Disk.writeLoop_spec
      { st.k with pos := st.k.pos + st.s.writeBase - st.s.readEnd } data
    rw [if_pos hsame, Disk.seek_of_target htarget]
    refine ⟨some (st.k.pos + st.s.writeBase - st.s.readEnd + data.length), d, ?_, ?_, hcontent, ?_⟩
    · simp [fileWrite, hrun, Stream.resetAreas, Stream.setg, Stream.size]
    · rintro pos ⟨⟩
      exact hpos.symm
    · change d.pos = st.k.pos + st.s.writeBase - st.s.readEnd + data.length at hpos
      omega

theorem Writing.reset {m' : ModelFile} (h : Writing st m) {offset : Option ℕ}
    {d : Disk} (hoffset : ∀ pos, offset = some pos → pos = d.pos) (hcontent : m'.content = d.content)
    (hpos : m'.pos = d.pos) (heof : st.s.eof = true → m'.content.length ≤ m'.pos) :
    Writing ⟨{ st.s.resetAreas with offset := offset }, d⟩ m' := by
  have hareas : { st.s.resetAreas with offset := offset } =
      Stream.putAt { st.s with offset := offset } 0 0 := by
    simp [Stream.resetAreas, Stream.putAt, Stream.setg, Stream.size, h.putting, h.notNull]
  have hupdatable : Updatable ⟨{ st.s with offset := offset }, d⟩ m' :=
    { h.toUpdatable with offset := hoffset, eof := heof }
  rw [hareas]
  exact .putAt hupdatable h.notNull hcontent (Nat.zero_lt_of_lt h.base_lt) hpos

theorem doFlush_disk (h : Writing st m) :
    ∃ st', doFlush Disk.kernel st = .ok (true, st') ∧ Writing st' m ∧
      st'.s.writePtr = st'.s.writeBase ∧ (Settled st.s → Settled st'.s) := by
  have hbase := h.base_le
  have hlen := Stream.length_putArea h.writePtr
  have hload : st.s.load st.s.writeBase st.s.writePtr = .ok st.s.putArea := if_pos ⟨hbase, h.writePtr⟩
  rw [doFlush, hload]
  by_cases hnothing : st.s.putArea = []
  · refine ⟨st, ?_, h, ?_, id⟩
    · rw [hnothing]
      rfl
    · rw [hnothing, List.length_nil] at hlen
      omega
  · obtain ⟨offset, d, hrun, hoffset, hcontent, hpos⟩ := newDoWrite_disk h st.s.putArea
    have hwrite : doWrite Disk.kernel st st.s.putArea =
        (true, ⟨{ st.s.resetAreas with offset := offset }, d⟩) := by
      rw [doWrite, if_neg hnothing, hrun]
      simp
    have hold := h.position
    refine ⟨_, congrArg Except.ok hwrite, h.reset hoffset ?_ ?_ h.eof, rfl, fun _ => .inr ⟨rfl, rfl⟩⟩
    · rw [hcontent, h.content]
    · omega

theorem startPutting_disk (h : Reading st m ∨ Writing st m) :
    Writing ⟨startPutting alloc st.s, st.k⟩ m ∧
      (st.s.putting = true → Settled st.s → Settled (startPutting alloc st.s)) := by
  have hwriting : Writing st m → Writing ⟨startPutting alloc st.s, st.k⟩ m ∧
      (st.s.putting = true → Settled st.s → Settled (startPutting alloc st.s)) := by
    intro h
    rw [startPutting_writing alloc h]
    exact ⟨h, fun _ => id⟩
  cases h with
  | inr h => exact hwriting h
  | inl h =>
    cases hputting : st.s.putting with
    | true =>
      have hboth := hwriting (h.writing hputting)
      exact ⟨hboth.1, fun _ => hboth.2 hputting⟩
    | false => exact ⟨startPutting_reading alloc h hputting, fun h => absurd h Bool.false_ne_true⟩

theorem overflowEof_disk (h : Reading st m ∨ Writing st m) :
    ∃ st', overflowEof Disk.kernel alloc st = .ok (true, st') ∧ Writing st' m ∧
      st'.s.writePtr = st'.s.writeBase ∧ (st.s.putting = true → Settled st.s → Settled st'.s) := by
  have hnoWrites : st.s.noWrites = false := h.elim (·.noWrites) (·.noWrites)
  obtain ⟨hstart, hkept⟩ := startPutting_disk alloc h
  obtain ⟨st', hrun, hwriting, hnothing, hsettled⟩ := doFlush_disk hstart
  refine ⟨st', ?_, hwriting, hnothing, fun hput hold => hsettled (hkept hput hold)⟩
  rw [overflowEof, hnoWrites, if_neg Bool.false_ne_true]
  exact hrun

variable {data : Bytes}

theorem Stream.putArea_stored (hbase : s.writeBase ≤ s.writePtr)
    (hptr : s.writePtr ≤ s.size) : (s.stored data).putArea = s.putArea ++ data := by
  have htake : (s.buf.take s.writePtr).length = s.writePtr := by
    rw [List.length_take]
    exact Nat.min_eq_left hptr
  have hold : s.putArea = (s.buf.take s.writePtr).drop s.writeBase := by rw [List.drop_take]; rfl
  rw [hold]
  change ((s.buf.take s.writePtr ++ data ++ s.buf.drop (s.writePtr + data.length)).drop s.writeBase).take
    (s.writePtr + data.length - s.writeBase) = _
  rw [List.append_assoc, List.drop_append_of_le_length (by omega), ← List.append_assoc]
  apply List.take_left'
  rw [List.length_append, List.length_drop, htake]
  omega

theorem Settled.stored (hbase : s.writeBase ≤ s.writePtr)
    (h : data ≠ [] ∨ Settled s) : Settled (s.stored data) := by
  by_cases hdata : data = []
  · have hsame : s.writePtr + data.length = s.writePtr := by rw [hdata]; rfl
    have hold := h.resolve_left (not_not.mpr hdata)
    unfold Settled Stream.stored at *
    rwa [hsame]
  · apply Or.inl
    have := List.length_pos_of_ne_nil hdata
    change s.writeBase < s.writePtr + data.length
    omega

/-- Bytes stored in the put area are written to the file that the stream stands for. -/
theorem Writing.stored (h : Writing st m) (hroom : st.s.writePtr + data.length ≤ st.s.size) :
    Writing ⟨st.s.stored data, st.k⟩ (m.write data) := by
  have hsize : (st.s.stored data).size = st.s.size := by
    simp only [Stream.stored, Stream.size, List.length_append, List.length_take, List.length_drop] at *
    omega
  have hbase := h.base_le
  have hpos := h.position
  have hreach := h.reach
  refine { h with
    eof := fun heof => ModelFile.end_of_write (h.eof heof) data
    writePtr := hroom.trans_eq hsize.symm
    writeEnd := h.writeEnd.trans_eq hsize.symm
    base_lt := h.base_lt.trans_eq hsize.symm
    base_le := hbase.trans (Nat.le_add_right _ _)
    content := ?_
    position := ?_ }
  · have hstart : m.pos = st.k.pos + st.s.writeBase - st.s.readEnd + st.s.putArea.length := by
      rw [Stream.length_putArea h.writePtr]
      omega
    rw [Stream.putArea_stored hbase h.writePtr, ModelFile.write]
    rw [h.content, hstart, overwrite_append]
    rfl
  · change m.pos + data.length + st.s.readEnd = st.k.pos + (st.s.writePtr + data.length)
    omega

end AwaitGlibc.FileStream
