import AwaitGlibc.UpdateStreamOutput

/-! Flushes, reads and `ftell` of update streams. Each read finds the bytes of the file that the
stream stands for, at its position. -/
namespace AwaitGlibc.FileStream
open CheckedArray FileContent

variable (alloc : Alloc)

namespace ModelFile

theorem read_of_end {m : ModelFile} (h : m.content.length ≤ m.pos) (n : ℕ) : m.read n = ([], m) := by
  rw [read, slice_eq_nil h]
  rfl

theorem read_add (m : ModelFile) {n : ℕ} (h : (m.read n).1.length = n) (k : ℕ) :
    m.read (n + k) = ((m.read n).1 ++ ((m.read n).2.read k).1, ((m.read n).2.read k).2) := by
  change (slice m.content m.pos n).length = n at h
  simp only [read, slice_add, h, List.length_append, Nat.add_assoc]

end ModelFile

/-! ### The get area -/

variable {s : Stream}

theorem Stream.store_start {data : Bytes} (h : data.length ≤ s.size) :
    s.store 0 data = .ok { s with buf := data ++ s.buf.drop data.length } := by
  rw [store, Nat.zero_add, if_pos h]
  rfl

theorem Stream.loadByte_of_some {i : ℕ} {b : UInt8} (h : s.buf[i]? = some b) :
    s.loadByte i = .ok b := by rw [loadByte, h]

variable {m : ModelFile} {st : State Disk}

theorem Reading.chunk (h : Reading st m) {n : ℕ} (hn : n ≤ st.s.readEnd - st.s.readPtr) :
    slice st.s.buf st.s.readPtr n = (m.read n).1 ∧ (m.read n).1.length = n := by
  have hptr := h.readPtr
  have hend := h.readEnd
  have hpos := h.position
  have hbehind := h.behind
  have hcopy : slice st.s.buf 0 st.s.readEnd = slice st.k.content (st.k.pos - st.s.readEnd) st.s.readEnd :=
    h.copy
  have hsame : slice st.s.buf st.s.readPtr n = (m.read n).1 := by
    calc slice st.s.buf st.s.readPtr n
        = slice (slice st.s.buf 0 st.s.readEnd) st.s.readPtr n := by
          rw [slice_slice _ (by omega), Nat.zero_add]
      _ = slice st.k.content (st.k.pos - st.s.readEnd + st.s.readPtr) n := by
          rw [hcopy, slice_slice _ (by omega)]
      _ = (m.read n).1 := by
          rw [ModelFile.read, h.content]
          congr 1
          omega
  refine ⟨hsame, ?_⟩
  rw [← hsame, length_slice]
  change min n (st.s.size - _) = n
  omega

theorem Reading.advance (h : Reading st m) {n : ℕ} (hn : n ≤ st.s.readEnd - st.s.readPtr) :
    Reading ⟨{ st.s with readPtr := st.s.readPtr + n }, st.k⟩ (m.read n).2 := by
  have hlen : (slice m.content m.pos n).length = n := (h.chunk hn).2
  have hptr := h.readPtr
  have hpos := h.position
  refine { h with
    eof := fun heof => (h.eof heof).trans (Nat.le_add_right _ _)
    readPtr := ?_
    position := ?_ }
  · change st.s.readPtr + n ≤ st.s.readEnd
    omega
  · rw [ModelFile.read, hlen]
    change m.pos + n + st.s.readEnd = st.k.pos + (st.s.readPtr + n)
    omega

/-- A get area at the start of the buffer, and an empty put area. -/
def Stream.placed (s : Stream) (buf : Bytes) (ptr end_ : ℕ) (offset : Option ℕ) (eof : Bool) : Stream :=
  { (s.setg 0 ptr end_).setp 0 0 with buf := buf, offset := offset, eof := eof }

theorem Reading.placed (h : s.Open) {d : Disk} {buf : Bytes} {ptr end_ : ℕ}
    {offset : Option ℕ} {eof : Bool} (hbuf : buf ≠ []) (hend : end_ ≤ buf.length) (hptr : ptr ≤ end_)
    (hputting : s.putting = true → end_ = 0) (hoffset : ∀ pos, offset = some pos → pos = d.pos)
    (heof : eof = true → m.content.length ≤ m.pos) (hcontent : m.content = d.content)
    (hpos : m.pos + end_ = d.pos + ptr) (hbehind : end_ ≤ d.pos)
    (hcopy : buf.take end_ = slice d.content (d.pos - end_) end_) :
    Reading ⟨s.placed buf ptr end_ offset eof, d⟩ m := by
  constructor
  case toUpdatable =>
    exact ⟨⟨h.appending, h.noReads, h.noWrites⟩, hoffset, heof, hptr, Nat.zero_le _, Nat.zero_le _⟩
  case content => exact hcontent
  case position => exact hpos
  case readEnd => exact hend
  case behind => exact hbehind
  case copy => exact hcopy
  case nothing => rfl
  case ready => exact .inr hbuf
  case fresh => exact fun hnull => absurd hnull Bool.false_ne_true
  case idle => exact fun _ => le_refl _
  case emptied => exact fun h => ⟨hputting h, rfl⟩

theorem Reading.rewound (h : s.Open) {d : Disk} {buf : Bytes}
    {offset : Option ℕ} {eof : Bool} (hbuf : buf ≠ [])
    (hoffset : ∀ pos, offset = some pos → pos = d.pos)
    (heof : eof = true → m.content.length ≤ m.pos) (hcontent : m.content = d.content)
    (hpos : m.pos = d.pos) : Reading ⟨s.placed buf 0 0 offset eof, d⟩ m :=
  .placed h hbuf (Nat.zero_le _) (le_refl _) (fun _ => rfl) hoffset heof hcontent hpos (Nat.zero_le _) rfl

theorem Reading.allocated (h : Reading st m) :
    Reading ⟨doallocbuf alloc st.s, st.k⟩ m := by
  obtain ⟨buf, buffering, hbuf, hold, halloc⟩ := doallocbuf_eq alloc st.s
  have hsize : st.s.size ≤ buf.length := hold.length_le
  rw [halloc]
  refine { h with
    writePtr := h.writePtr.trans hsize
    writeEnd := h.writeEnd.trans hsize
    readEnd := h.readEnd.trans hsize
    copy := ?_
    ready := .inr hbuf }
  obtain ⟨tail, rfl⟩ := hold
  exact (List.take_append_of_le_length h.readEnd).trans h.copy

/-! ### Refills -/

/-- The switch only moves the read pointer when nothing is left to be written. -/
theorem switchToGetMode_nothing (h : st.s.writePtr = st.s.writeBase) :
    switchToGetMode Disk.kernel alloc st = .ok (true, ⟨st.s.getMode, st.k⟩) := by
  rw [switchToGetMode, overflowPending, if_neg (by omega)]
  rfl

/-- A stream in put mode that has nothing to be written goes over to get mode as it is. -/
theorem Reading.getMode (h : Reading st m) (hputting : st.s.putting = true) :
    Reading ⟨st.s.getMode, st.k⟩ m ∧ st.s.getMode.readPtr = st.s.readPtr ∧
      st.s.getMode.readEnd = st.s.readEnd := by
  have hzero := h.emptied hputting
  have hptr := h.readPtr
  have hpos := h.position
  have hmode : st.s.getMode = { st.s with
      readBase := 0, readEnd := 0, readPtr := 0, writeBase := 0, writePtr := 0, writeEnd := 0,
      putting := false } := by
    simp [Stream.getMode, hzero.1, hzero.2]
  have hptr' : st.s.readPtr = 0 := by omega
  rw [hmode]
  refine ⟨{ h with
    readPtr := le_refl _
    writePtr := Nat.zero_le _
    writeEnd := Nat.zero_le _
    position := ?_
    readEnd := Nat.zero_le _
    behind := Nat.zero_le _
    copy := rfl
    nothing := rfl
    fresh := fun _ => ⟨rfl, rfl⟩
    idle := fun _ => le_refl _
    emptied := fun h => absurd h Bool.false_ne_true }, hptr'.symm, hzero.1.symm⟩
  change m.pos + 0 = st.k.pos + 0
  omega

theorem leavePutMode_disk (h : Reading st m) :
    ∃ st', leavePutMode Disk.kernel alloc st = .ok (true, st') ∧ Reading st' m ∧
      st'.s.putting = false ∧ st'.s.readPtr = st.s.readPtr ∧ st'.s.readEnd = st.s.readEnd := by
  unfold leavePutMode
  cases hputting : st.s.putting with
  | false => exact ⟨st, rfl, h, hputting, rfl, rfl⟩
  | true =>
    obtain ⟨hreading, hptr, hend⟩ := h.getMode hputting
    exact ⟨_, switchToGetMode_nothing alloc h.nothing, hreading, rfl, hptr, hend⟩

/-- The read of an underflow, when the kernel is at the position. -/
theorem refill_disk (h : st.s.Open) (heof : st.s.eof = false)
    (hoffset : ∀ pos, st.s.offset = some pos → pos = st.k.pos) (hputting : st.s.putting = false)
    (hbuf : st.s.buf ≠ []) (hcontent : m.content = st.k.content) (hpos : m.pos = st.k.pos) :
    ∃ ch st', refill Disk.kernel st = .ok (ch, st') ∧ Reading st' m ∧ st'.s.putting = false ∧
      (ch = none → m.content.length ≤ m.pos) ∧ (ch ≠ none → st'.s.readPtr < st'.s.readEnd) := by
  have hsize : 0 < st.s.size := List.length_pos_of_ne_nil hbuf
  obtain ⟨data, d, hread, hdata, hle, hcontent', hpos', hend⟩ := Disk.read_spec st.k st.s.size
  have hrun : refill Disk.kernel st =
      if data = [] then .ok (none, ⟨st.s.placed st.s.buf 0 0 none true, d⟩)
      else (do
        let s ← st.s.rewound.store 0 data
        let b ← s.loadByte s.readPtr
        return (some b, ⟨{ s with
          readEnd := s.readEnd + data.length
          offset := s.offset.map (· + data.length) }, d⟩)) := by
    rw [refill, show st.s.rewound.size = st.s.size from rfl]
    simp only [hread]
    rfl
  rw [hrun]
  by_cases hnil : data = []
  · have hlast : m.content.length ≤ m.pos := by
      rw [hcontent, hpos]
      exact hend hsize hnil
    have hsame : m.pos = d.pos := by rw [hpos, hpos', hnil]; rfl
    refine ⟨none, _, if_pos hnil, ?_, hputting, fun _ => hlast, fun h => absurd rfl h⟩
    exact .rewound h hbuf (by simp) (fun _ => hlast) (hcontent.trans hcontent'.symm) hsame
  · have hlen := List.length_pos_of_ne_nil hnil
    have hbuf' : data ++ st.s.buf.drop data.length ≠ [] := by simp [hnil]
    have hfirst : ∃ b, (data ++ st.s.buf.drop data.length)[0]? = some b :=
      ⟨_, List.getElem?_eq_getElem (List.length_pos_of_ne_nil hbuf')⟩
    obtain ⟨b, hb⟩ := hfirst
    refine ⟨some b, ⟨st.s.placed (data ++ st.s.buf.drop data.length) 0 data.length
      (st.s.offset.map (· + data.length)) st.s.eof, d⟩, ?_, ?_, hputting, by simp, fun _ => hlen⟩
    · rw [if_neg hnil, Stream.store_start (s := st.s.rewound) hle, ok_bind]
      rw [Stream.loadByte_of_some hb]
      simp only [Stream.rewound, Stream.setp, Stream.setg, Stream.placed, Nat.zero_add]
      rfl
    · apply Reading.placed h hbuf'
      case hend => rw [List.length_append]; omega
      case hptr => exact Nat.zero_le _
      case hputting => simp [hputting]
      case hoffset => exact hpos' ▸ offset_map hoffset
      case heof => simp [heof]
      case hcontent => exact hcontent.trans hcontent'.symm
      case hpos => omega
      case hbehind => omega
      case hcopy =>
        rw [List.take_left, hcontent', hpos', Nat.add_sub_cancel]
        exact hdata

theorem fileUnderflow_disk (h : Reading st m)
    (hputting : st.s.putting = false) (hempty : st.s.readPtr = st.s.readEnd) :
    ∃ ch st', fileUnderflow Disk.kernel alloc st = .ok (ch, st') ∧ Reading st' m ∧
      st'.s.putting = false ∧ (ch = none → m.content.length ≤ m.pos) ∧
      (ch ≠ none → st'.s.readPtr < st'.s.readEnd) := by
  unfold fileUnderflow
  cases heof : st.s.eof with
  | true => exact ⟨none, st, rfl, h, hputting, fun _ => h.eof heof, fun h => absurd rfl h⟩
  | false =>
    have hpos := h.position
    rw [if_neg Bool.false_ne_true, h.noReads, if_neg Bool.false_ne_true, if_neg (by omega)]
    obtain ⟨buf, buffering, hbuf, -, halloc⟩ := doallocbuf_eq alloc st.s
    have hnothing : (doallocbuf alloc st.s).writePtr = (doallocbuf alloc st.s).writeBase := by
      rw [halloc]
      exact h.nothing
    rw [switchToGetMode_nothing alloc hnothing, halloc]
    exact refill_disk ⟨h.appending, h.noReads, h.noWrites⟩ heof h.offset rfl hbuf h.content
      (by change m.pos = st.k.pos; omega)

theorem underflow_disk (h : Reading st m) (hempty : st.s.readPtr = st.s.readEnd) :
    ∃ ch st', underflow Disk.kernel alloc st = .ok (ch, st') ∧ Reading st' m ∧
      (ch = none → m.content.length ≤ m.pos) ∧ (ch ≠ none → st'.s.readPtr < st'.s.readEnd) := by
  obtain ⟨st₁, hrun₁, hreading₁, hputting₁, hptr₁, hend₁⟩ := leavePutMode_disk alloc h
  have hempty₁ : st₁.s.readPtr = st₁.s.readEnd := by rw [hptr₁, hend₁, hempty]
  obtain ⟨ch, st₂, hrun₂, hreading₂, -, hnone, hsome⟩ := fileUnderflow_disk alloc hreading₁ hputting₁ hempty₁
  refine ⟨ch, st₂, ?_, hreading₂, hnone, hsome⟩
  rw [underflow, hrun₁]
  exact (if_neg (by omega)).trans hrun₂

/-! ### Reads -/

/-- `getc` of the file without a buffer. -/
def ModelFile.getc (m : ModelFile) : Option UInt8 × ModelFile := ((m.read 1).1.head?, (m.read 1).2)

theorem takeByte_disk (h : Reading st m) (hsome : st.s.readPtr < st.s.readEnd) :
    ∃ st', takeByte st = .ok (m.getc.1, st') ∧ Reading st' m.getc.2 := by
  have hlt : st.s.readPtr < st.s.buf.length := hsome.trans_le h.readEnd
  have hbyte : (m.read 1).1.head? = some st.s.buf[st.s.readPtr] := by
    rw [← (h.chunk (by omega)).1, slice, List.head?_take, if_neg one_ne_zero, List.head?_drop,
      List.getElem?_eq_getElem hlt]
  refine ⟨_, ?_, h.advance (n := 1) (by omega)⟩
  rw [takeByte, Stream.loadByte_of_some (List.getElem?_eq_getElem hlt), ModelFile.getc, hbyte]
  rfl

theorem ModelFile.getc_of_end (h : m.content.length ≤ m.pos) : m.getc = (none, m) := by
  rw [getc, read_of_end h]
  rfl

theorem getc_disk (h : Reading st m) :
    ∃ st', getc Disk.kernel alloc st = .ok (m.getc.1, st') ∧ Reading st' m.getc.2 := by
  unfold getc
  split_ifs with hempty
  · obtain ⟨st₁, hrun₁, hreading₁, hputting₁, hptr₁, hend₁⟩ := leavePutMode_disk alloc h
    have hptr := h.readPtr
    have hempty₁ : st₁.s.readPtr = st₁.s.readEnd := by omega
    obtain ⟨ch, st₂, hrun₂, hreading₂, -, hnone, hsome⟩ :=
      fileUnderflow_disk alloc hreading₁ hputting₁ hempty₁
    have hrun : uflow Disk.kernel alloc st = defaultUflow Disk.kernel alloc st₁ := by
      rw [uflow, hrun₁]
      exact if_neg (by omega)
    rw [hrun, defaultUflow, hrun₂]
    cases ch with
    | none =>
      rw [ModelFile.getc_of_end (hnone rfl)]
      exact ⟨st₂, rfl, hreading₂⟩
    | some b => exact takeByte_disk hreading₂ (hsome (Option.some_ne_none b))
  · exact takeByte_disk h (by omega)

/-- A read around the buffer delivers some of the bytes at the position. -/
theorem directRead_disk (h : Reading st m) (hbuf : st.s.buf ≠ [])
    (hempty : st.s.readPtr = st.s.readEnd) {want : ℕ} (hwant : st.s.size ≤ want) :
    ∃ part st', directRead Disk.kernel st want = (part, st') ∧ st'.s.buf ≠ [] ∧
      st'.s.readPtr = st'.s.readEnd ∧
      match part with
      | none => Reading st' m ∧ m.content.length ≤ m.pos
      | some data => data = (m.read data.length).1 ∧ 0 < data.length ∧ data.length ≤ want ∧
          Reading st' (m.read data.length).2 := by
  have hsize : 0 < st.s.size := List.length_pos_of_ne_nil hbuf
  obtain ⟨count, hcount⟩ : ∃ count, count =
    want - (if st.s.size ≥ 128 then want % st.s.size else 0) := ⟨_, rfl⟩
  have hpositive : 0 < count := by
    have hmod := Nat.mod_lt want hsize
    split_ifs at hcount <;> omega
  obtain ⟨data, d, hread, hdata, hle, hcontent, hpos, hend⟩ := Disk.read_spec st.k count
  have hrun : directRead Disk.kernel st want =
      if data = [] then (none, ⟨st.s.placed st.s.buf 0 0 st.s.offset true, d⟩)
      else (some data, ⟨st.s.placed st.s.buf 0 0 (st.s.offset.map (· + data.length)) st.s.eof, d⟩) := by
    simp only [directRead, show st.s.rewound.size = st.s.size from rfl, ← hcount, hread]
    rfl
  have hold := h.position
  have hmpos : m.pos = st.k.pos := by omega
  rw [hrun]
  by_cases hnil : data = []
  · have hlast : m.content.length ≤ m.pos := by
      rw [h.content, hmpos]
      exact hend hpositive hnil
    have hsame : d.pos = st.k.pos := by rw [hpos, hnil]; rfl
    refine ⟨none, _, if_pos hnil, hbuf, rfl, ?_, hlast⟩
    apply Reading.rewound h.toOpen hbuf _ (fun _ => hlast) (h.content.trans hcontent.symm) (by omega)
    intro pos hoffset
    rw [h.offset pos hoffset, hsame]
  · have hpart : data = (m.read data.length).1 := by
      rw [ModelFile.read, h.content, hmpos]
      exact hdata
    refine ⟨some data, _, if_neg hnil, hbuf, rfl, hpart, List.length_pos_of_ne_nil hnil, by omega, ?_⟩
    have hnext : (m.read data.length).2 = ⟨m.content, m.pos + data.length⟩ :=
      congrArg (fun part : Bytes => ModelFile.mk m.content (m.pos + part.length)) hpart.symm
    rw [hnext]
    apply Reading.rewound h.toOpen hbuf
    · exact hpos ▸ offset_map h.offset
    · exact fun heof => (h.eof heof).trans (Nat.le_add_right _ _)
    · exact h.content.trans hcontent.symm
    · change m.pos + data.length = d.pos
      omega

/-- The loop of `fread`. Every second round at least takes a byte. -/
theorem getLoop_disk (fuel : ℕ) (h : Reading st m) (hbuf : st.s.buf ≠ []) (want : ℕ)
    (hfuel : 2 * want + (if st.s.readPtr < st.s.readEnd then 0 else 1) < fuel) :
    ∃ st', getLoop Disk.kernel alloc fuel st want = .ok ((m.read want).1, st') ∧
      Reading st' (m.read want).2 := by
  induction fuel generalizing st m want with
  | zero => omega
  | succ fuel ih =>
    rw [getLoop]
    by_cases hzero : want = 0
    · rw [if_pos hzero, hzero]
      exact ⟨st, rfl, h⟩
    rw [if_neg hzero]
    have hptr := h.readPtr
    have hend := h.readEnd
    by_cases henough : want ≤ st.s.readEnd - st.s.readPtr
    · have hload : st.s.load st.s.readPtr (st.s.readPtr + want) = .ok (m.read want).1 := by
        rw [← (h.chunk henough).1, Stream.load, if_pos ⟨by omega, by omega⟩, Nat.add_sub_cancel_left]
        rfl
      rw [if_pos henough, hload]
      exact ⟨_, rfl, h.advance henough⟩
    · obtain ⟨count, hcount⟩ : ∃ count, count = st.s.readEnd - st.s.readPtr := ⟨_, rfl⟩
      obtain ⟨rest, hrest⟩ : ∃ rest, rest = want - count := ⟨_, rfl⟩
      obtain ⟨hchunk, hlen⟩ := h.chunk hcount.le
      have hload : st.s.load st.s.readPtr st.s.readEnd = .ok (m.read count).1 := by
        rw [← hchunk, hcount]
        exact if_pos ⟨hptr, hend⟩
      have hnext := h.advance hcount.le
      rw [show st.s.readPtr + count = st.s.readEnd by omega] at hnext
      have hsplit := m.read_add hlen rest
      rw [show count + rest = want by omega] at hsplit
      rw [if_neg henough, hload, ← hcount]
      simp only [← hrest]
      generalize m.read count = taken at *
      by_cases hsmall : rest < st.s.size
      · -- through the buffer
        obtain ⟨ch, st₁, hrun₁, hreading₁, hnone, hsome⟩ := underflow_disk alloc hnext rfl
        cases ch with
        | none =>
          have hnothing := ModelFile.read_of_end (hnone rfl) rest
          rw [hnothing] at hsplit
          refine ⟨st₁, (if_pos hsmall).trans ?_, ?_⟩
          · rw [hrun₁, hsplit, List.append_nil]
            rfl
          · rwa [hsplit]
        | some b =>
          have hlt := hsome (Option.some_ne_none b)
          have hbuf₁ : st₁.s.buf ≠ [] := by
            apply List.ne_nil_of_length_pos
            exact (Nat.zero_lt_of_lt hlt).trans_le hreading₁.readEnd
          obtain ⟨st₂, hrun₂, hreading₂⟩ := ih hreading₁ hbuf₁ rest (by
            rw [if_pos hlt]
            split_ifs at hfuel <;> omega)
          refine ⟨st₂, (if_pos hsmall).trans ?_, by rwa [hsplit]⟩
          rw [hrun₁]
          change (getLoop Disk.kernel alloc fuel st₁ rest >>= _) = _
          rw [hrun₂, hsplit]
          rfl
      · -- around the buffer
        obtain ⟨part, st₁, hrun₁, hbuf₁, hempty₁, hpart⟩ :=
          directRead_disk hnext hbuf rfl (Nat.le_of_not_lt hsmall)
        cases part with
        | none =>
          have hnothing := ModelFile.read_of_end hpart.2 rest
          rw [hnothing] at hsplit
          refine ⟨st₁, (if_neg hsmall).trans ?_, ?_⟩
          · rw [hrun₁, hsplit, List.append_nil]
            rfl
          · rw [hsplit]
            exact hpart.1
        | some data =>
          obtain ⟨hdata, hpositive, hle, hreading₁⟩ := hpart
          have hsplit' := taken.2.read_add (congrArg List.length hdata).symm (rest - data.length)
          rw [Nat.add_sub_cancel' hle, ← hdata] at hsplit'
          obtain ⟨st₂, hrun₂, hreading₂⟩ := ih hreading₁ hbuf₁ (rest - data.length) (by
            rw [if_neg (by omega)]
            split_ifs at hfuel <;> omega)
          refine ⟨st₂, (if_neg hsmall).trans ?_, by rwa [hsplit, hsplit']⟩
          rw [hrun₁]
          change (getLoop Disk.kernel alloc fuel st₁ (rest - data.length) >>= _) = _
          rw [hrun₂, hsplit, hsplit']
          exact congrArg (fun part => Except.ok (part, st₂)) (List.append_assoc _ _ _)

theorem fread_disk (h : Reading st m) (n : ℕ) :
    ∃ st', fread Disk.kernel alloc st n = .ok ((m.read n).1, st') ∧ Reading st' (m.read n).2 := by
  unfold fread
  split_ifs with hzero
  · rw [hzero]
    exact ⟨st, rfl, h⟩
  · obtain ⟨buf, buffering, hbuf, -, halloc⟩ := doallocbuf_eq alloc st.s
    have hbuf : (doallocbuf alloc st.s).buf ≠ [] := by rwa [halloc]
    exact getLoop_disk alloc _ (h.allocated alloc) hbuf n (by split_ifs <;> omega)

/-! ### Flushes and positions -/

theorem Between.reading (h : Between st m)
    (hnothing : ¬st.s.writePtr > st.s.writeBase) : Reading st m := by
  cases h with
  | inl h => exact h
  | inr h =>
    have hbase := h.1.base_le
    exact h.1.reading h.2 (by omega)

theorem Between.writing (h : Between st m)
    (hpending : st.s.writePtr > st.s.writeBase) : Writing st m := by
  cases h with
  | inr h => exact h.1
  | inl h =>
    have := h.nothing
    omega

theorem flushPending_disk (h : Between st m) :
    ∃ st', flushPending Disk.kernel st = .ok (true, st') ∧ Reading st' m := by
  unfold flushPending
  split_ifs with hpending
  · obtain ⟨st', hrun, hwriting, hnothing, hsettled⟩ := doFlush_disk (h.writing hpending)
    exact ⟨st', hrun, hwriting.reading (hsettled (.inl hpending)) hnothing⟩
  · exact ⟨st, rfl, h.reading hpending⟩

theorem syncGetArea_disk (h : Reading st m) :
    ∃ st', syncGetArea Disk.kernel st = (true, st') ∧ Reading st' m := by
  have hptr := h.readPtr
  have hpos := h.position
  have hbehind := h.behind
  unfold syncGetArea
  split_ifs with hahead
  · have htarget : st.k.target (st.s.readPtr - st.s.readEnd) .cur = m.pos := by
      rw [Disk.target]
      omega
    rw [Disk.seek_of_target htarget]
    refine ⟨_, rfl, ?_⟩
    refine { h with
      offset := by simp
      readPtr := le_refl _
      position := rfl
      readEnd := hptr.trans h.readEnd
      behind := ?_
      copy := ?_
      fresh := fun hnull => ⟨?_, (h.fresh hnull).2⟩
      emptied := fun hputting => ⟨?_, (h.emptied hputting).2⟩ }
    · change st.s.readPtr ≤ m.pos
      omega
    · have hcopy : slice st.s.buf 0 st.s.readEnd =
        slice st.k.content (st.k.pos - st.s.readEnd) st.s.readEnd := h.copy
      calc slice st.s.buf 0 st.s.readPtr
          = slice (slice st.s.buf 0 st.s.readEnd) 0 st.s.readPtr := by rw [slice_slice _ (by omega)]
        _ = slice st.k.content (st.k.pos - st.s.readEnd) st.s.readPtr := by
          rw [hcopy]
          exact slice_slice _ (by omega)
        _ = slice st.k.content (m.pos - st.s.readPtr) st.s.readPtr := by
          congr 1
          omega
    · exact Nat.le_zero.mp (hptr.trans_eq (h.fresh hnull).1)
    · exact Nat.le_zero.mp (hptr.trans_eq (h.emptied hputting).1)
  · exact ⟨_, rfl, { h with offset := by simp }⟩

/-- `fflush` brings the kernel to the file that the stream stands for. -/
theorem fflush_disk (h : Between st m) :
    ∃ st', fflush Disk.kernel st = .ok (true, st') ∧ Reading st' m := by
  obtain ⟨st₁, hrun₁, hreading₁⟩ := flushPending_disk h
  obtain ⟨st₂, hrun₂, hreading₂⟩ := syncGetArea_disk hreading₁
  refine ⟨st₂, ?_, hreading₂⟩
  rw [fflush, hrun₁]
  exact congrArg Except.ok hrun₂

theorem Between.updatable (h : Between st m) : Updatable st m :=
  h.elim (·.toUpdatable) (·.1.toUpdatable)

theorem Between.ahead (h : Between st m) :
    (st.k.pos : ℤ) + st.s.ahead = m.pos := by
  unfold Stream.ahead
  by_cases hpending : st.s.writePtr > st.s.writeBase
  · have hwriting := h.writing hpending
    have hpos := hwriting.position
    have hbuf : st.s.buf ≠ [] := List.ne_nil_of_length_pos (Nat.zero_lt_of_lt hwriting.base_lt)
    rw [if_neg hbuf, if_neg (not_not.mpr hpending), hwriting.appending, if_neg Bool.false_ne_true]
    omega
  · have hreading := h.reading hpending
    have hpos := hreading.position
    have hptr := hreading.readPtr
    split_ifs with hbuf
    · have hend := hreading.readEnd
      rw [Stream.size, hbuf, List.length_nil] at hend
      omega
    · omega

theorem ftell_disk (h : Between st m) :
    ftell Disk.kernel st = (some m.pos, st) := by
  have hahead := h.ahead
  have hresult : (if st.k.pos + st.s.ahead < 0 then none else some (st.k.pos + st.s.ahead).toNat) =
      some m.pos := by
    rw [hahead, if_neg (by omega), Int.toNat_natCast]
  rw [ftell, h.updatable.appending, if_neg (by simp), tellFrom]
  cases hoffset : st.s.offset with
  | some pos =>
    rw [h.updatable.offset pos hoffset]
    simp only [hresult]
  | none =>
    have htarget : st.k.target 0 .cur = st.k.pos := add_zero _
    rw [Disk.seek_of_target htarget]
    simp only [hresult]

end AwaitGlibc.FileStream
