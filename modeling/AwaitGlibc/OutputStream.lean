import AwaitGlibc.FileStream

/-! Streams that are only written. The bytes that `write` took, followed by the bytes in the
buffer, are the output so far; each call extends it by what it accepts, unless the stream's
error indicator gets set. -/
namespace AwaitGlibc.FileStream
open CheckedArray

variable {K : Type} {alloc : Alloc}

/-- A kernel that also records the bytes that `write` took. -/
def Kernel.logged (kernel : Kernel K) : Kernel (K × Bytes) where
  write k data :=
    match kernel.write k.1 data with
    | (none, k') => (none, k', k.2)
    | (some count, k') => (some count, k', k.2 ++ data.take (count + 1))
  read k n := ((kernel.read k.1 n).1, (kernel.read k.1 n).2, k.2)
  seek k offset whence := ((kernel.seek k.1 offset whence).1, (kernel.seek k.1 offset whence).2, k.2)
  size k := kernel.size k.1

def Stream.pending (s : Stream) : Bytes := s.buf.take s.writePtr

def output (st : State (K × Bytes)) : Bytes := st.k.2 ++ st.s.pending

/-- The put area starts with the buffer, there is no get area, and in the modes that must look
at every character there is no free space to find. -/
structure Writable (s : Stream) : Prop where
  noWrites : s.noWrites = false
  readPtr : s.readPtr = 0
  readEnd : s.readEnd = 0
  writeBase : s.writeBase = 0
  writePtr : s.writePtr ≤ s.size
  writeEnd : s.writeEnd ≤ s.size
  closed : s.buffering ≠ .full → s.writeEnd = 0
  idle : s.putting = false → s.writePtr = 0 ∧ s.writeEnd = 0
  ready : s.null = true ∨ s.buf ≠ []
  started : s.putting = true → s.null = false

theorem Writable.buf_ne {s : Stream} (h : Writable s) (hputting : s.putting = true) : s.buf ≠ [] :=
  h.ready.resolve_left (by simp [h.started hputting])

theorem Writable.putting_of_pos {s : Stream} (h : Writable s) (hpos : 0 < s.writePtr + s.writeEnd) :
    s.putting = true := by
  by_contra hidle
  have hzero := h.idle (by simpa using hidle)
  omega

/-- A line buffered stream holds no finished line back. -/
def Clean (s : Stream) : Prop := s.buffering = .line → newline ∉ s.pending

variable {s : Stream}

theorem Clean.of_writePtr (h : s.writePtr = 0) : Clean s := by
  intro _
  rw [Stream.pending, h, List.take_zero]
  exact List.not_mem_nil

/-- A call leaves a writable stream, and unless the error indicator is set it has extended the
output by these bytes. -/
structure Extends (st st' : State (K × Bytes)) (data : Bytes) : Prop where
  writable : Writable st'.s
  extended : st'.s.err = false → st.s.err = false ∧ output st' = output st ++ data

variable {st : State (K × Bytes)} {data : Bytes} {s' : Stream}

theorem Extends.trans {st' st'' : State (K × Bytes)} {data' : Bytes} (h : Extends st st' data)
    (h' : Extends st' st'' data') : Extends st st'' (data ++ data') where
  writable := h'.writable
  extended herr := by
    obtain ⟨herr', hout'⟩ := h'.extended herr
    obtain ⟨herr'', hout⟩ := h.extended herr'
    exact ⟨herr'', by rw [hout', hout, List.append_assoc]⟩

theorem Extends.refl (h : Writable st.s) : Extends st st [] :=
  ⟨h, fun herr => ⟨herr, (List.append_nil _).symm⟩⟩

/-! ### Writes to the descriptor -/

variable (kernel : Kernel K)

theorem writeLoop_spec (k : K × Bytes) (data : Bytes) :
    (writeLoop kernel.logged k data).1 ≤ data.length ∧
      ((writeLoop kernel.logged k data).2.1 = false →
        (writeLoop kernel.logged k data).1 = data.length) ∧
      (writeLoop kernel.logged k data).2.2.2 =
        k.2 ++ data.take (writeLoop kernel.logged k data).1 := by
  fun_induction writeLoop kernel.logged k data with
  | case1 k => simp
  | case2 k data hdata k' hwrite =>
    have hlog : k'.2 = k.2 := by
      simp only [Kernel.logged] at hwrite
      grind
    simp [hlog]
  | case3 k data hdata count k' hwrite rest ih =>
    have hlog : k'.2 = k.2 ++ data.take (count + 1) := by
      simp only [Kernel.logged] at hwrite
      grind
    obtain ⟨hle, hall, htaken⟩ := ih
    change rest.1 ≤ _ at hle
    change rest.2.1 = false → rest.1 = _ at hall
    rw [List.length_drop] at hle hall
    refine ⟨by omega, fun hok => by have := hall hok; omega, ?_⟩
    rw [htaken, hlog, List.append_assoc, ← List.take_add]

/-- The stream behind `new_do_write`. -/
structure Emptied (s s' : Stream) : Prop where
  areas : ∃ err offset, s' = { s.resetAreas with err := err, offset := offset }
  err : s'.err = false → s.err = false

theorem newDoWrite_spec (h : Writable st.s) (data : Bytes) :
    Emptied st.s (newDoWrite kernel.logged st data).2.s ∧
      (newDoWrite kernel.logged st data).1 ≤ data.length ∧
      ((newDoWrite kernel.logged st data).2.s.err = false →
        (newDoWrite kernel.logged st data).1 = data.length ∧
        (newDoWrite kernel.logged st data).2.k.2 = st.k.2 ++ data) := by
  have hsame : ¬st.s.readEnd ≠ st.s.writeBase := by rw [h.readEnd, h.writeBase]; simp
  obtain ⟨hle, hall, hlog⟩ := writeLoop_spec kernel st.k data
  have hfull : (writeLoop kernel.logged st.k data).2.1 = false →
      (writeLoop kernel.logged st.k data).2.2.2 = st.k.2 ++ data := by
    intro hok
    rw [hlog, hall hok, List.take_length]
  rw [newDoWrite, if_neg hsame]
  split_ifs
  all_goals
    refine ⟨⟨⟨_, _, rfl⟩, ?_⟩, hle, ?_⟩
    · intro herr
      exact (Bool.or_eq_false_iff.mp herr).1
    · intro herr
      exact ⟨hall (Bool.or_eq_false_iff.mp herr).2, hfull (Bool.or_eq_false_iff.mp herr).2⟩

def Stream.openArea (s : Stream) : Stream :=
  { s.setg 0 0 0 with
    writeBase := 0
    writePtr := 0
    writeEnd := if s.buffering = .full then s.size else 0
    putting := true }

theorem openArea_writable (hbuf : s.buf ≠ []) (hwrites : s.noWrites = false) :
    Writable s.openArea := by
  constructor
  case closed =>
    intro hfull
    simp only [Stream.openArea, Stream.setg] at hfull ⊢
    rw [if_neg hfull]
  case writeEnd =>
    simp only [Stream.openArea]
    split_ifs <;> simp [Stream.size, Stream.setg]
  all_goals simp [Stream.openArea, Stream.setg, hwrites, hbuf]

theorem Emptied.writable (he : Emptied s s') (h : Writable s) (hputting : s.putting = true) :
    Writable s' := by
  obtain ⟨⟨err, offset, rfl⟩, -⟩ := he
  have hareas : { s.resetAreas with err := err, offset := offset } =
      Stream.openArea { s with err := err, offset := offset } := by
    simp [Stream.resetAreas, Stream.openArea, Stream.setg, Stream.size, hputting]
  rw [hareas]
  exact openArea_writable (h.buf_ne hputting) h.noWrites

theorem Emptied.writePtr (he : Emptied s s') : s'.writePtr = 0 := by
  obtain ⟨⟨err, offset, rfl⟩, -⟩ := he
  rfl

theorem Emptied.pending (he : Emptied s s') : s'.pending = [] := by
  rw [Stream.pending, he.writePtr, List.take_zero]

theorem Emptied.kept (he : Emptied s s') :
    s'.putting = s.putting ∧ s'.buffering = s.buffering ∧ s'.size = s.size := by
  obtain ⟨⟨err, offset, rfl⟩, -⟩ := he
  exact ⟨rfl, rfl, rfl⟩

/-- What a call that may fail says about its result, besides extending the output. -/
structure Keeps (st st' : State (K × Bytes)) : Prop where
  putting : st'.s.putting = true
  buffering : st'.s.buffering = st.s.buffering
  size : st'.s.size = st.s.size

theorem newDoWrite_extends (h : Writable st.s)
    (hputting : st.s.putting = true) (hempty : st.s.pending = []) (data : Bytes) :
    Extends st (newDoWrite kernel.logged st data).2 data ∧
      Keeps st (newDoWrite kernel.logged st data).2 ∧
      (newDoWrite kernel.logged st data).2.s.pending = [] ∧
      ((newDoWrite kernel.logged st data).2.s.err = false →
        (newDoWrite kernel.logged st data).1 = data.length) := by
  obtain ⟨hemptied, -, hok⟩ := newDoWrite_spec kernel h data
  refine ⟨⟨hemptied.writable h hputting, ?_⟩, ?_, hemptied.pending, fun herr => (hok herr).1⟩
  · intro herr
    refine ⟨hemptied.err herr, ?_⟩
    rw [output, output, hemptied.pending, (hok herr).2, hempty, List.append_nil, List.append_nil]
  · exact ⟨hemptied.kept.1.trans hputting, hemptied.kept.2.1, hemptied.kept.2.2⟩

theorem doFlush_spec (st : State (K × Bytes)) (h : Writable st.s) (hputting : st.s.putting = true) :
    ∃ flushed st', doFlush kernel.logged st = .ok (flushed, st') ∧ Extends st st' [] ∧ Keeps st st' ∧
      st'.s.writePtr = 0 ∧ (st'.s.err = false → flushed = true) := by
  have hload : st.s.load st.s.writeBase st.s.writePtr = .ok st.s.pending := by
    rw [Stream.load, if_pos ⟨by rw [h.writeBase]; omega, h.writePtr⟩, h.writeBase]
    rfl
  rw [doFlush, hload]
  by_cases hempty : st.s.pending = []
  · have hptr : st.s.writePtr = 0 := by simpa [Stream.pending, h.buf_ne hputting] using hempty
    refine ⟨true, st, ?_, .refl h, ⟨hputting, rfl, rfl⟩, hptr, fun _ => rfl⟩
    simp [doWrite, hempty]
  · obtain ⟨hemptied, -, hok⟩ := newDoWrite_spec kernel h st.s.pending
    have hrun : doWrite kernel.logged st st.s.pending =
        (decide ((newDoWrite kernel.logged st st.s.pending).1 = st.s.pending.length),
          (newDoWrite kernel.logged st st.s.pending).2) := if_neg hempty
    refine ⟨_, _, congrArg Except.ok hrun, ⟨hemptied.writable h hputting, ?_⟩, ?_, hemptied.writePtr,
      ?_⟩
    · intro herr
      refine ⟨hemptied.err herr, ?_⟩
      rw [output, output, hemptied.pending, (hok herr).2, List.append_nil]
    · exact ⟨hemptied.kept.1.trans hputting, hemptied.kept.2.1, hemptied.kept.2.2⟩
    · exact fun herr => decide_eq_true (hok herr).1

/-! ### The put area -/

/-- Only the memory and the mode change, and only when there was no buffer. -/
theorem doallocbuf_eq (alloc : Alloc) (s : Stream) :
    ∃ buf buffering, buf ≠ [] ∧ s.buf <+: buf ∧
      doallocbuf alloc s = { s with buf := buf, buffering := buffering } := by
  have hnew (hbuf : ¬ s.buf ≠ []) (buf : Bytes) : s.buf <+: buf := by
    rw [not_not.mp hbuf]
    exact List.nil_prefix
  unfold doallocbuf
  split_ifs with hbuf hmode htty
  · exact ⟨s.buf, s.buffering, hbuf, List.prefix_rfl, rfl⟩
  · exact ⟨[0], s.buffering, List.cons_ne_nil _ _, hnew hbuf _, rfl⟩
  · exact ⟨_, .line, by simpa using alloc.pos.ne', hnew hbuf _, rfl⟩
  · exact ⟨_, s.buffering, by simpa using alloc.pos.ne', hnew hbuf _, rfl⟩

theorem Writable.allocated (alloc : Alloc) (h : Writable s) :
    (if s.null then doallocbuf alloc s else s).buf ≠ [] ∧
      (if s.null then doallocbuf alloc s else s).noWrites = false ∧
      (if s.null then doallocbuf alloc s else s).err = s.err := by
  obtain ⟨buf, buffering, hbuf, -, halloc⟩ := doallocbuf_eq alloc s
  split_ifs with hnull
  · rw [halloc]
    exact ⟨hbuf, h.noWrites, rfl⟩
  · exact ⟨h.ready.resolve_left hnull, h.noWrites, rfl⟩

theorem startPutting_of_idle (h : Writable s) (hidle : s.putting = false) :
    startPutting alloc s = (if s.null then doallocbuf alloc s else s).openArea := by
  rw [startPutting, hidle, Bool.false_and, if_neg Bool.false_ne_true]
  cases hnull : s.null with
  | true =>
    simp [Stream.setg, Stream.openArea, Stream.size]
    split_ifs <;> rfl
  | false =>
    simp [Stream.setg, Stream.openArea, Stream.size, h.readPtr]
    split_ifs <;> simp [hnull, h.readPtr, h.readEnd]

theorem startPutting_spec (alloc : Alloc) (h : Writable s) :
    Writable (startPutting alloc s) ∧ (startPutting alloc s).putting = true ∧
      (startPutting alloc s).pending = s.pending ∧ (startPutting alloc s).err = s.err ∧
      (Clean s → Clean (startPutting alloc s)) := by
  cases hputting : s.putting with
  | true =>
    have hsame : startPutting alloc s = s := by
      rw [startPutting, hputting, h.started hputting]
      rfl
    rw [hsame]
    exact ⟨h, hputting, rfl, rfl, id⟩
  | false =>
    rw [startPutting_of_idle h hputting]
    have hkept := h.allocated alloc
    generalize (if s.null then doallocbuf alloc s else s) = t at hkept
    refine ⟨?_, rfl, ?_, hkept.2.2, fun _ => .of_writePtr rfl⟩
    · exact openArea_writable hkept.1 hkept.2.1
    · rw [Stream.pending, Stream.pending, (h.idle hputting).1]
      rfl

theorem startPutting_extends (alloc : Alloc) (h : Writable st.s) :
    Extends st ⟨startPutting alloc st.s, st.k⟩ [] := by
  obtain ⟨hwritable, -, hpending, herr, -⟩ := startPutting_spec alloc h
  refine ⟨hwritable, fun hok => ⟨herr ▸ hok, ?_⟩⟩
  rw [output, output, hpending, List.append_nil]

theorem overflowEof_spec (alloc : Alloc) (st : State (K × Bytes)) (h : Writable st.s) :
    ∃ flushed st', overflowEof kernel.logged alloc st = .ok (flushed, st') ∧ Extends st st' [] ∧
      st'.s.putting = true ∧ st'.s.writePtr = 0 ∧ (st'.s.err = false → flushed = true) := by
  obtain ⟨hwritable, hputting, -⟩ := startPutting_spec alloc h
  obtain ⟨flushed, st', hrun, hextends, hkeeps, hptr, hflushed⟩ :=
    doFlush_spec kernel ⟨startPutting alloc st.s, st.k⟩ hwritable hputting
  refine ⟨flushed, st', ?_, (startPutting_extends alloc h).trans hextends, hkeeps.putting, hptr,
    hflushed⟩
  rw [overflowEof, h.noWrites, if_neg Bool.false_ne_true]
  exact hrun

def Stream.stored (s : Stream) (data : Bytes) : Stream :=
  { s with
    buf := s.buf.take s.writePtr ++ data ++ s.buf.drop (s.writePtr + data.length)
    writePtr := s.writePtr + data.length }

theorem store_eq (hroom : s.writePtr + data.length ≤ s.size) :
    (do let s' ← s.store s.writePtr data
        return { s' with writePtr := s'.writePtr + data.length } : Except Fault Stream) =
      .ok (s.stored data) := by
  rw [Stream.store, if_pos hroom]
  rfl

theorem stored_spec (h : Writable s) (data : Bytes)
    (hroom : s.writePtr + data.length ≤ s.size) (hput : s.putting = true ∨ data = []) :
    Writable (s.stored data) ∧ (s.stored data).pending = s.pending ++ data ∧
      (s.stored data).size = s.size := by
  have hsize : (s.stored data).size = s.size := by
    simp only [Stream.stored, Stream.size, List.length_append, List.length_take, List.length_drop] at *
    omega
  refine ⟨?_, ?_, hsize⟩
  · refine { h with
      writePtr := hroom.trans_eq hsize.symm
      writeEnd := h.writeEnd.trans_eq hsize.symm
      idle := ?_
      ready := ?_ }
    · intro hidle
      have hnil : data = [] := hput.resolve_left (by rw [show s.putting = false from hidle]; simp)
      have hzero := h.idle hidle
      exact ⟨by simp [Stream.stored, hnil, hzero.1], hzero.2⟩
    · apply h.ready.imp id
      intro hbuf hnil
      have hlen : (s.stored data).size = 0 := congrArg List.length hnil
      rw [hsize] at hlen
      exact hbuf (List.eq_nil_of_length_eq_zero hlen)
  · simp only [Stream.pending, Stream.stored]
    apply List.take_left'
    simp only [List.length_append, List.length_take, Stream.size] at *
    omega

theorem Extends.stored (h : Writable st.s) (hroom : st.s.writePtr + data.length ≤ st.s.size)
    (hput : st.s.putting = true ∨ data = []) : Extends st ⟨st.s.stored data, st.k⟩ data := by
  obtain ⟨hwritable, hpending, -⟩ := stored_spec h data hroom hput
  refine ⟨hwritable, fun hok => ⟨hok, ?_⟩⟩
  rw [output, output, hpending, List.append_assoc]

theorem makeRoom_spec (st : State (K × Bytes)) (h : Writable st.s) (hputting : st.s.putting = true) :
    ∃ room st', makeRoom kernel.logged st = .ok (room, st') ∧ Extends st st' [] ∧ Keeps st st' ∧
      st'.s.writePtr < st'.s.size ∧ (st'.s.err = false → room = true) ∧
      (Clean st.s → Clean st'.s) := by
  have hpos : 0 < st.s.size := List.length_pos_of_ne_nil (h.buf_ne hputting)
  unfold makeRoom
  split_ifs with hfull
  · obtain ⟨flushed, st', hrun, hextends, hkeeps, hptr, hflushed⟩ := doFlush_spec kernel st h hputting
    refine ⟨flushed, st', hrun, hextends, hkeeps, ?_, hflushed, ?_⟩
    · rwa [hptr, hkeeps.size]
    · exact fun _ => .of_writePtr hptr
  · exact ⟨true, st, rfl, .refl h, ⟨hputting, rfl, rfl⟩, lt_of_le_of_ne h.writePtr hfull, fun _ => rfl, id⟩

theorem putChar_eq {st : State K} (hroom : st.s.writePtr < st.s.size) (ch : UInt8) :
    putChar kernel st ch =
      if st.s.buffering = .unbuffered ∨ (st.s.buffering = .line ∧ ch = newline) then
        doFlush kernel ⟨st.s.stored [ch], st.k⟩
      else .ok (true, ⟨st.s.stored [ch], st.k⟩) := by
  rw [putChar, Stream.store, if_pos (show st.s.writePtr + [ch].length ≤ st.s.size from hroom)]
  rfl

theorem putChar_spec (h : Writable st.s) (hputting : st.s.putting = true)
    (hroom : st.s.writePtr < st.s.size) (ch : UInt8) :
    ∃ taken st', putChar kernel.logged st ch = .ok (taken, st') ∧ Extends st st' [ch] ∧
      Keeps st st' ∧ (st'.s.err = false → taken = true) ∧ (Clean st.s → Clean st'.s) := by
  obtain ⟨hwritable, hpending, hsize⟩ := stored_spec h [ch] hroom (.inl hputting)
  have hextends : Extends st ⟨st.s.stored [ch], st.k⟩ [ch] := .stored h hroom (.inl hputting)
  rw [putChar_eq _ hroom]
  split_ifs with hmode
  · obtain ⟨flushed, st', hflush, hflushes, hkeeps, hptr, hflushed⟩ :=
      doFlush_spec kernel ⟨st.s.stored [ch], st.k⟩ hwritable hputting
    refine ⟨flushed, st', hflush, hextends.trans hflushes, ?_, hflushed, ?_⟩
    · exact ⟨hkeeps.putting, hkeeps.buffering, hkeeps.size.trans hsize⟩
    · exact fun _ => .of_writePtr hptr
  · refine ⟨true, _, rfl, hextends, ⟨hputting, rfl, hsize⟩, fun _ => rfl, ?_⟩
    intro hclean hline
    rw [hpending, List.mem_append, List.mem_singleton, not_or]
    exact ⟨hclean hline, fun heq => hmode (.inr ⟨hline, heq.symm⟩)⟩

theorem overflow_spec (alloc : Alloc) (st : State (K × Bytes)) (h : Writable st.s) (ch : UInt8) :
    ∃ taken st', overflow kernel.logged alloc st ch = .ok (taken, st') ∧ Extends st st' [ch] ∧
      st'.s.putting = true ∧ (st'.s.err = false → taken = true) ∧
      (st'.s.err = false → Clean st.s → Clean st'.s) := by
  obtain ⟨hwritable, hputting, -, -, hclean⟩ := startPutting_spec alloc h
  have hstart := startPutting_extends alloc h
  obtain ⟨room, st₂, hroom, hextends₂, hkeeps₂, hspace, hok₂, hclean₂⟩ :=
    makeRoom_spec kernel ⟨startPutting alloc st.s, st.k⟩ hwritable hputting
  rw [overflow, h.noWrites, if_neg Bool.false_ne_true, hroom]
  cases room with
  | false =>
    have herr₂ : st₂.s.err ≠ false := fun hok => Bool.false_ne_true (hok₂ hok)
    exact ⟨false, st₂, rfl, ⟨hextends₂.writable, fun hok => absurd hok herr₂⟩, hkeeps₂.putting,
      fun hok => absurd hok herr₂, fun hok => absurd hok herr₂⟩
  | true =>
    obtain ⟨taken, st₃, hput, hextends₃, hkeeps₃, hok₃, hclean₃⟩ :=
      putChar_spec kernel hextends₂.writable hkeeps₂.putting hspace ch
    exact ⟨taken, st₃, hput, (hstart.trans hextends₂).trans hextends₃, hkeeps₃.putting, hok₃,
      fun _ hold => hclean₃ (hclean₂ (hclean hold))⟩

/-! ### Puts of several bytes -/

/-- What puts of several bytes rest on: `I st data` says that the stream has taken `data`, `F st`
that it has failed. -/
structure Puts {K : Type} (kernel : Kernel K) (alloc : Alloc) (I : State K → Bytes → Prop)
    (F : State K → Prop) : Prop where
  area : ∀ {st data}, I st data → st.s.writePtr ≤ st.s.size ∧ st.s.writeEnd ≤ st.s.size
  stored : ∀ {st data} more, I st data → more.length ≤ st.s.writeEnd - st.s.writePtr →
    I ⟨st.s.stored more, st.k⟩ (data ++ more)
  overflow : ∀ {st data} ch, I st data → ∃ taken st', overflow kernel alloc st ch = .ok (taken, st') ∧
    I st' (data ++ [ch]) ∧ (taken = true ∨ F st')
  write : ∀ {st data} more, I st data → st.s.writePtr = st.s.writeBase →
    ∃ count st', newDoWrite kernel st more = (count, st') ∧ count ≤ more.length ∧
      I st' (data ++ more) ∧ (count = more.length ∨ F st')
  failed : ∀ {st data} more, I st data → F st → I st (data ++ more)

section Puts
variable {K : Type} {kernel : Kernel K} {alloc : Alloc} {I : State K → Bytes → Prop}
  {F : State K → Prop} {st : State K} {data : Bytes}

theorem Puts.defaultXsputn (h : Puts kernel alloc I F) (hst : I st data) (more : Bytes) :
    ∃ count st', defaultXsputn kernel alloc st more = .ok (count, st') ∧ I st' (data ++ more) ∧
      (count = more.length ∨ F st') := by
  induction hn : more.length using Nat.strong_induction_on generalizing st data more with
  | _ n ih =>
    obtain ⟨hptr, hend⟩ := h.area hst
    generalize hspace : st.s.writeEnd - st.s.writePtr = space
    have hlen : (more.take space).length ≤ space := List.length_take_le ..
    have hroom : st.s.writePtr + (more.take space).length ≤ st.s.size := by omega
    have hfilled := h.stored (more.take space) hst (hspace ▸ hlen)
    rw [FileStream.defaultXsputn, hspace, fillSpace, store_eq hroom]
    split
    next hdrop =>
      have hall : more.take space = more := List.take_of_length_le (List.drop_eq_nil_iff.mp hdrop)
      rw [hall] at hfilled ⊢
      exact ⟨_, _, rfl, hfilled, .inl hn⟩
    next ch rest hdrop =>
      have hsplit : more = more.take space ++ ([ch] ++ rest) := by
        rw [List.singleton_append, ← hdrop, List.take_append_drop]
      have hshorter : rest.length + 1 ≤ more.length := by
        have := congrArg List.length hsplit
        simp only [List.length_append, List.length_singleton] at this
        omega
      have hall : data ++ more = data ++ more.take space ++ [ch] ++ rest := by
        rw [List.append_assoc, List.append_assoc, ← hsplit]
      obtain ⟨taken, st₂, hrun₂, hst₂, hok₂⟩ := h.overflow ch hfilled
      rw [ok_bind, hrun₂, hall]
      cases taken with
      | false =>
        have hfailed := hok₂.resolve_left Bool.false_ne_true
        exact ⟨_, st₂, rfl, h.failed rest hst₂ hfailed, .inr hfailed⟩
      | true =>
        obtain ⟨count, st₃, hrun₃, hst₃, hok₃⟩ := ih rest.length (by omega) hst₂ rest rfl
        refine ⟨more.length - rest.length + count, st₃, ?_, hst₃, hok₃.imp_left fun h => by omega⟩
        change (FileStream.defaultXsputn kernel alloc st₂ rest >>= _) = _
        rw [hrun₃]
        rfl

theorem Puts.putRest (h : Puts kernel alloc I F) (hst : I st data)
    (hempty : st.s.writePtr = st.s.writeBase) (rest : Bytes) :
    ∃ count st', putRest kernel alloc st rest = .ok (count, st') ∧ I st' (data ++ rest) ∧
      (count = rest.length ∨ F st') := by
  unfold FileStream.putRest
  generalize hdirect : rest.length - (if st.s.size ≥ 128 then rest.length % st.s.size else 0) = direct
  have hle : direct ≤ rest.length := by omega
  have hall : data ++ rest = data ++ rest.take direct ++ rest.drop direct := by
    rw [List.append_assoc, List.take_append_drop]
  -- the blocks
  have hblocks : ∃ written st', (if direct = 0 then (0, st) else
        newDoWrite kernel st (rest.take direct)) = (written, st') ∧ written ≤ direct ∧
      I st' (data ++ rest.take direct) ∧ (written = direct ∨ F st') := by
    split_ifs with hzero
    · refine ⟨0, st, rfl, Nat.zero_le _, ?_, .inl hzero.symm⟩
      rwa [hzero, List.take_zero, List.append_nil]
    · have hwrite := h.write (rest.take direct) hst hempty
      rwa [List.length_take, Nat.min_eq_left hle] at hwrite
  obtain ⟨written, st₁, hrun₁, hwritten, hst₁, hok₁⟩ := hblocks
  simp only [hrun₁]
  split_ifs with hdone
  · refine ⟨written, st₁, rfl, ?_, ?_⟩
    · obtain hshort | hlast := hdone
      · rw [hall]
        exact h.failed _ hst₁ (hok₁.resolve_left hshort.ne)
      · rwa [hlast, List.take_length] at hst₁
    · exact hok₁.elim (fun hsame => hdone.elim (fun hlt => absurd hsame hlt.ne) fun hlast =>
        .inl (hsame.trans hlast)) .inr
  · obtain ⟨count, st₂, hrun₂, hst₂, hok₂⟩ := h.defaultXsputn hst₁ (rest.drop direct)
    rw [List.length_drop] at hok₂
    refine ⟨written + count, st₂, ?_, hall ▸ hst₂, hok₂.imp_left fun h => by omega⟩
    rw [hrun₂]
    rfl

theorem firstPart_room (hptr : s.writePtr ≤ s.size) (hend : s.writeEnd ≤ s.size)
    (data : Bytes) : s.writePtr + (data.take (firstPart s data).1).length ≤ s.size := by
  rw [List.length_take]
  by_cases hline : s.buffering = .line ∧ s.putting
  · rw [firstPart, if_pos hline]
    by_cases hfits : s.size - s.writePtr ≥ data.length
    · omega
    · simp only [if_neg hfits]
      omega
  · rw [firstPart, if_neg hline]
    omega

/-- `fwrite`: the first part is stored; when it is not all, or ends a line, the buffer is flushed. -/
theorem Puts.xsputn (h : Puts kernel alloc I F) {st : State K} (hptr : st.s.writePtr ≤ st.s.size)
    (hend : st.s.writeEnd ≤ st.s.size) (hdata : data ≠ []) {first : Bytes}
    (hfirst : first = data.take (firstPart st.s data).1)
    (hkept : first = data → (firstPart st.s data).2 = false → I ⟨st.s.stored data, st.k⟩ data)
    (hflush : ∃ flushed st', overflowEof kernel alloc ⟨st.s.stored first, st.k⟩ = .ok (flushed, st') ∧
      I st' first ∧ st'.s.writePtr = st'.s.writeBase ∧ (flushed = true ∨ F st')) :
    ∃ result st', xsputn kernel alloc st data = .ok (result, st') ∧ I st' data ∧
      (result = some data.length ∨ F st') := by
  have hroom := firstPart_room hptr hend data
  rw [FileStream.xsputn, if_neg hdata]
  generalize firstPart st.s data = part at *
  obtain ⟨count, mustFlush⟩ := part
  simp only [fillSpace, store_eq hroom]
  by_cases hdone : data.drop count = [] ∧ !mustFlush
  · have hall : data.take count = data := List.take_of_length_le (List.drop_eq_nil_iff.mp hdone.1)
    refine ⟨some data.length, _, if_pos hdone, ?_, .inl rfl⟩
    rw [hall]
    exact hkept (hfirst.trans hall) (by simpa using hdone.2)
  · obtain ⟨flushed, st₁, hrun₁, hst₁, hempty₁, hok₁⟩ := hflush
    rw [hfirst] at hrun₁ hst₁
    cases flushed with
    | false =>
      have hfailed := hok₁.resolve_left Bool.false_ne_true
      have hst := h.failed (data.drop count) hst₁ hfailed
      rw [List.take_append_drop] at hst
      exact ⟨_, st₁, (if_neg hdone).trans (congrArg (· >>= _) hrun₁), hst, .inr hfailed⟩
    | true =>
      obtain ⟨written, st₂, hrun₂, hst₂, hok₂⟩ := h.putRest hst₁ hempty₁ (data.drop count)
      rw [List.take_append_drop] at hst₂
      refine ⟨some (data.length - (data.drop count).length + written), st₂,
        (if_neg hdone).trans ?_, hst₂, hok₂.imp_left fun hcount => ?_⟩
      · rw [hrun₁, ok_bind, hrun₂]
        rfl
      · rw [hcount, Nat.sub_add_cancel (List.drop_sublist ..).length_le]

end Puts

theorem firstPart_spec (h : Writable s) (data : Bytes) :
    (s.putting = true ∨ data.take (firstPart s data).1 = []) ∧
      (data.take (firstPart s data).1 = data → (firstPart s data).2 = false → s.buffering = .line →
        newline ∉ data.take (firstPart s data).1) := by
  by_cases hline : s.buffering = .line ∧ s.putting
  · rw [firstPart, if_pos hline]
    by_cases hfits : s.size - s.writePtr ≥ data.length
    · simp only [if_pos hfits]
      split_ifs with hlines
      · exact ⟨.inl hline.2, nofun⟩
      · -- there is no newline
        rw [not_not, List.rdropWhile_eq_nil_iff] at hlines
        refine ⟨.inl hline.2, ?_⟩
        intro _ _ _ hmem
        simpa using hlines newline (List.mem_of_mem_take hmem)
    · simp only [if_neg hfits]
      refine ⟨.inl hline.2, ?_⟩
      intro hall
      exact absurd ((List.take_eq_self_iff data).mp hall) hfits
  · rw [firstPart, if_neg hline]
    -- outside the put area of a fully buffered stream there is no space
    have hzero : s.buffering = .line ∨ s.putting = false → s.writeEnd - s.writePtr = 0 := by
      intro hcase
      cases hcase with
      | inl hmode => rw [h.closed (by rw [hmode]; nofun), Nat.zero_sub]
      | inr hidle => rw [(h.idle hidle).2, Nat.zero_sub]
    constructor
    · cases hputting : s.putting with
      | true => exact .inl rfl
      | false => exact .inr (by rw [hzero (.inr hputting), List.take_zero])
    · intro _ _ hmode
      rw [hzero (.inl hmode), List.take_zero]
      exact List.not_mem_nil

/-- The stream has extended the output by these bytes, and stayed clean. -/
structure Taken (st st' : State (K × Bytes)) (data : Bytes) : Prop extends Extends st st' data where
  putting : st'.s.putting = true
  clean : st'.s.err = false → Clean st.s → Clean st'.s

theorem puts_logged (alloc : Alloc) (st : State (K × Bytes)) :
    Puts kernel.logged alloc (Taken st) fun st' => st'.s.err ≠ false where
  area h := ⟨h.writable.writePtr, h.writable.writeEnd⟩
  stored {st'} data more h hspace := by
    have hptr := h.writable.writePtr
    have hend := h.writable.writeEnd
    have hroom : st'.s.writePtr + more.length ≤ st'.s.size := by omega
    refine ⟨h.trans (.stored h.writable hroom (.inl h.putting)), h.putting, ?_⟩
    intro herr hold hline
    -- the modes that look at every character leave no space
    rw [h.writable.closed (by rw [show st'.s.buffering = .line from hline]; nofun), Nat.zero_sub]
      at hspace
    rw [(stored_spec h.writable more hroom (.inl h.putting)).2.1,
      List.eq_nil_of_length_eq_zero (Nat.le_zero.mp hspace), List.append_nil]
    exact h.clean herr hold hline
  overflow ch h := by
    obtain ⟨taken, st', hrun, hextends, hputting, hok, hclean⟩ :=
      overflow_spec kernel alloc _ h.writable ch
    refine ⟨taken, st', hrun, ⟨h.trans hextends, hputting, ?_⟩, or_not_of_imp hok⟩
    exact fun herr hold => hclean herr (h.clean (hextends.extended herr).1 hold)
  write {st'} data more h hempty := by
    have hpending : st'.s.pending = [] := by
      rw [Stream.pending, hempty, h.writable.writeBase, List.take_zero]
    obtain ⟨hextends, hkeeps, hpending', hok⟩ :=
      newDoWrite_extends kernel h.writable h.putting hpending more
    refine ⟨_, _, rfl, (newDoWrite_spec kernel h.writable more).2.1, ⟨h.trans hextends,
      hkeeps.putting, ?_⟩, or_not_of_imp hok⟩
    exact fun _ _ _ => hpending' ▸ List.not_mem_nil
  failed more h herr :=
    ⟨⟨h.writable, fun hok => absurd hok herr⟩, h.putting, fun hok => absurd hok herr⟩

/-- `fwrite`. Unless the error indicator is set, everything has been accepted. -/
theorem xsputn_spec (alloc : Alloc) (h : Writable st.s) (data : Bytes) :
    ∃ result st', xsputn kernel.logged alloc st data = .ok (result, st') ∧ Extends st st' data ∧
      (st'.s.err = false → result = some data.length ∧ (Clean st.s → Clean st'.s)) := by
  by_cases hnil : data = []
  · rw [xsputn, if_pos hnil, hnil]
    exact ⟨some 0, st, rfl, .refl h, fun _ => ⟨rfl, id⟩⟩
  · have hroom := firstPart_room h.writePtr h.writeEnd data
    obtain ⟨hput, hclean⟩ := firstPart_spec h data
    obtain ⟨first, hfirst⟩ : ∃ first, first = data.take (firstPart st.s data).1 := ⟨_, rfl⟩
    rw [← hfirst] at hroom hput hclean
    obtain ⟨hwritable, hpending, -⟩ := stored_spec h _ hroom hput
    have hfilled : Extends st ⟨st.s.stored first, st.k⟩ first := .stored h hroom hput
    obtain ⟨flushed, st₁, hrun₁, hextends₁, hputting₁, hempty₁, hok₁⟩ :=
      overflowEof_spec kernel alloc ⟨st.s.stored first, st.k⟩ hwritable
    have hboth := hfilled.trans hextends₁
    rw [List.append_nil] at hboth
    have hkept : first = data → (firstPart st.s data).2 = false →
        Taken st ⟨st.s.stored data, st.k⟩ data := by
      intro hall hkeep
      rw [hall] at hput hpending hfilled hclean
      refine ⟨hfilled, hput.resolve_right hnil, fun _ hold hmode => ?_⟩
      rw [hpending, List.mem_append, not_or]
      exact ⟨hold hmode, hclean rfl hkeep hmode⟩
    obtain ⟨result, st', hrun, htaken, hok⟩ := (puts_logged kernel alloc st).xsputn h.writePtr
      h.writeEnd hnil hfirst hkept ⟨flushed, st₁, hrun₁,
        ⟨hboth, hputting₁, fun _ _ => .of_writePtr hempty₁⟩,
        hempty₁.trans hextends₁.writable.writeBase.symm, or_not_of_imp hok₁⟩
    exact ⟨result, st', hrun, htaken.toExtends, fun herr =>
      ⟨hok.resolve_right (not_not.mpr herr), htaken.clean herr⟩⟩

theorem putc_spec (alloc : Alloc) (h : Writable st.s) (ch : UInt8) :
    ∃ taken st', putc kernel.logged alloc st ch = .ok (taken, st') ∧ Extends st st' [ch] ∧
      (st'.s.err = false → taken = true ∧ (Clean st.s → Clean st'.s)) := by
  unfold putc
  split_ifs with hfull
  · obtain ⟨taken, st', hrun, hextends, -, hok, hclean⟩ := overflow_spec kernel alloc st h ch
    exact ⟨taken, st', hrun, hextends, fun herr => ⟨hok herr, hclean herr⟩⟩
  · -- only the put area of a fully buffered stream has space
    have hend := h.writeEnd
    have hroom : st.s.writePtr + [ch].length ≤ st.s.size := by
      rw [List.length_singleton]
      omega
    have hputting := h.putting_of_pos (by omega)
    have hmode : st.s.buffering ≠ .line := by
      intro hline
      have := h.closed (by rw [hline]; nofun)
      omega
    refine ⟨true, ⟨st.s.stored [ch], st.k⟩, ?_, .stored h hroom (.inl hputting),
      fun _ => ⟨rfl, fun _ hline => absurd hline hmode⟩⟩
    rw [Stream.store, if_pos hroom]
    rfl

theorem flushPending_spec (h : Writable st.s) :
    ∃ flushed st', flushPending kernel.logged st = .ok (flushed, st') ∧ Extends st st' [] ∧
      (st'.s.err = false → flushed = true) ∧ (Clean st.s → Clean st'.s) := by
  unfold flushPending
  split_ifs with hpending
  · have hputting := h.putting_of_pos (by omega)
    obtain ⟨flushed, st', hrun, hextends, -, hptr, hok⟩ := doFlush_spec kernel st h hputting
    exact ⟨flushed, st', hrun, hextends, hok, fun _ => .of_writePtr hptr⟩
  · exact ⟨true, st, rfl, .refl h, fun _ => rfl, id⟩

theorem fflush_spec (h : Writable st.s) :
    ∃ flushed st', fflush kernel.logged st = .ok (flushed, st') ∧ Extends st st' [] ∧
      (st'.s.err = false → Clean st.s → Clean st'.s) := by
  obtain ⟨flushed, st', hrun, hextends, hok, hclean⟩ := flushPending_spec kernel h
  rw [fflush, hrun]
  cases flushed with
  | false =>
    have herr : st'.s.err ≠ false := fun herr => Bool.false_ne_true (hok herr)
    exact ⟨false, st', rfl, hextends, fun herr' => absurd herr' herr⟩
  | true =>
    have hw := hextends.writable
    have hsync : syncGetArea kernel.logged st' = (true, ⟨{ st'.s with offset := none }, st'.k⟩) :=
      if_neg (by rw [hw.readPtr, hw.readEnd]; simp)
    exact ⟨true, ⟨{ st'.s with offset := none }, st'.k⟩, congrArg Except.ok hsync,
      ⟨{ hw with }, hextends.extended⟩, fun _ => hclean⟩

/-! ### Runs -/

inductive Call
  | fwrite (data : Bytes)
  | putc (ch : UInt8)
  | fflush

/-- A call, and the bytes that it reports as accepted. `fwrite` takes `EOF` from `xsputn` for
success, since the bytes are in the buffer then. -/
def Call.run (kernel : Kernel K) (alloc : Alloc) (st : State K) : Call → Except Fault (Bytes × State K)
  | .fwrite data => do
    let (result, st) ← xsputn kernel alloc st data
    return (data.take (result.getD data.length), st)
  | .putc ch => do
    let (taken, st) ← FileStream.putc kernel alloc st ch
    return (if taken then [ch] else [], st)
  | .fflush => do
    let (_, st) ← FileStream.fflush kernel st
    return ([], st)

def runCalls (kernel : Kernel K) (alloc : Alloc) : State K → List Call → Except Fault (Bytes × State K)
  | st, [] => .ok ([], st)
  | st, call :: calls => do
    let (accepted, st) ← call.run kernel alloc st
    let (rest, st) ← runCalls kernel alloc st calls
    return (accepted ++ rest, st)

/-- One call: what it reports as accepted has been put out, unless the error indicator is set. -/
theorem Call.run_spec (alloc : Alloc) (h : Writable st.s) (call : Call) :
    ∃ accepted st', call.run kernel.logged alloc st = .ok (accepted, st') ∧ Extends st st' accepted ∧
      (st'.s.err = false → Clean st.s → Clean st'.s) := by
  cases call with
  | fwrite data =>
    obtain ⟨result, st', hrun, hextends, hok⟩ := xsputn_spec kernel alloc h data
    refine ⟨data.take (result.getD data.length), st', ?_, ⟨hextends.writable, ?_⟩, fun herr => (hok herr).2⟩
    · rw [Call.run, hrun]
      rfl
    · intro herr
      rw [(hok herr).1, Option.getD_some, List.take_length]
      exact hextends.extended herr
  | putc ch =>
    obtain ⟨taken, st', hrun, hextends, hok⟩ := putc_spec kernel alloc h ch
    refine ⟨if taken then [ch] else [], st', ?_, ⟨hextends.writable, ?_⟩, fun herr => (hok herr).2⟩
    · rw [Call.run, hrun]
      rfl
    · intro herr
      rw [(hok herr).1, if_pos rfl]
      exact hextends.extended herr
  | fflush =>
    obtain ⟨flushed, st', hrun, hextends, hclean⟩ := fflush_spec kernel h
    refine ⟨[], st', ?_, hextends, hclean⟩
    rw [Call.run, hrun]
    rfl

theorem runCalls_spec (alloc : Alloc) (st : State (K × Bytes)) (h : Writable st.s) (calls : List Call) :
    ∃ accepted st', runCalls kernel.logged alloc st calls = .ok (accepted, st') ∧
      Extends st st' accepted ∧ (st'.s.err = false → Clean st.s → Clean st'.s) := by
  induction calls generalizing st with
  | nil => exact ⟨[], st, rfl, .refl h, fun _ => id⟩
  | cons call calls ih =>
    obtain ⟨accepted, st₁, hrun₁, hextends₁, hclean₁⟩ := call.run_spec kernel alloc h
    obtain ⟨rest, st₂, hrun₂, hextends₂, hclean₂⟩ := ih st₁ hextends₁.writable
    refine ⟨accepted ++ rest, st₂, ?_, hextends₁.trans hextends₂, ?_⟩
    · rw [runCalls, hrun₁, ok_bind]
      dsimp only
      rw [hrun₂]
      rfl
    · exact fun herr hold => hclean₂ herr (hclean₁ (hextends₂.extended herr).1 hold)

/-- A stream opened for writing only, with a buffer that was set for it or none yet. -/
def opened (buf : Bytes) (buffering : Buffering) (appending : Bool) : Stream where
  buf := buf
  null := buf.isEmpty
  readBase := 0
  readPtr := 0
  readEnd := 0
  writeBase := 0
  writePtr := 0
  writeEnd := 0
  buffering := buffering
  putting := false
  eof := false
  err := false
  appending := appending
  noReads := true
  noWrites := false
  offset := none

theorem opened_writable (buf : Bytes) (buffering : Buffering) (appending : Bool) :
    Writable (opened buf buffering appending) := by
  constructor
  case ready => cases buf <;> simp [opened]
  all_goals simp [opened]

/-- Every run of calls on an output stream ends without an access outside the buffer. As long as the
error indicator is clear, the bytes that `write` took and the bytes in the buffer are those that the
calls reported as accepted, and a line buffered stream holds no newline. -/
theorem output_complete (kernel : Kernel K) (k : K) (alloc : Alloc) (buf : Bytes)
    (buffering : Buffering) (appending : Bool) (calls : List Call) :
    ∃ accepted st', runCalls kernel.logged alloc ⟨opened buf buffering appending, k, []⟩ calls =
        .ok (accepted, st') ∧
      (st'.s.err = false → st'.k.2 ++ st'.s.pending = accepted ∧
        (st'.s.buffering = .line → newline ∉ st'.s.pending)) := by
  obtain ⟨accepted, st', hrun, hextends, hclean⟩ := runCalls_spec kernel alloc
    ⟨opened buf buffering appending, k, []⟩ (opened_writable buf buffering appending) calls
  refine ⟨accepted, st', hrun, fun herr => ⟨?_, hclean herr (.of_writePtr rfl)⟩⟩
  exact (hextends.extended herr).2

end AwaitGlibc.FileStream
