import AwaitGlibc.UpdateStream

/-! Writes and flushes of update streams. Each call accepts all its bytes and leaves a stream that
stands for the file with those bytes written at the position. -/
namespace AwaitGlibc.FileStream
open CheckedArray FileContent

variable (alloc : Alloc)

variable {st : State Disk} {m : ModelFile}

theorem makeRoom_disk (h : Writing st m) :
    ∃ st', makeRoom Disk.kernel st = .ok (true, st') ∧ Writing st' m ∧
      st'.s.writePtr < st'.s.size := by
  unfold makeRoom
  split_ifs with hfull
  · obtain ⟨st', hrun, hwriting, hnothing, -⟩ := doFlush_disk h
    exact ⟨st', hrun, hwriting, hnothing.trans_lt hwriting.base_lt⟩
  · exact ⟨st, rfl, h, lt_of_le_of_ne h.writePtr hfull⟩

theorem putChar_disk (h : Writing st m) (hroom : st.s.writePtr < st.s.size) (ch : UInt8) :
    ∃ st', putChar Disk.kernel st ch = .ok (true, st') ∧ Writing st' (m.write [ch]) ∧
      Settled st'.s := by
  have hwriting : Writing ⟨st.s.stored [ch], st.k⟩ (m.write [ch]) := h.stored hroom
  have hsettled : Settled (st.s.stored [ch]) := .stored h.base_le (.inl (List.cons_ne_nil _ _))
  rw [putChar_eq _ hroom]
  split_ifs
  · obtain ⟨st', hflush, hwriting', -, hkept⟩ := doFlush_disk hwriting
    exact ⟨st', hflush, hwriting', hkept hsettled⟩
  · exact ⟨_, rfl, hwriting, hsettled⟩

theorem overflow_disk (h : Reading st m ∨ Writing st m) (ch : UInt8) :
    ∃ st', overflow Disk.kernel alloc st ch = .ok (true, st') ∧ Writing st' (m.write [ch]) ∧
      Settled st'.s := by
  have hnoWrites : st.s.noWrites = false := h.elim (·.noWrites) (·.noWrites)
  obtain ⟨st₁, hrun₁, hwriting₁, hroom⟩ := makeRoom_disk (startPutting_disk alloc h).1
  obtain ⟨st₂, hrun₂, hwriting₂, hsettled⟩ := putChar_disk hwriting₁ hroom ch
  refine ⟨st₂, ?_, hwriting₂, hsettled⟩
  rw [overflow, hnoWrites, if_neg Bool.false_ne_true, hrun₁]
  exact hrun₂

/-- Whole blocks go around the empty put area. -/
theorem newDoWrite_writing (h : Writing st m)
    (hnothing : st.s.writePtr = st.s.writeBase) (data : Bytes) :
    ∃ st', newDoWrite Disk.kernel st data = (data.length, st') ∧ Writing st' (m.write data) ∧
      Settled st'.s := by
  obtain ⟨offset, d, hrun, hoffset, hcontent, hpos⟩ := newDoWrite_disk h data
  have hold := h.position
  have hstart : st.k.pos + st.s.writeBase - st.s.readEnd = m.pos := by omega
  refine ⟨_, hrun, h.reset hoffset ?_ ?_ ?_, .inr ⟨rfl, rfl⟩⟩
  · rw [hcontent, hstart, ModelFile.write, h.content, Stream.putArea_eq_nil hnothing, overwrite_nil]
  · change m.pos + data.length = d.pos
    omega
  · exact fun heof => ModelFile.end_of_write (h.eof heof) data

/-- The stream stands for the file with these bytes written; it is settled where `settled` says so,
and behind any byte. -/
def Wrote (m : ModelFile) (settled : Prop) (st : State Disk) (data : Bytes) : Prop :=
  Writing st (m.write data) ∧ (settled ∨ data ≠ [] → Settled st.s)

theorem puts_disk (m : ModelFile) (settled : Prop) :
    Puts Disk.kernel alloc (Wrote m settled) fun _ => False where
  area h := ⟨h.1.writePtr, h.1.writeEnd⟩
  stored {st} data more h hspace := by
    have hptr := h.1.writePtr
    have hend := h.1.writeEnd
    rw [Wrote, ← ModelFile.write_append]
    refine ⟨h.1.stored (by omega), fun hold => .stored h.1.base_le ?_⟩
    by_cases hmore : more = []
    · rw [hmore, List.append_nil] at hold
      exact .inr (h.2 hold)
    · exact .inl hmore
  overflow ch h := by
    obtain ⟨st', hrun, hwriting, hsettled⟩ := overflow_disk alloc (.inr h.1) ch
    rw [ModelFile.write_append] at hwriting
    exact ⟨true, st', hrun, ⟨hwriting, fun _ => hsettled⟩, .inl rfl⟩
  write more h hempty := by
    obtain ⟨st', hrun, hwriting, hsettled⟩ := newDoWrite_writing h.1 hempty more
    rw [ModelFile.write_append] at hwriting
    exact ⟨_, st', hrun, le_rfl, ⟨hwriting, fun _ => hsettled⟩, .inl rfl⟩
  failed _ _ hfailed := hfailed.elim

variable {data : Bytes}

theorem xsputn_writing (h : Writing st m) (hsettled : Settled st.s) (hnil : data ≠ []) :
    ∃ result st', xsputn Disk.kernel alloc st data = .ok (result, st') ∧ Wrote m True st' data ∧
      (result = some data.length ∨ False) := by
  obtain ⟨first, hfirst⟩ : ∃ first, first = data.take (firstPart st.s data).1 := ⟨_, rfl⟩
  have hfilled : Writing ⟨st.s.stored first, st.k⟩ (m.write first) :=
    h.stored (hfirst ▸ firstPart_room h.writePtr h.writeEnd data)
  have hsettled₁ : Settled (st.s.stored first) := .stored h.base_le (.inr hsettled)
  obtain ⟨st₁, hrun₁, hwriting₁, hempty₁, hkept₁⟩ := overflowEof_disk alloc (.inr hfilled)
  exact (puts_disk alloc m True).xsputn h.writePtr h.writeEnd hnil hfirst
    (fun hall _ => hall ▸ ⟨hfilled, fun _ => hsettled₁⟩)
    ⟨true, st₁, hrun₁, ⟨hwriting₁, fun _ => hkept₁ h.putting hsettled₁⟩, hempty₁, .inl rfl⟩

/-- `fwrite` to a stream in get mode copies nothing before the put area is set up. -/
theorem xsputn_idle (h : Reading st m) (hidle : st.s.putting = false) (hnil : data ≠ []) :
    ∃ result st', xsputn Disk.kernel alloc st data = .ok (result, st') ∧ Wrote m False st' data ∧
      (result = some data.length ∨ False) := by
  have hpart : firstPart st.s data = (0, false) := by
    have hzero : st.s.writeEnd - st.s.writePtr = 0 := Nat.sub_eq_zero_of_le (h.idle hidle)
    rw [firstPart, if_neg (by simp [hidle]), hzero]
  have hstored : st.s.stored [] = st.s := by simp [Stream.stored]
  obtain ⟨st₁, hrun₁, hwriting₁, hempty₁, -⟩ := overflowEof_disk alloc (.inl h)
  have hfirst : [] = data.take (firstPart st.s data).1 := by rw [hpart, List.take_zero]
  exact (puts_disk alloc m False).xsputn h.writePtr h.writeEnd hnil hfirst
    (fun hall => absurd hall.symm hnil)
    ⟨true, st₁, hstored.symm ▸ hrun₁, ⟨m.write_nil.symm ▸ hwriting₁, by simp⟩, hempty₁, .inl rfl⟩

def Between (st : State Disk) (m : ModelFile) : Prop := Reading st m ∨ Writing st m ∧ Settled st.s

theorem xsputn_disk (h : Between st m) (data : Bytes) :
    ∃ st', xsputn Disk.kernel alloc st data = .ok (some data.length, st') ∧
      Between st' (m.write data) := by
  by_cases hnil : data = []
  · refine ⟨st, ?_, ?_⟩
    · rw [xsputn, if_pos hnil, hnil]
      rfl
    · rwa [hnil, ModelFile.write_nil]
  · have hwrote : ∃ settled result st', xsputn Disk.kernel alloc st data = .ok (result, st') ∧
        Wrote m settled st' data ∧ (result = some data.length ∨ False) := by
      cases h with
      | inr h => exact ⟨True, xsputn_writing alloc h.1 h.2 hnil⟩
      | inl h =>
        cases hputting : st.s.putting with
        | true => exact ⟨True, xsputn_writing alloc (h.writing hputting) (h.settled hputting) hnil⟩
        | false => exact ⟨False, xsputn_idle alloc h hputting hnil⟩
    obtain ⟨settled, result, st', hrun, hwrote, hresult⟩ := hwrote
    rw [hresult.resolve_right id] at hrun
    exact ⟨st', hrun, .inr ⟨hwrote.1, hwrote.2 (.inr hnil)⟩⟩

theorem putc_disk (h : Between st m) (ch : UInt8) :
    ∃ st', putc Disk.kernel alloc st ch = .ok (true, st') ∧ Between st' (m.write [ch]) := by
  unfold putc
  split_ifs with hfull
  · obtain ⟨st', hrun, hboth⟩ := overflow_disk alloc (h.imp_right (·.1)) ch
    exact ⟨st', hrun, .inr hboth⟩
  · -- there is space only in put mode
    have hwriting : Writing st m := by
      cases h with
      | inr h => exact h.1
      | inl h =>
        apply h.writing
        by_contra hidle
        exact hfull (h.idle (by simpa using hidle))
    have hend := hwriting.writeEnd
    have hroom : st.s.writePtr + [ch].length ≤ st.s.size := by
      rw [List.length_singleton]
      omega
    refine ⟨⟨st.s.stored [ch], st.k⟩, ?_, .inr ⟨hwriting.stored hroom, ?_⟩⟩
    · rw [Stream.store, if_pos hroom]
      rfl
    · exact .stored hwriting.base_le (.inl (List.cons_ne_nil _ _))

end AwaitGlibc.FileStream
