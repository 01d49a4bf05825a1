import AwaitGlibc.UpdateStreamInput

/-! Seeks of update streams, and whole runs. A seek inside the get area moves the read pointer, any
other one goes to a block boundary and reads from there as far as it has to. -/
namespace AwaitGlibc.FileStream
open CheckedArray FileContent

variable (alloc : Alloc)

/-! ### Block boundaries -/

theorem ldiff_add_land (n mask : ℕ) : Nat.ldiff n mask + (n &&& mask) = n := by
  induction n using Nat.binaryRec generalizing mask with
  | zero => simp [Nat.ldiff]
  | bit b n ih =>
    obtain ⟨b', rest, rfl⟩ : ∃ b' rest, mask = Nat.bit b' rest :=
      ⟨mask.bodd, mask.div2, (Nat.bit_bodd_div2 mask).symm⟩
    rw [Nat.ldiff_bit, Nat.land_bit]
    have := ih rest
    cases b <;> cases b' <;> simp only [Nat.bit_val, Bool.and_true, Bool.and_false, Bool.not_true,
      Bool.not_false, Bool.toNat_true, Bool.toNat_false] <;> omega

theorem blockStart_of_nonneg {s : Stream} (hsize : 0 < s.size) (n : ℕ) :
    ∃ start delta : ℕ, blockStart s n = (↑start, ↑delta) ∧ start + delta = n ∧ delta < s.size := by
  have hmask : (s.size : ℤ) - 1 = (s.size - 1 : ℕ) := by omega
  have hsum := ldiff_add_land n (s.size - 1)
  have hle : n &&& (s.size - 1) ≤ s.size - 1 := Nat.and_le_right
  have hstart : Int.land n (Int.lnot (s.size - 1)) = (Nat.ldiff n (s.size - 1) : ℕ) := by
    rw [hmask]
    rfl
  refine ⟨Nat.ldiff n (s.size - 1), n &&& (s.size - 1), ?_, hsum, by omega⟩
  rw [blockStart, hstart, if_neg (by omega)]
  congr 1
  omega

variable {offset : ℤ}

theorem blockStart_of_negative {s : Stream} (hsize : 0 < s.size) (h : offset < 0) :
    (blockStart s offset).1 < 0 := by
  have hmask : (s.size : ℤ) - 1 = (s.size - 1 : ℕ) := by omega
  have hstart : offset.land (Int.lnot (s.size - 1)) < 0 := by
    obtain ⟨n, rfl⟩ := Int.eq_negSucc_of_lt_zero h
    rw [hmask]
    exact Int.negSucc_lt_zero _
  rw [blockStart]
  split_ifs
  · exact h
  · exact hstart

/-! ### Seeks -/

theorem ModelFile.seek_target (m : ModelFile) (offset : ℤ) (whence : Whence) :
    m.seek offset whence = m.seek (m.target offset whence) .set := rfl

variable {m : ModelFile}

theorem ModelFile.seek_of_negative (h : offset < 0) :
    m.seek offset .set = (none, m) := if_pos h

theorem ModelFile.seek_of_nonneg (m : ModelFile) (n : ℕ) :
    m.seek n .set = (some ↑n, ⟨m.content, n⟩) := by
  exact if_neg (by change ¬(n : ℤ) < 0; omega)

theorem seekDumb_disk (st : State Disk) (h : st.s.Open) (hbuf : st.s.buf ≠ [])
    {whence : Whence} {pos : ℕ} (htarget : st.k.target offset whence = pos) :
    ∃ st', seekDumb Disk.kernel st offset whence = (some ↑pos, st') ∧
      Reading st' ⟨st.k.content, pos⟩ := by
  rw [seekDumb, Disk.seek_of_target htarget]
  refine ⟨_, rfl, ?_⟩
  apply Reading.rewound h hbuf
  · rintro _ ⟨⟩
    rfl
  · nofun
  · rfl
  · rfl

variable {st : State Disk}

theorem seekDumb_negative {whence : Whence} (htarget : st.k.target offset whence < 0) :
    seekDumb Disk.kernel st offset whence = (none, st) := by
  rw [seekDumb, Disk.seek_of_negative htarget]

theorem seekBlock_negative (h : st.s.Open) (hbuf : st.s.buf ≠ [])
    (mustBeExact : Bool) (hneg : offset < 0) :
    seekBlock Disk.kernel mustBeExact st offset = .ok (none, st) := by
  have hstart : st.k.target (blockStart st.s offset).1 .set < 0 :=
    blockStart_of_negative (List.length_pos_of_ne_nil hbuf) hneg
  rw [seekBlock, h.noReads, if_neg Bool.false_ne_true]
  simp only [Disk.seek_of_negative hstart]

/-- A short read is made good by a seek over the remainder. -/
theorem seekBlock_nonneg (h : st.s.Open) (hbuf : st.s.buf ≠ [])
    (hputting : st.s.putting = false) (mustBeExact : Bool) (n : ℕ) :
    ∃ st', seekBlock Disk.kernel mustBeExact st n = .ok (some ↑n, st') ∧
      Reading st' ⟨st.k.content, n⟩ := by
  have hsize : 0 < st.s.size := List.length_pos_of_ne_nil hbuf
  obtain ⟨start, delta, hblock, hsum, hlt⟩ := blockStart_of_nonneg hsize n
  have hstart : st.k.target start .set = start := rfl
  rw [seekBlock, h.noReads, if_neg Bool.false_ne_true]
  simp only [hblock, Disk.seek_of_target hstart]
  by_cases hzero : delta = 0
  · refine ⟨_, if_pos (by exact_mod_cast hzero), ?_⟩
    apply Reading.rewound h hbuf
    · rintro _ ⟨⟩
      rfl
    · nofun
    · rfl
    · change n = start
      omega
  · rw [if_neg (by exact_mod_cast hzero)]
    obtain ⟨count, hcount⟩ : ∃ count, count =
      if mustBeExact = true then (delta : ℤ).toNat else st.s.size := ⟨_, rfl⟩
    have hfits : count ≤ st.s.size := by
      rw [hcount]
      split_ifs
      · exact hlt.le
      · exact le_refl _
    obtain ⟨data, d, hread, hdata, hle, hcontent, hpos, -⟩ :=
      Disk.read_spec { st.k with pos := start } count
    have hbuf' : data ++ st.s.buf.drop data.length ≠ [] := by
      intro hnil
      have hdrop := List.drop_eq_nil_iff.mp (List.append_eq_nil_iff.mp hnil).2
      rw [(List.append_eq_nil_iff.mp hnil).1] at hdrop
      exact hbuf (List.eq_nil_of_length_eq_zero (Nat.le_zero.mp hdrop))
    rw [← hcount]
    simp only [hread, Stream.store_start (hle.trans hfits)]
    by_cases hshort : data.length < delta
    · have htarget : d.target (delta - data.length) .cur = n := by
        rw [Disk.target, hpos]
        push_cast
        omega
      obtain ⟨st', hrun, hreading⟩ := seekDumb_disk
        ⟨{ st.s with buf := data ++ st.s.buf.drop data.length }, d⟩
        ⟨h.appending, h.noReads, h.noWrites⟩ hbuf' htarget
      rw [show (⟨d.content, n⟩ : ModelFile) = ⟨st.k.content, n⟩ by rw [hcontent]] at hreading
      refine ⟨st', ?_, hreading⟩
      exact (if_pos (by exact_mod_cast hshort)).trans (congrArg Except.ok hrun)
    · refine ⟨_, if_neg (by exact_mod_cast hshort), ?_⟩
      apply Reading.placed h hbuf'
      case hend => rw [List.length_append]; omega
      case hptr => omega
      case hputting => rw [hputting]; nofun
      case hoffset => rintro _ ⟨⟩; exact hpos.symm
      case heof => nofun
      case hcontent => exact hcontent.symm
      case hpos =>
        rw [hpos]
        change n + data.length = start + data.length + delta
        omega
      case hbehind => omega
      case hcopy =>
        rw [List.take_left, hcontent, hpos, Nat.add_sub_cancel]
        exact hdata

section
variable (h : Reading st m) (hbuf : st.s.buf ≠ []) (hputting : st.s.putting = false)
  (mustBeExact : Bool)
include h hbuf hputting mustBeExact

theorem seekBlock_disk (offset : ℤ) :
    ∃ st', seekBlock Disk.kernel mustBeExact st offset = .ok ((m.seek offset .set).1, st') ∧
      Reading st' (m.seek offset .set).2 := by
  by_cases hneg : offset < 0
  · rw [ModelFile.seek_of_negative hneg]
    exact ⟨st, seekBlock_negative h.toOpen hbuf mustBeExact hneg, h⟩
  · obtain ⟨n, rfl⟩ := Int.eq_ofNat_of_zero_le (Int.not_lt.mp hneg)
    rw [ModelFile.seek_of_nonneg, h.content]
    exact seekBlock_nonneg h.toOpen hbuf hputting mustBeExact n

theorem seekSet_disk (offset : ℤ) :
    ∃ st', seekSet Disk.kernel mustBeExact st offset = .ok ((m.seek offset .set).1, st') ∧
      Reading st' (m.seek offset .set).2 := by
  unfold seekSet
  cases hoffset : st.s.offset with
  | none => exact seekBlock_disk h hbuf hputting mustBeExact offset
  | some pos =>
    obtain rfl := h.offset pos hoffset
    by_cases hinside : ¬st.s.null ∧ offset ≥ st.k.pos - st.s.readEnd ∧ offset < st.k.pos
    · -- the pointer moves inside the get area
      have hbehind := h.behind
      obtain ⟨n, rfl⟩ := Int.eq_ofNat_of_zero_le (show 0 ≤ offset by omega)
      have hseek : Disk.kernel.seek st.k st.k.pos .set = (.ok st.k.pos, st.k) :=
        Disk.seek_of_target (rfl : st.k.target st.k.pos .set = st.k.pos)
      refine ⟨_, if_pos hinside, ?_⟩
      change Reading ⟨st.s.placed st.s.buf ((n : ℤ) - (st.k.pos - st.s.readEnd)).toNat st.s.readEnd
        st.s.offset false, st.k⟩ _
      apply Reading.placed h.toOpen hbuf
      case hend => exact h.readEnd
      case hptr => omega
      case hputting => rw [hputting]; nofun
      case hoffset => exact h.offset
      case heof => nofun
      case hcontent => exact h.content
      case hpos =>
        change n + st.s.readEnd = _
        omega
      case hbehind => exact hbehind
      case hcopy => exact h.copy
    · obtain ⟨st', hrun, hreading⟩ := seekBlock_disk h hbuf hputting mustBeExact offset
      exact ⟨st', (if_neg hinside).trans hrun, hreading⟩

theorem seekFrom_disk (offset : ℤ) (whence : Whence) :
    ∃ st', seekFrom Disk.kernel mustBeExact st offset whence = .ok ((m.seek offset whence).1, st') ∧
      Reading st' (m.seek offset whence).2 := by
  rw [ModelFile.seek_target]
  cases whence with
  | set => exact seekSet_disk h hbuf hputting mustBeExact offset
  | end_ =>
    have htarget : m.target offset .end_ = offset + st.k.content.length := by
      rw [ModelFile.target, h.content]
      omega
    rw [htarget]
    exact seekSet_disk h hbuf hputting mustBeExact _
  | cur =>
    have hpos := h.position
    have htarget : m.target offset .cur = offset - (st.s.readEnd - st.s.readPtr) + st.k.pos := by
      rw [ModelFile.target]
      omega
    rw [htarget, seekFrom]
    cases hoffset : st.s.offset with
    | none =>
      have hkernel : st.k.target (offset - (st.s.readEnd - st.s.readPtr)) .cur =
          offset - (st.s.readEnd - st.s.readPtr) + st.k.pos := by
        rw [Disk.target]
        omega
      generalize offset - (st.s.readEnd - st.s.readPtr) + (st.k.pos : ℤ) = target at *
      by_cases hneg : target < 0
      · rw [ModelFile.seek_of_negative hneg]
        exact ⟨st, congrArg Except.ok (seekDumb_negative (by rwa [hkernel])), h⟩
      · obtain ⟨n, rfl⟩ := Int.eq_ofNat_of_zero_le (Int.not_lt.mp hneg)
        obtain ⟨st', hrun, hreading⟩ := seekDumb_disk st h.toOpen hbuf hkernel
        rw [ModelFile.seek_of_nonneg, h.content]
        exact ⟨st', congrArg Except.ok hrun, hreading⟩
    | some pos =>
      obtain rfl := h.offset pos hoffset
      by_cases hneg : offset - (st.s.readEnd - st.s.readPtr) + st.k.pos < 0
      · rw [ModelFile.seek_of_negative hneg]
        exact ⟨st, if_pos hneg, h⟩
      · obtain ⟨st', hrun, hreading⟩ := seekSet_disk h hbuf hputting mustBeExact
          (offset - (st.s.readEnd - st.s.readPtr) + st.k.pos)
        exact ⟨st', (if_neg hneg).trans hrun, hreading⟩

end

theorem flushForSeek_disk (h : Between st m) :
    ∃ st', flushForSeek Disk.kernel alloc st = .ok (true, st') ∧ Reading st' m ∧
      st'.s.putting = false := by
  unfold flushForSeek
  by_cases hpending : st.s.writePtr > st.s.writeBase
  · have hwriting := h.writing hpending
    obtain ⟨st₁, hrun₁, hwriting₁, hnothing₁, hsettled₁⟩ := overflowEof_disk alloc (.inr hwriting)
    have hreading₁ := hwriting₁.reading (hsettled₁ hwriting.putting (.inl hpending)) hnothing₁
    refine ⟨⟨st₁.s.getMode, st₁.k⟩, ?_, (hreading₁.getMode hwriting₁.putting).1, rfl⟩
    rw [if_pos (.inl hpending), switchToGetMode, overflowPending, if_pos hpending, hrun₁]
    rfl
  · have hreading := h.reading hpending
    cases hputting : st.s.putting with
    | false => exact ⟨st, if_neg (by simp [hpending]), hreading, hputting⟩
    | true =>
      refine ⟨_, ?_, (hreading.getMode hputting).1, rfl⟩
      rw [if_pos (.inr rfl), switchToGetMode_nothing alloc hreading.nothing]

theorem Reading.buffered (h : Reading st m) :
    Reading ⟨st.s.buffered alloc, st.k⟩ m ∧ (st.s.buffered alloc).buf ≠ [] ∧
      (st.s.buffered alloc).putting = st.s.putting := by
  unfold Stream.buffered
  split_ifs with hbuf
  · obtain ⟨buf, buffering, hnew, -, halloc⟩ := doallocbuf_eq alloc st.s
    have hend := h.readEnd
    have hptr := h.readPtr
    have hpos := h.position
    rw [Stream.size, hbuf, List.length_nil] at hend
    rw [halloc]
    refine ⟨?_, hnew, rfl⟩
    exact Reading.rewound (s := { st.s with buffering := buffering })
      ⟨h.appending, h.noReads, h.noWrites⟩ hnew h.offset h.eof h.content (by omega)
  · exact ⟨h, hbuf, rfl⟩

/-- `fseek` goes where the file without a buffer goes, with nothing left to be written. -/
theorem fseek_disk (h : Between st m) (offset : ℤ) (whence : Whence) :
    ∃ st', fseek Disk.kernel alloc st offset whence = .ok ((m.seek offset whence).1, st') ∧
      Reading st' (m.seek offset whence).2 := by
  obtain ⟨st₁, hrun₁, hreading₁, hputting₁⟩ := flushForSeek_disk alloc h
  obtain ⟨hreading₂, hbuf₂, hputting₂⟩ := hreading₁.buffered alloc
  obtain ⟨st₃, hrun₃, hreading₃⟩ := seekFrom_disk hreading₂ hbuf₂ (hputting₂.trans hputting₁)
    (st.s.readBase = st.s.readEnd ∧ st.s.writeBase = st.s.writePtr) offset whence
  refine ⟨st₃, ?_, hreading₃⟩
  rw [fseek, hrun₁]
  exact hrun₃

/-! ### Runs -/

inductive Update
  | fread (n : ℕ)
  | getc
  | fwrite (data : Bytes)
  | putc (ch : UInt8)
  | fseek (offset : ℤ) (whence : Whence)
  | ftell
  | fflush

inductive Answer
  | bytes (data : Bytes)
  | char (ch : Option UInt8)
  | count (n : Option ℕ)
  | success (done : Bool)
  | position (pos : Option ℕ)
deriving DecidableEq

namespace Update

def run {K : Type} (kernel : Kernel K) (alloc : Alloc) (st : State K) :
    Update → Except Fault (Answer × State K)
  | .fread n => do
    let (data, st) ← FileStream.fread kernel alloc st n
    return (.bytes data, st)
  | .getc => do
    let (ch, st) ← FileStream.getc kernel alloc st
    return (.char ch, st)
  | .fwrite data => do
    let (n, st) ← xsputn kernel alloc st data
    return (.count n, st)
  | .putc ch => do
    let (taken, st) ← FileStream.putc kernel alloc st ch
    return (.success taken, st)
  | .fseek offset whence => do
    let (result, st) ← FileStream.fseek kernel alloc st offset whence
    return (.success result.isSome, st)
  | .ftell => .ok (.position (FileStream.ftell kernel st).1, (FileStream.ftell kernel st).2)
  | .fflush => do
    let (flushed, st) ← FileStream.fflush kernel st
    return (.success flushed, st)

def expected (m : ModelFile) : Update → Answer × ModelFile
  | .fread n => (.bytes (m.read n).1, (m.read n).2)
  | .getc => (.char m.getc.1, m.getc.2)
  | .fwrite data => (.count (some data.length), m.write data)
  | .putc ch => (.success true, m.write [ch])
  | .fseek offset whence => (.success (m.seek offset whence).1.isSome, (m.seek offset whence).2)
  | .ftell => (.position (some m.pos), m)
  | .fflush => (.success true, m)

def reads : Update → Bool
  | .fread _ | .getc => true
  | _ => false

def synchronizes : Update → Bool
  | .fseek _ _ | .fflush => true
  | _ => false

/-- Whether the last transfer is a write that nothing separates from the next call. -/
def written (before : Bool) : Update → Bool
  | .fwrite _ | .putc _ => true
  | .fseek _ _ | .fflush => false
  | .fread _ | .getc | .ftell => before

/-- No write is followed by a read without a flush or a seek between them. Of the rule for update
streams this is the half that the buffer depends on; a read may be followed by a write. -/
def Separated : Bool → List Update → Prop
  | _, [] => True
  | before, call :: calls => (call.reads → before = false) ∧ Separated (call.written before) calls

def runAll {K : Type} (kernel : Kernel K) (alloc : Alloc) :
    State K → List Update → Except Fault (List Answer × State K)
  | st, [] => .ok ([], st)
  | st, call :: calls => do
    let (answer, st) ← call.run kernel alloc st
    let (answers, st) ← runAll kernel alloc st calls
    return (answer :: answers, st)

def expectedAll : ModelFile → List Update → List Answer × ModelFile
  | m, [] => ([], m)
  | m, call :: calls =>
    ((call.expected m).1 :: (expectedAll (call.expected m).2 calls).1,
      (expectedAll (call.expected m).2 calls).2)

/-- One call: the stream answers as the file without a buffer does. -/
theorem run_disk (h : Between st m) {before : Bool}
    (hread : before = false → Reading st m) (call : Update) (hcall : call.reads → before = false) :
    ∃ st', call.run Disk.kernel alloc st = .ok ((call.expected m).1, st') ∧
      Between st' (call.expected m).2 ∧
      (call.written before = false → Reading st' (call.expected m).2) := by
  cases call with
  | fread n =>
    obtain ⟨st', hrun, hreading⟩ := fread_disk alloc (hread (hcall rfl)) n
    refine ⟨st', ?_, .inl hreading, fun _ => hreading⟩
    rw [run, hrun]
    rfl
  | getc =>
    obtain ⟨st', hrun, hreading⟩ := getc_disk alloc (hread (hcall rfl))
    refine ⟨st', ?_, .inl hreading, fun _ => hreading⟩
    rw [run, hrun]
    rfl
  | fwrite data =>
    obtain ⟨st', hrun, hbetween⟩ := xsputn_disk alloc h data
    refine ⟨st', ?_, hbetween, nofun⟩
    rw [run, hrun]
    rfl
  | putc ch =>
    obtain ⟨st', hrun, hbetween⟩ := putc_disk alloc h ch
    refine ⟨st', ?_, hbetween, nofun⟩
    rw [run, hrun]
    rfl
  | fseek offset whence =>
    obtain ⟨st', hrun, hreading⟩ := fseek_disk alloc h offset whence
    refine ⟨st', ?_, .inl hreading, fun _ => hreading⟩
    rw [run, hrun]
    rfl
  | ftell =>
    refine ⟨st, ?_, h, hread⟩
    rw [run, ftell_disk h]
    rfl
  | fflush =>
    obtain ⟨st', hrun, hreading⟩ := fflush_disk h
    refine ⟨st', ?_, .inl hreading, fun _ => hreading⟩
    rw [run, hrun]
    rfl

def writtenAll (before : Bool) (calls : List Update) : Bool := calls.foldl written before

theorem runAll_disk (h : Between st m) {before : Bool}
    (hread : before = false → Reading st m) (calls : List Update) (hcalls : Separated before calls) :
    ∃ st', runAll Disk.kernel alloc st calls = .ok ((expectedAll m calls).1, st') ∧
      Between st' (expectedAll m calls).2 ∧
      (writtenAll before calls = false → Reading st' (expectedAll m calls).2) := by
  induction calls generalizing st m before with
  | nil => exact ⟨st, rfl, h, hread⟩
  | cons call calls ih =>
    obtain ⟨st₁, hrun₁, hbetween₁, hread₁⟩ := run_disk alloc h hread call hcalls.1
    obtain ⟨st₂, hrun₂, hboth⟩ := ih hbetween₁ hread₁ hcalls.2
    refine ⟨st₂, ?_, hboth⟩
    rw [runAll, hrun₁, ok_bind]
    dsimp only
    rw [hrun₂]
    rfl

theorem writtenAll_synchronizes (before : Bool) (calls : List Update) {last : Update}
    (h : last.synchronizes) : writtenAll before (calls ++ [last]) = false := by
  rw [writtenAll, List.foldl_append]
  cases last <;> first | rfl | cases h

end Update

/-- A stream opened for reading and writing, with a buffer that was set for it or none yet. -/
def openedUpdate (buf : Bytes) (buffering : Buffering) : Stream :=
  { opened buf buffering false with noReads := false }

theorem openedUpdate_reading (buf : Bytes) (buffering : Buffering) (d : Disk) :
    Reading ⟨openedUpdate buf buffering, d⟩ ⟨d.content, d.pos⟩ := by
  constructor
  case toUpdatable =>
    exact ⟨⟨rfl, rfl, rfl⟩, by nofun, by nofun, le_refl _, Nat.zero_le _, Nat.zero_le _⟩
  case ready => cases buf <;> simp [openedUpdate, opened]
  case copy => rfl
  all_goals simp [openedUpdate, opened]

/-- Every run of calls on an update stream in which writes and reads are separated ends without an
access outside the buffer, and every call returns what it returns on the file without a buffer. When
the last call is a flush or a seek, the kernel's file is that file. -/
theorem update_refines (d : Disk) (buf : Bytes) (buffering : Buffering) (calls : List Update)
    (hcalls : Update.Separated false calls) :
    ∃ st', Update.runAll Disk.kernel alloc ⟨openedUpdate buf buffering, d⟩ calls =
        .ok ((Update.expectedAll ⟨d.content, d.pos⟩ calls).1, st') ∧
      ∀ first last, calls = first ++ [last] → last.synchronizes →
        st'.k.content = (Update.expectedAll ⟨d.content, d.pos⟩ calls).2.content := by
  have hopened := openedUpdate_reading buf buffering d
  obtain ⟨st', hrun, -, hread⟩ :=
    Update.runAll_disk alloc (.inl hopened) (fun _ => hopened) calls hcalls
  refine ⟨st', hrun, ?_⟩
  intro first last hsplit hlast
  have hreading := hread (by rw [hsplit]; exact Update.writtenAll_synchronizes false first hlast)
  exact hreading.content.symm

/-- Two bytes are read through a buffer of three, written over after a seek, and read back. -/
theorem update_refines_seek :
    ∃ st', Update.runAll Disk.kernel ⟨3, false, by decide⟩
        ⟨openedUpdate [] .full, [1, 2, 3, 4, 5], 0, fun _ => 0⟩
        [.fread 2, .fseek (-1) .cur, .fwrite [7, 8], .ftell, .fflush, .getc] =
      .ok ([.bytes [1, 2], .success true, .count (some 2), .position (some 3), .success true,
        .char (some 4)], st') := by
  obtain ⟨st', hrun, -⟩ := update_refines ⟨3, false, by decide⟩ ⟨[1, 2, 3, 4, 5], 0, fun _ => 0⟩ [] .full
    [.fread 2, .fseek (-1) .cur, .fwrite [7, 8], .ftell, .fflush, .getc]
    ⟨fun _ => rfl, nofun, nofun, nofun, nofun, fun _ => rfl, trivial⟩
  exact ⟨st', hrun⟩

end AwaitGlibc.FileStream
