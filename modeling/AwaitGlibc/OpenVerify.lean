import AwaitGlibc.ByteLayout
import AwaitGlibc.MapSegments

/-!
# Reading the headers of an object

`open_verify` from the descriptor on: the bytes at the start of the file, the program headers and
the notes. A read outside of the bytes that the file gave is a fault. Two sums of an offset and a
size of the file are compared with the number of bytes in the buffer; they are words and may wrap.
-/
namespace AwaitGlibc.OpenVerify
open ByteLayout MapSegments

/-- Why there is no descriptor. The first two are no errors of the source: bytes were read that are
not there, or a loop does not end. -/
inductive Stop
  | outside
  | endless
  | tooShort
  | invalid
  | readError
  deriving DecidableEq

/-- What a read at a position gives, if it does not fail, the tests of the ELF header, and
`_dl_osversion`. -/
structure File where
  read : ℕ → ℕ → Option Bytes
  valid : Bytes → Bool
  osversion : ℕ

/-- The offsets and sizes that were compared with the number of bytes in the buffer, and whether the
descriptor is kept. -/
structure Checks where
  tests : List (ℕ × ℕ)
  result : Except Stop Bool

structure Run extends Checks where
  len : ℕ

def load (region : Bytes) (p n : ℕ) : Except Stop Bytes :=
  if p + n ≤ region.length then .ok ((region.drop p).take n) else .error .outside

def field (bytes : Bytes) (pos width : ℕ) : ℕ := decode ((bytes.drop pos).take width)

/-- The loop that reads the header into the buffer of 832 bytes; the fuel bounds its rounds. -/
def readHeader (file : File) : ℕ → Bytes → Except Stop Bytes
  | 0, _ => .error .endless
  | fuel + 1, buf =>
    match file.read buf.length (832 - buf.length) with
    | none | some [] => .ok buf
    | some (b :: data) =>
      let buf := buf ++ (b :: data).take (832 - buf.length)
      if buf.length < 64 then readHeader file fuel buf else .ok buf

/-- `size` bytes from `offset` on: in the buffer, if the test says so, or read into another one. A
size that no object can have finds no memory. -/
def locate (file : File) (buf : Bytes) (offset size : ℕ) : Except Stop (Bytes × ℕ) :=
  if word (offset + size) ≤ buf.length then .ok (buf, offset)
  else if 2 ^ 63 ≤ size then .error .readError
  else match file.read offset size with
    | some data => if data.length = size then .ok (data, 0) else .error .readError
    | none => .error .readError

def noteNextOffset (namesz descsz align : ℕ) : ℕ :=
  alignUp (word (alignUp (word (12 + namesz)) align + descsz)) align

def expectedNote : Bytes := [4, 0, 0, 0, 16, 0, 0, 0, 1, 0, 0, 0, 71, 78, 85, 0]

/-- The loop over the notes of a segment. The comparison and what follows it read 32 bytes. -/
def findNote (region : Bytes) (align : ℕ) : ℕ → ℕ → ℕ → Except Stop (Option Bytes)
  | 0, _, _ => .error .endless
  | fuel + 1, p, size => do
    let note ← load region p 32
    if note.take 16 = expectedNote then pure (some note)
    else
      let noteSize := noteNextOffset (field note 0 4) (field note 4 4) align
      if sub size 32 < noteSize then pure none
      else findNote region align fuel (word (p + noteSize)) (sub size noteSize)

def searchNotes (file : File) (buf : Bytes) (offset size align : ℕ) :
    Except Stop (Option Bytes) := do
  let (notes, p) ← locate file buf offset size
  findNote notes align size p size

def accepts (file : File) (note : Bytes) : Bool :=
  field note 16 4 = 0 && (file.osversion = 0 ||
    field note 20 1 * 65536 + field note 24 1 * 256 + field note 28 1 ≤ file.osversion)

/-- The loop over `n` program headers from the `i`-th on. -/
def checkNotes (file : File) (buf region : Bytes) (p : ℕ) : ℕ → ℕ → Checks
  | 0, _ => ⟨[], .ok true⟩
  | n + 1, i =>
    match load region (word (p + 56 * i)) 56 with
    | .error e => ⟨[], .error e⟩
    | .ok ph =>
      let offset := field ph 8 8
      let size := field ph 32 8
      let align := field ph 48 8
      if field ph 0 4 = 4 ∧ 32 ≤ size ∧ (align = 4 ∨ align = 8) then
        match searchNotes file buf offset size align with
        | .error e => ⟨[(offset, size)], .error e⟩
        | .ok (some note) => ⟨[(offset, size)], .ok (accepts file note)⟩
        | .ok none =>
          let rest := checkNotes file buf region p n (i + 1)
          { rest with tests := (offset, size) :: rest.tests }
      else checkNotes file buf region p n (i + 1)

/-- The part of `open_verify` behind the tests of the ELF header. -/
def checkHeaders (file : File) (buf : Bytes) : Checks :=
  let phoff := field buf 32 8
  let phnum := field buf 56 2
  let maplength := phnum * 56
  match locate file buf phoff maplength with
  | .error e => ⟨[(phoff, maplength)], .error e⟩
  | .ok (phdr, p) =>
    let rest := checkNotes file buf phdr p phnum 0
    { rest with tests := (phoff, maplength) :: rest.tests }

def openVerify (file : File) : Run :=
  match readHeader file 64 [] with
  | .error e => ⟨⟨[], .error e⟩, 0⟩
  | .ok buf =>
    if buf.length < 64 then ⟨⟨[], .error .tooShort⟩, buf.length⟩
    else if file.valid (buf.take 64) then ⟨checkHeaders file buf, buf.length⟩
    else ⟨⟨[], .error .invalid⟩, buf.length⟩

/-- Only bytes that are there are read and every loop ends. -/
def Sound {α : Type} (result : Except Stop α) : Prop :=
  result ≠ .error .outside ∧ result ≠ .error .endless

structure Run.Safe (r : Run) : Prop where
  sound : Sound r.result
  inside : ∀ t ∈ r.tests, word (t.1 + t.2) ≤ r.len → t.1 + t.2 ≤ r.len

/-- A sum that wraps is still more than there is in the buffer. -/
def Tells (len : ℕ) (t : ℕ × ℕ) : Prop := 2 ^ 64 ≤ t.1 + t.2 → len < word (t.1 + t.2)

/-! ### The headers of the file -/

/-- The header of a segment in which notes are looked for. -/
abbrev IsNotes (ph : Bytes) : Prop :=
  field ph 0 4 = 4 ∧ 32 ≤ field ph 32 8 ∧ (field ph 48 8 = 4 ∨ field ph 48 8 = 8)

def programHeader (region : Bytes) (p i : ℕ) : Bytes := (region.drop (p + 56 * i)).take 56

/-- The offsets and sizes of the segments with notes, up to the first one that has the tag or
cannot be read. -/
def NotesTell (file : File) (buf : Bytes) : List Bytes → Prop
  | [] => True
  | ph :: phs =>
    if IsNotes ph then
      Tells buf.length (field ph 8 8, field ph 32 8) ∧
        (searchNotes file buf (field ph 8 8) (field ph 32 8) (field ph 48 8) = .ok none →
          NotesTell file buf phs)
    else NotesTell file buf phs

/-- The offset and the size of the program headers, and then those of the segments they
describe. -/
def HeadersTell (file : File) (buf : Bytes) : Prop :=
  Tells buf.length (field buf 32 8, field buf 56 2 * 56) ∧
    ∀ region p, locate file buf (field buf 32 8) (field buf 56 2 * 56) = .ok (region, p) →
      NotesTell file buf ((List.range (field buf 56 2)).map (programHeader region p))

theorem field_lt {bytes : Bytes} {pos width : ℕ} : field bytes pos width < 256 ^ width := by
  have hdecode (data : Bytes) : decode data < 256 ^ data.length := by
    induction data with
    | nil => exact Nat.one_pos
    | cons b data ih =>
      have hb := b.toNat_lt
      rw [decode, List.length_cons, pow_succ]
      omega
  exact (hdecode _).trans_le (Nat.pow_le_pow_right (by decide) (List.length_take_le _ _))

theorem sound_ok {α : Type} (a : α) : Sound (.ok a : Except Stop α) := ⟨nofun, nofun⟩

theorem load_ok {region : Bytes} {p n : ℕ} (h : p + n ≤ region.length) :
    load region p n = .ok ((region.drop p).take n) := if_pos h

theorem word_of_lt {x : ℕ} (h : x < 2 ^ 64) : word x = x := Nat.mod_eq_of_lt h

theorem sub_of_le {x y : ℕ} (hx : x < 2 ^ 64) (h : y ≤ x) : sub x y = x - y := by
  rw [sub, word_of_lt (h.trans_lt hx), word]
  omega

theorem le_noteNextOffset {namesz descsz align : ℕ} (hn : namesz < 2 ^ 32) (hd : descsz < 2 ^ 32)
    (halign : align = 4 ∨ align = 8) : 12 ≤ noteNextOffset namesz descsz align := by
  obtain rfl | rfl := halign <;> simp only [noteNextOffset, alignUp, alignDown, word] <;> omega

/-- Each note takes at least twelve bytes, and the bytes left contain a whole tag. -/
theorem findNote_ok {region : Bytes} {align : ℕ} (halign : align = 4 ∨ align = 8)
    (hregion : region.length < 2 ^ 64) (fuel : ℕ) {p size : ℕ} (hfuel : size ≤ fuel)
    (hsize : 32 ≤ size) (h : p + size ≤ region.length) :
    ∃ note, findNote region align fuel p size = .ok note := by
  induction fuel generalizing p size with
  | zero => omega
  | succ fuel ih =>
    rw [findNote, load_ok (by omega)]
    change ∃ note, ite _ _ _ = _
    generalize (region.drop p).take 32 = note
    have hnote : 12 ≤ noteNextOffset (field note 0 4) (field note 4 4) align :=
      le_noteNextOffset field_lt field_lt halign
    generalize noteNextOffset _ _ _ = n at hnote
    rw [sub_of_le (by omega) hsize]
    split_ifs with hexpected hlast
    · exact ⟨_, rfl⟩
    · exact ⟨_, rfl⟩
    · rw [word_of_lt (by omega), sub_of_le (by omega) (by omega)]
      exact ih (by omega) (by omega) (by omega)

theorem Tells.inside {len : ℕ} {t : ℕ × ℕ} (h : Tells len t) (hin : word (t.1 + t.2) ≤ len) :
    t.1 + t.2 ≤ len := by
  have hsum : t.1 + t.2 < 2 ^ 64 := by
    by_contra hwrap
    exact absurd (h (Nat.le_of_not_lt hwrap)) (Nat.not_lt.mpr hin)
  rwa [word_of_lt hsum] at hin

section Spec
variable (file : File) {buf : Bytes} (hbuf : buf.length < 2 ^ 63)
include hbuf

theorem locate_spec {offset size : ℕ} (h : Tells buf.length (offset, size)) :
    locate file buf offset size = .error .readError ∨ ∃ region p,
      locate file buf offset size = .ok (region, p) ∧ p + size ≤ region.length ∧
        region.length < 2 ^ 64 := by
  rw [locate]
  split_ifs with hin hlarge
  · exact .inr ⟨buf, offset, rfl, h.inside hin, by omega⟩
  · exact .inl rfl
  · cases file.read offset size with
    | none => exact .inl rfl
    | some data =>
      dsimp only
      split_ifs with hlen
      · exact .inr ⟨data, 0, rfl, by omega, by omega⟩
      · exact .inl rfl

theorem searchNotes_spec {offset size align : ℕ} (hsize : 32 ≤ size)
    (halign : align = 4 ∨ align = 8) (h : Tells buf.length (offset, size)) :
    searchNotes file buf offset size align = .error .readError ∨
      ∃ note, searchNotes file buf offset size align = .ok note := by
  rw [searchNotes]
  obtain hlocate | ⟨notes, p, hlocate, hle, hlt⟩ := locate_spec file hbuf h
  · exact .inl (by rw [hlocate]; rfl)
  · rw [hlocate]
    exact .inr (findNote_ok halign hlt _ le_rfl hsize hle)

theorem checkNotes_sound {region : Bytes} {p : ℕ} (hregion : region.length < 2 ^ 64) (n i : ℕ)
    (h : p + 56 * (i + n) ≤ region.length)
    (htests : ∀ t ∈ (checkNotes file buf region p n i).tests, Tells buf.length t) :
    Sound (checkNotes file buf region p n i).result := by
  induction n generalizing i with
  | zero => exact sound_ok true
  | succ n ih =>
    have hrest := ih (i + 1) (by omega)
    rw [checkNotes, word_of_lt (by omega), load_ok (by omega)] at htests ⊢
    dsimp only at htests ⊢
    generalize (region.drop (p + 56 * i)).take 56 = ph at htests ⊢
    split_ifs at htests ⊢ with hnote
    · obtain ⟨-, hsize, halign⟩ := hnote
      have htest : Tells buf.length (field ph 8 8, field ph 32 8) := by
        apply htests
        split <;> exact List.mem_cons_self
      obtain hsearch | ⟨note, hsearch⟩ := searchNotes_spec file hbuf hsize halign htest
      · rw [hsearch]
        exact ⟨nofun, nofun⟩
      · rw [hsearch] at htests ⊢
        cases note with
        | none => exact hrest fun t ht => htests t (List.mem_cons_of_mem _ ht)
        | some note => exact sound_ok _
    · exact hrest htests

omit hbuf in
theorem checkNotes_tells_iff {region : Bytes} {p : ℕ} (hregion : region.length < 2 ^ 64) (n i : ℕ)
    (h : p + 56 * (i + n) ≤ region.length) :
    (∀ t ∈ (checkNotes file buf region p n i).tests, Tells buf.length t) ↔
      NotesTell file buf ((List.range' i n).map (programHeader region p)) := by
  induction n generalizing i with
  | zero => exact iff_of_true nofun trivial
  | succ n ih =>
    have hrest := ih (i + 1) (by omega)
    rw [List.range'_succ, List.map_cons, NotesTell, ← hrest, checkNotes, word_of_lt (by omega),
      load_ok (by omega), programHeader]
    dsimp only
    generalize (region.drop (p + 56 * i)).take 56 = ph
    by_cases hnote : IsNotes ph
    · rw [if_pos hnote, if_pos hnote]
      cases searchNotes file buf (field ph 8 8) (field ph 32 8) (field ph 48 8) with
      | error e => simp
      | ok note => cases note <;> simp
    · rw [if_neg hnote, if_neg hnote]

theorem checkHeaders_tells_iff :
    (∀ t ∈ (checkHeaders file buf).tests, Tells buf.length t) ↔ HeadersTell file buf := by
  rw [checkHeaders, HeadersTell]
  dsimp only
  by_cases htest : Tells buf.length (field buf 32 8, field buf 56 2 * 56)
  · obtain hlocate | ⟨phdr, p, hlocate, hle, hlt⟩ := locate_spec file hbuf htest
    · simp [hlocate, htest]
    · have hnotes : _ ↔ NotesTell file buf (List.map (programHeader phdr p) _) :=
        checkNotes_tells_iff file hlt (field buf 56 2) 0 (by omega)
      rw [← List.range_eq_range'] at hnotes
      simp only [hlocate, List.forall_mem_cons, htest, true_and, Except.ok.injEq, Prod.mk.injEq,
        and_imp, hnotes]
      constructor
      · rintro h _ _ rfl rfl
        exact h
      · exact fun h => h phdr p rfl rfl
  · refine iff_of_false (fun h => htest (h _ ?_)) fun h => htest h.1
    split <;> exact List.mem_cons_self

theorem checkHeaders_sound (htests : ∀ t ∈ (checkHeaders file buf).tests, Tells buf.length t) :
    Sound (checkHeaders file buf).result := by
  rw [checkHeaders] at htests ⊢
  have htest : Tells buf.length (field buf 32 8, field buf 56 2 * 56) := by
    apply htests
    split <;> exact List.mem_cons_self
  obtain hlocate | ⟨phdr, p, hlocate, hle, hlt⟩ := locate_spec file hbuf htest
  · rw [hlocate]
    exact ⟨nofun, nofun⟩
  · rw [hlocate] at htests ⊢
    exact checkNotes_sound file hbuf hlt _ 0 (by omega) fun t ht => htests t (List.mem_cons_of_mem _ ht)

end Spec

theorem readHeader_ok (file : File) (fuel : ℕ) {buf : Bytes} (hfuel : 64 ≤ buf.length + fuel)
    (hshort : buf.length < 64) :
    ∃ buf', readHeader file fuel buf = .ok buf' ∧ buf'.length ≤ 832 := by
  induction fuel generalizing buf with
  | zero => omega
  | succ fuel ih =>
    rw [readHeader]
    split
    · exact ⟨buf, rfl, by omega⟩
    · exact ⟨buf, rfl, by omega⟩
    · rename_i b data _
      have hlen : (buf ++ (b :: data).take (832 - buf.length)).length =
          buf.length + min (832 - buf.length) (data.length + 1) := by simp
      dsimp only
      split_ifs with hless
      · exact ih (by omega) hless
      · exact ⟨_, rfl, by omega⟩

/-- Reads stay inside the buffers exactly where no sum of an offset and a size in the headers
wraps to a small one. -/
theorem openVerify_safe_iff (file : File) :
    (openVerify file).Safe ↔ ∀ buf, readHeader file 64 [] = .ok buf → 64 ≤ buf.length →
      file.valid (buf.take 64) = true → HeadersTell file buf := by
  obtain ⟨buf, hread, hbuf⟩ :=
    readHeader_ok file 64 (show 64 ≤ ([] : Bytes).length + 64 by decide) (by decide)
  simp only [openVerify, hread, Except.ok.injEq, forall_eq']
  split_ifs with hshort hvalid
  · exact iff_of_true ⟨⟨nofun, nofun⟩, nofun⟩ fun h => absurd hshort (Nat.not_lt.mpr h)
  · simp only [Nat.not_lt.mp hshort, hvalid, forall_const]
    rw [← checkHeaders_tells_iff file (by omega)]
    constructor
    · intro h t ht hwrap
      by_contra hin
      have hle : t.1 + t.2 ≤ buf.length := h.inside t ht (Nat.le_of_not_lt hin)
      omega
    · intro h
      exact ⟨checkHeaders_sound file (by omega) h, fun t ht => (h t ht).inside⟩
  · exact iff_of_true ⟨⟨nofun, nofun⟩, nofun⟩ fun _ h => absurd h hvalid

/-- A header whose `e_phoff` is 56 bytes before the end of the address space, with one program
header. -/
def wrapping : File where
  read offset _ := some ((List.replicate 32 0 ++ encode 8 (2 ^ 64 - 56) ++ List.replicate 16 0 ++
    encode 2 1 ++ List.replicate 6 0).drop offset)
  valid _ := true
  osversion := 0

theorem wrapping_reads_outside :
    (openVerify wrapping).tests = [(2 ^ 64 - 56, 56)] ∧ (openVerify wrapping).len = 64 ∧
      (openVerify wrapping).result = .error .outside := by
  decide

end AwaitGlibc.OpenVerify
