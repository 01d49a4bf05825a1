import Mathlib

/-!
# Mapping the segments of a shared object

The part of `_dl_map_object_from_fd` that collects the load commands of an object of type
`ET_DYN`, and `_dl_map_segments` with `_dl_map_segment`, as operations on the address space. The
kernel may refuse a mapping or a change of protection where the source looks at the result.
-/
namespace AwaitGlibc.MapSegments

structure Prot where
  read : Bool
  write : Bool
  exec : Bool
  deriving DecidableEq

def Prot.none : Prot := ⟨false, false, false⟩

abbrev Cell := Option (Prot × UInt8)

abbrev Space := ℕ → Cell

/-- A program header of type `PT_LOAD`, with its flags as protection bits. -/
structure Phdr where
  offset : ℕ
  vaddr : ℕ
  filesz : ℕ
  memsz : ℕ
  align : ℕ
  prot : Prot

structure Loadcmd where
  mapstart : ℕ
  mapend : ℕ
  dataend : ℕ
  allocend : ℕ
  mapoff : ℕ
  prot : Prot

inductive Error
  | notPageAligned
  | noSegments
  | mapSegment
  | mprotect
  | mapZeroFill
  deriving DecidableEq

inductive Call
  | mmap (addr len : ℕ) (prot : Prot)
  | mprotect (addr len : ℕ) (prot : Prot)
  deriving DecidableEq

/-- The page size, the address chosen for a mapping of some length, and the calls that fail. -/
structure Kernel where
  shift : ℕ
  place : ℕ → ℕ
  fails : Call → Bool
  shift_lt : shift < 64
  place_dvd : ∀ len, 2 ^ shift ∣ place len

/-! ## Words -/

def word (x : ℕ) : ℕ := x % 2 ^ 64

def sub (x y : ℕ) : ℕ := word (x + (2 ^ 64 - word y))

/-- `ALIGN_DOWN`, for a size that is a power of two. -/
def alignDown (x size : ℕ) : ℕ := x - x % size

def alignUp (x size : ℕ) : ℕ := alignDown (word (x + size - 1)) size

def powerof2 (x : ℕ) : Bool := (x - 1) &&& x = 0

/-! ## System calls -/

def cover (lo hi : ℕ) (f : ℕ → Cell → Cell) (m : Space) : Space :=
  fun x => if lo ≤ x ∧ x < hi then f x (m x) else m x

def memset (addr len : ℕ) : Space → Space :=
  cover addr (addr + len) fun _ c => c.map fun c => (c.1, 0)

namespace Kernel

variable (k : Kernel)

def page : ℕ := 2 ^ k.shift

def pageUp (x : ℕ) : ℕ := (x + k.page - 1) / k.page * k.page

def mapped (addr len : ℕ) (prot : Prot) (bytes : ℕ → UInt8) : Space → Space :=
  cover addr (k.pageUp (addr + len)) fun x _ => some (prot, bytes (x - addr))

def mmap (err : Error) (addr len : ℕ) (prot : Prot) (bytes : ℕ → UInt8) (m : Space) :
    Except Error Space :=
  if k.fails (.mmap addr len prot) then .error err else .ok (k.mapped addr len prot bytes m)

def reprotect (addr len : ℕ) (prot : Prot) : Space → Space :=
  cover addr (k.pageUp (addr + len)) fun _ c => c.map fun c => (prot, c.2)

def mprotect (addr len : ℕ) (prot : Prot) (m : Space) : Except Error Space :=
  if k.fails (.mprotect addr len prot) then .error .mprotect
  else .ok (k.reprotect addr len prot m)

def munmap (addr len : ℕ) : Space → Space :=
  cover addr (k.pageUp (addr + len)) fun _ _ => .none

/-! ## Load commands -/

def loadcmd (ph : Phdr) : Loadcmd where
  mapstart := alignDown ph.vaddr k.page
  mapend := alignUp (word (ph.vaddr + ph.filesz)) k.page
  dataend := word (ph.vaddr + ph.filesz)
  allocend := word (ph.vaddr + ph.memsz)
  mapoff := alignDown ph.offset k.page
  prot := ph.prot

/-- The loop over the program headers, as far as it is about load commands. -/
def collect : List Phdr → Except Error (List Loadcmd)
  | [] => .ok []
  | ph :: phs =>
    if sub ph.vaddr ph.offset % k.page ≠ 0 then .error .notPageAligned
    else (collect phs).map (k.loadcmd ph :: ·)

end Kernel

def hasHoles : List Loadcmd → Bool
  | c :: d :: rest => c.mapend ≠ d.mapstart || hasHoles (d :: rest)
  | _ => false

def alignMax (phs : List Phdr) : ℕ :=
  phs.foldl (fun n ph => if powerof2 ph.align ∧ ph.align > n then ph.align else n) 0

/-! ## Mapping -/

structure Loaded where
  addr : ℕ
  mapStart : ℕ
  mapEnd : ℕ
  space : Space

namespace Kernel

variable (k : Kernel) (file : ℕ → UInt8)

def dlMapSegment (c : Loadcmd) (mapalign maplength : ℕ) (m : Space) : Except Error (ℕ × Space) :=
  if mapalign ≤ k.page then do
    let start := k.place maplength
    let m ← k.mmap .mapSegment start maplength c.prot (fun i => file (c.mapoff + i)) m
    pure (start, m)
  else do
    let maplen := if maplength ≥ mapalign then word (maplength + mapalign) else word (2 * mapalign)
    let start := k.place maplen
    let m ← k.mmap .mapSegment start maplen .none (fun _ => 0) m
    let aligned := alignUp start mapalign
    let m ← k.mmap .mapSegment aligned maplength c.prot (fun i => file (c.mapoff + i)) m
    let before := sub aligned start
    let m := if before ≠ 0 then k.munmap start before m else m
    let mapEnd := alignUp (word (aligned + maplength)) k.page
    let behind := sub (word (start + maplen)) mapEnd
    let m := if behind ≠ 0 then k.munmap mapEnd behind m else m
    pure (aligned, m)

/-- The end of the last page with contents of the file is cleared. -/
def clear (c : Loadcmd) (zeroAt zeropage : ℕ) (m : Space) : Except Error Space :=
  if c.prot.write then .ok (memset zeroAt (zeropage - zeroAt) m)
  else do
    let m ← k.mprotect (alignDown zeroAt k.page) k.page { c.prot with write := true } m
    pure (k.reprotect (alignDown zeroAt k.page) k.page c.prot (memset zeroAt (zeropage - zeroAt) m))

/-- What follows the label `postmap`. -/
def zeroFill (addr : ℕ) (c : Loadcmd) (m : Space) : Except Error Space :=
  if c.allocend > c.dataend then do
    let zeroAt := word (addr + c.dataend)
    let zeroend := word (addr + c.allocend)
    let zeropage := min zeroend (alignUp zeroAt k.page)
    let m ← (if zeropage > zeroAt then k.clear c zeroAt zeropage m else .ok m)
    if zeroend > zeropage then
      k.mmap .mapZeroFill zeropage (zeroend - zeropage) c.prot (fun _ => 0) m
    else .ok m
  else .ok m

/-- The loop over the load commands behind the first. -/
def mapRest (addr : ℕ) : List Loadcmd → Space → Except Error Space
  | [], m => .ok m
  | c :: cmds, m => do
    let m ← (if c.mapend > c.mapstart then
        k.mmap .mapSegment (word (addr + c.mapstart)) (c.mapend - c.mapstart) c.prot
          (fun i => file (c.mapoff + i)) m
      else .ok m)
    let m ← k.zeroFill addr c m
    mapRest addr cmds m

/-- `_dl_map_segments` for an object of type `ET_DYN`. -/
def dlMapSegments (c last : Loadcmd) (cmds : List Loadcmd) (mapalign maplength : ℕ) (m : Space) :
    Except Error Loaded := do
  let (start, m) ← k.dlMapSegment file c mapalign maplength m
  let addr := sub start c.mapstart
  let m ← (if hasHoles (c :: cmds) then
      k.mprotect (word (addr + c.mapend)) (sub last.mapstart c.mapend) .none m
    else .ok m)
  let m ← k.zeroFill addr c m
  let m ← k.mapRest file addr cmds m
  pure ⟨addr, start, word (start + maplength), m⟩

/-- The segments of `_dl_map_object_from_fd`. -/
def mapObject (phs : List Phdr) (m : Space) : Except Error Loaded := do
  match ← k.collect phs with
  | [] => .error .noSegments
  | c :: cmds =>
    let last := cmds.getLastD c
    k.dlMapSegments file c last cmds (alignMax phs) (sub last.allocend c.mapstart) m

/-! ## Successful calls -/

theorem bind_ok {α β : Type} {x : Except Error α} {f : α → Except Error β} {b : β}
    (h : x >>= f = .ok b) : ∃ a, x = .ok a ∧ f a = .ok b := by
  cases x with
  | error e => cases h
  | ok a => exact ⟨a, rfl, h⟩

variable {k file} {m m' : Space}

theorem mmap_ok {err : Error} {addr len : ℕ} {prot : Prot} {bytes : ℕ → UInt8}
    (h : k.mmap err addr len prot bytes m = .ok m') : m' = k.mapped addr len prot bytes m := by
  rw [mmap] at h
  split_ifs at h
  cases h
  rfl

theorem mprotect_ok {addr len : ℕ} {prot : Prot} (h : k.mprotect addr len prot m = .ok m') :
    m' = k.reprotect addr len prot m := by
  rw [mprotect] at h
  split_ifs at h
  cases h
  rfl

theorem collect_ok {phs : List Phdr} {cmds : List Loadcmd} (h : k.collect phs = .ok cmds) :
    cmds = phs.map k.loadcmd ∧ ∀ ph ∈ phs, sub ph.vaddr ph.offset % k.page = 0 := by
  induction phs generalizing cmds with
  | nil =>
    cases h
    exact ⟨rfl, nofun⟩
  | cons ph phs ih =>
    rw [collect] at h
    split_ifs at h with hoff
    obtain ⟨rest, hrest, h⟩ := bind_ok (f := fun rest => .ok (k.loadcmd ph :: rest)) h
    cases h
    obtain ⟨rfl, hphs⟩ := ih hrest
    exact ⟨rfl, List.forall_mem_cons.mpr ⟨not_not.mp hoff, hphs⟩⟩

/-- The mappings of a successful call: the first one, that of the holes, and those of the
segments. -/
structure Maps (k : Kernel) (file : ℕ → UInt8) (ph : Phdr) (phs : List Phdr) (m : Space)
    (r : Loaded) (m₁ m₂ m₃ : Space) : Prop where
  offsets : ∀ p ∈ ph :: phs, sub p.vaddr p.offset % k.page = 0
  first : k.dlMapSegment file (k.loadcmd ph) (alignMax (ph :: phs))
    (sub (word ((phs.getLastD ph).vaddr + (phs.getLastD ph).memsz)) (alignDown ph.vaddr k.page)) m =
      .ok (r.mapStart, m₁)
  addr : r.addr = sub r.mapStart (alignDown ph.vaddr k.page)
  mapEnd : r.mapEnd = word (r.mapStart +
    sub (word ((phs.getLastD ph).vaddr + (phs.getLastD ph).memsz)) (alignDown ph.vaddr k.page))
  holes : (if hasHoles ((ph :: phs).map k.loadcmd) then
      k.mprotect (word (r.addr + (k.loadcmd ph).mapend))
        (sub (alignDown (phs.getLastD ph).vaddr k.page) (k.loadcmd ph).mapend) .none m₁
    else .ok m₁) = .ok m₂
  zeroed : k.zeroFill r.addr (k.loadcmd ph) m₂ = .ok m₃
  rest : k.mapRest file r.addr (phs.map k.loadcmd) m₃ = .ok r.space

theorem mapObject_ok {phs : List Phdr} {r : Loaded} (h : k.mapObject file phs m = .ok r) :
    ∃ ph rest m₁ m₂ m₃, phs = ph :: rest ∧ Maps k file ph rest m r m₁ m₂ m₃ := by
  obtain ⟨cmds, hcmds, h⟩ := bind_ok h
  obtain ⟨rfl, hoff⟩ := collect_ok hcmds
  cases phs with
  | nil => cases h
  | cons ph phs =>
    have hlast : (phs.map k.loadcmd).getLastD (k.loadcmd ph) = k.loadcmd (phs.getLastD ph) := by
      simp [List.getLastD_eq_getLast?, List.getLast?_map, Option.getD_map]
    simp only [List.map_cons, hlast] at h
    obtain ⟨⟨start, m₁⟩, hfirst, h⟩ := bind_ok h
    obtain ⟨m₂, hholes, h⟩ := bind_ok h
    obtain ⟨m₃, hzeroed, h⟩ := bind_ok h
    obtain ⟨m₄, hrest, h⟩ := bind_ok h
    cases h
    exact ⟨ph, phs, m₁, m₂, m₃, rfl, hoff, hfirst, rfl, rfl, hholes, hzeroed, hrest⟩

end Kernel

end AwaitGlibc.MapSegments
