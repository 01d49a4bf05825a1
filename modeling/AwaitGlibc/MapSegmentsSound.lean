import AwaitGlibc.MapSegments

/-!
# The address space after the segments have been mapped

The first mapping covers the whole object with contents of the file, from the page of the first
segment on. Access to what lies between the first segment and the last is taken away, and the
segments behind the first are mapped over it, each with its zeros. So the proof follows the order of
the calls: what a call leaves in the pages of one segment stays there, since later calls only touch
the pages of later segments.

That a protection is put back and that whole pages are unmapped cannot fail here; the source does
not look at these results.
-/
namespace AwaitGlibc.MapSegments

theorem cover_of_mem {lo hi : ℕ} {f : ℕ → Cell → Cell} {m : Space} {x : ℕ} (hlo : lo ≤ x)
    (hhi : x < hi) : cover lo hi f m x = f x (m x) :=
  if_pos ⟨hlo, hhi⟩

namespace Kernel

variable (k : Kernel)

/-! ### Pages -/

theorem page_pos : 0 < k.page := Nat.two_pow_pos _

theorem dvd_pageUp (x : ℕ) : k.page ∣ k.pageUp x := Nat.dvd_mul_left _ _

theorem le_pageUp (x : ℕ) : x ≤ k.pageUp x := by
  have hpos := k.page_pos
  have hdiv := Nat.div_add_mod (x + k.page - 1) k.page
  have hmod := Nat.mod_lt (x + k.page - 1) hpos
  rw [Nat.mul_comm] at hdiv
  unfold pageUp
  omega

theorem pageUp_le {x y : ℕ} (hy : k.page ∣ y) (h : x ≤ y) : k.pageUp x ≤ y := by
  obtain ⟨n, rfl⟩ := hy
  have hpos := k.page_pos
  rw [pageUp, Nat.mul_comm k.page n] at *
  apply Nat.mul_le_mul_right
  rw [← Nat.lt_succ_iff, Nat.div_lt_iff_lt_mul hpos, Nat.succ_mul]
  omega

theorem pageUp_self {x : ℕ} (h : k.page ∣ x) : k.pageUp x = x :=
  le_antisymm (k.pageUp_le h (le_refl _)) (k.le_pageUp x)

theorem pageUp_lt (x : ℕ) : k.pageUp x < x + k.page := by
  have hpos := k.page_pos
  have hdiv := Nat.div_mul_le_self (x + k.page - 1) k.page
  unfold pageUp
  omega

theorem pageUp_mono {x y : ℕ} (h : x ≤ y) : k.pageUp x ≤ k.pageUp y :=
  k.pageUp_le (k.dvd_pageUp y) (h.trans (k.le_pageUp y))

theorem alignUp_eq {x : ℕ} (h : x + k.page ≤ 2 ^ 64) : alignUp x k.page = k.pageUp x := by
  have hpos := k.page_pos
  have hdiv := Nat.div_add_mod (x + k.page - 1) k.page
  rw [Nat.mul_comm] at hdiv
  rw [alignUp, word, Nat.mod_eq_of_lt (by omega), alignDown, pageUp]
  omega

theorem alignDown_dvd (x : ℕ) : k.page ∣ alignDown x k.page := Nat.dvd_sub_mod x

theorem alignDown_le (x : ℕ) : alignDown x k.page ≤ x := Nat.sub_le _ _

theorem alignDown_add_mod (x : ℕ) : alignDown x k.page + x % k.page = x :=
  Nat.sub_add_cancel (Nat.mod_le _ _)

theorem lt_alignDown (x : ℕ) : x < alignDown x k.page + k.page := by
  have hmod := Nat.mod_lt x k.page_pos
  have hsum := k.alignDown_add_mod x
  omega

/-- An address that is not at a page boundary. -/
theorem alignDown_add_page {x : ℕ} (h : x < k.pageUp x) :
    alignDown x k.page + k.page = k.pageUp x := by
  apply le_antisymm
  · by_contra hlt
    have hle := Nat.le_of_lt_add_of_dvd (not_le.mp hlt) (k.dvd_pageUp x) (k.alignDown_dvd x)
    have := k.alignDown_le x
    omega
  · exact k.pageUp_le (Nat.dvd_add (k.alignDown_dvd x) (dvd_refl _)) (k.lt_alignDown x).le

variable {k} {m m' : Space} {c : Loadcmd} {bytes : ℕ → UInt8} {lo data alloc : ℕ}

/-- Clearing within the last page of a mapping keeps its protection. -/
theorem clear_spec {zeropage : ℕ} (h : k.clear c data zeropage m = .ok m')
    (hlo : k.page ∣ lo) (hdata : lo ≤ data) (hlt : data < zeropage) (hle : zeropage ≤ k.pageUp data)
    (hm : ∀ x, lo ≤ x → x < k.pageUp data → m x = some (c.prot, bytes x)) (x : ℕ) :
    m' x = if data ≤ x ∧ x < zeropage then some (c.prot, 0) else m x := by
  have hpage := k.alignDown_add_page (hlt.trans_le hle)
  have hstart : lo ≤ alignDown data k.page := by
    by_contra hgt
    have hle := Nat.le_of_lt_add_of_dvd (by have := k.lt_alignDown data; omega) hlo
      (k.alignDown_dvd data)
    omega
  have hend : k.pageUp (alignDown data k.page + k.page) = k.pageUp data :=
    le_antisymm (k.pageUp_le (k.dvd_pageUp _) hpage.le) (hpage ▸ k.le_pageUp _)
  have hadd : data + (zeropage - data) = zeropage := by omega
  rw [clear] at h
  split_ifs at h with hwrite
  · cases h
    rw [memset, cover, hadd]
    split_ifs with hx
    · rw [hm x (by omega) (by omega)]
      rfl
    · rfl
  · obtain ⟨m₁, hm₁, h⟩ := bind_ok h
    cases h
    rw [mprotect_ok hm₁, reprotect, reprotect, memset, cover, hend, hadd]
    by_cases hx : alignDown data k.page ≤ x ∧ x < k.pageUp data
    · rw [if_pos hx, cover, cover_of_mem hx.1 (hend ▸ hx.2), hm x (by omega) hx.2]
      split_ifs <;> rfl
    · have hle := k.alignDown_le data
      rw [if_neg hx, cover, if_neg (by omega), if_neg (by omega), cover, if_neg (hend ▸ hx)]

/-- What a segment holds behind the label `postmap`, if the file was mapped before. -/
theorem zeroFill_spec {addr : ℕ} (lo : ℕ) (h : k.zeroFill addr c m = .ok m')
    (hdata : word (addr + c.dataend) = data) (halloc : word (addr + c.allocend) = alloc)
    (hcmp : c.allocend > c.dataend ↔ alloc > data) (hlo : k.page ∣ lo) (hle : lo ≤ data)
    (hda : data ≤ alloc) (hroom : alloc + k.page ≤ 2 ^ 64)
    (hm : ∀ x, lo ≤ x → x < k.pageUp data → m x = some (c.prot, bytes x)) :
    (∀ x, lo ≤ x → x < k.pageUp alloc → ∃ b, m' x = some (c.prot, b) ∧ (x < data → b = bytes x) ∧
      (data ≤ x → x < alloc → b = 0)) ∧
    ∀ x, x < lo ∨ k.pageUp alloc ≤ x → m' x = m x := by
  rw [zeroFill] at h
  split_ifs at h with hbss
  · have hlt := hcmp.mp hbss
    have hup := k.le_pageUp data
    obtain ⟨m₁, hcleared, h⟩ := bind_ok h
    rw [hdata, halloc, k.alignUp_eq (by omega)] at hcleared h
    have hm₁ (x : ℕ) :
        m₁ x = if data ≤ x ∧ x < min alloc (k.pageUp data) then some (c.prot, 0) else m x := by
      split_ifs at hcleared with hzero
      · exact clear_spec hcleared hlo hle hzero (min_le_right _ _) hm x
      · cases hcleared
        rw [if_neg (by omega)]
    by_cases hmore : k.pageUp data < alloc
    · rw [min_eq_right hmore.le] at h hm₁
      rw [if_pos hmore] at h
      have hend : k.pageUp data + (alloc - k.pageUp data) = alloc := by omega
      have hm' (x : ℕ) : m' x = if k.pageUp data ≤ x ∧ x < k.pageUp alloc then some (c.prot, 0)
          else m₁ x := by
        rw [mmap_ok h, mapped, cover, hend]
      have hup' := k.le_pageUp alloc
      constructor
      · intro x h1 h2
        rw [hm', hm₁]
        split_ifs with hnew hold
        · exact ⟨0, rfl, by omega, fun _ _ => rfl⟩
        · exact ⟨0, rfl, by omega, fun _ _ => rfl⟩
        · exact ⟨_, hm x h1 (by omega), fun _ => rfl, by omega⟩
      · intro x hx
        rw [hm', hm₁, if_neg (by omega), if_neg (by omega)]
    · have hsame : k.pageUp alloc = k.pageUp data :=
        le_antisymm (k.pageUp_le (k.dvd_pageUp _) (not_lt.mp hmore)) (k.pageUp_mono hda)
      rw [min_eq_left (not_lt.mp hmore)] at h hm₁
      rw [if_neg (lt_irrefl _)] at h
      cases h
      rw [hsame]
      constructor
      · intro x h1 h2
        rw [hm₁]
        split_ifs with hold
        · exact ⟨0, rfl, by omega, fun _ _ => rfl⟩
        · exact ⟨_, hm x h1 h2, fun _ => rfl, by omega⟩
      · intro x hx
        rw [hm₁, if_neg (by omega)]
  · cases h
    have heq : alloc = data := by omega
    subst heq
    exact ⟨fun x h1 h2 => ⟨_, hm x h1 h2, fun _ => rfl, by omega⟩, fun _ _ => rfl⟩

/-! ### Segments -/

/-- The load address, and where the page of the first segment starts in the file and in memory. -/
structure Base (k : Kernel) (addr : ℕ) where
  start : ℕ
  first : ℕ
  start_dvd : k.page ∣ start
  first_dvd : k.page ∣ first
  first_lt : first < 2 ^ 64
  addr_eq : addr = sub start first

variable {addr : ℕ} (b : Base k addr)

/-- Where an address of the file is in memory. -/
def Base.pos (y : ℕ) : ℕ := b.start + (y - b.first)

theorem Base.word_add {y : ℕ} (h : b.first ≤ y) (hlt : b.pos y < 2 ^ 64) :
    word (addr + y) = b.pos y := by
  have hfirst := b.first_lt
  have haddr := b.addr_eq
  unfold sub word pos at *
  omega

theorem Base.pageUp_pos {y : ℕ} (h : b.first ≤ y) : k.pageUp (b.pos y) = b.pos (k.pageUp y) := by
  have hup := k.le_pageUp y
  have hup' := k.le_pageUp (b.pos y)
  apply le_antisymm
  · apply k.pageUp_le
    · exact Nat.dvd_add b.start_dvd (Nat.dvd_sub (k.dvd_pageUp y) b.first_dvd)
    · unfold pos
      omega
  · have hle : k.pageUp y ≤ k.pageUp (b.pos y) - b.start + b.first := by
      apply k.pageUp_le
      · exact Nat.dvd_add (Nat.dvd_sub (k.dvd_pageUp _) b.start_dvd) b.first_dvd
      · unfold pos at hup' ⊢
        omega
    unfold pos at *
    omega

/-- A segment that is in the file as it should be, and has room. -/
structure Fits (ph : Phdr) : Prop where
  filesz_le : ph.filesz ≤ ph.memsz
  first_le : b.first ≤ alignDown ph.vaddr k.page
  vaddr : ph.vaddr + ph.memsz + k.page ≤ 2 ^ 64
  room : b.pos (ph.vaddr + ph.memsz) + k.page ≤ 2 ^ 64
  offset : ph.vaddr % k.page = ph.offset % k.page

/-- The addresses of the pages of a segment. -/
def Region (ph : Phdr) (x : ℕ) : Prop :=
  b.pos (alignDown ph.vaddr k.page) ≤ x ∧ x < b.pos (k.pageUp (ph.vaddr + ph.memsz))

/-- The segment is in memory: the bytes of the file, zeros behind them, and its protection. -/
def Filled (file : ℕ → UInt8) (ph : Phdr) (m : Space) : Prop :=
  ∀ y, alignDown ph.vaddr k.page ≤ y → y < k.pageUp (ph.vaddr + ph.memsz) →
    ∃ byte, m (b.pos y) = some (ph.prot, byte) ∧
      (ph.vaddr ≤ y → y < ph.vaddr + ph.filesz → byte = file (ph.offset + (y - ph.vaddr))) ∧
      (ph.vaddr + ph.filesz ≤ y → y < ph.vaddr + ph.memsz → byte = 0)

variable {b} {ph : Phdr} {file : ℕ → UInt8}

theorem Filled.congr (h : Filled b file ph m) (hm : ∀ x, Region b ph x → m' x = m x)
    (hfirst : b.first ≤ alignDown ph.vaddr k.page) : Filled b file ph m' := by
  intro y h1 h2
  rw [hm (b.pos y) (by unfold Region Base.pos; omega)]
  exact h y h1 h2

theorem Fits.postmap (hfits : Fits b ph) (h : k.zeroFill addr (k.loadcmd ph) m = .ok m')
    (hm : ∀ x, b.pos (alignDown ph.vaddr k.page) ≤ x →
      x < b.pos (k.pageUp (ph.vaddr + ph.filesz)) → m x = some (ph.prot,
        file (alignDown ph.offset k.page + (x - b.pos (alignDown ph.vaddr k.page))))) :
    Filled b file ph m' ∧ ∀ x, ¬Region b ph x → m' x = m x := by
  obtain ⟨hsz, hfirst, hvaddr, hroom, hoff⟩ := hfits
  have hpos := k.page_pos
  have hdown := k.alignDown_le ph.vaddr
  have hdata : (k.loadcmd ph).dataend = ph.vaddr + ph.filesz := Nat.mod_eq_of_lt (by omega)
  have halloc : (k.loadcmd ph).allocend = ph.vaddr + ph.memsz := Nat.mod_eq_of_lt (by omega)
  have hle : b.pos (ph.vaddr + ph.filesz) ≤ b.pos (ph.vaddr + ph.memsz) := by
    unfold Base.pos
    omega
  have hspec := zeroFill_spec (b.pos (alignDown ph.vaddr k.page)) h
    (by rw [hdata, b.word_add] <;> omega) (by rw [halloc, b.word_add] <;> omega)
    (by rw [hdata, halloc]; unfold Base.pos; omega)
    (Nat.dvd_add b.start_dvd (Nat.dvd_sub (k.alignDown_dvd _) b.first_dvd))
    (by unfold Base.pos; omega) hle hroom
    (by rw [b.pageUp_pos (by omega)]; exact hm)
  rw [b.pageUp_pos (by omega)] at hspec
  refine ⟨fun y h1 h2 => ?_, fun x hx => hspec.2 x (by unfold Region at hx; omega)⟩
  obtain ⟨byte, hcell, hfile, hzero⟩ := hspec.1 (b.pos y) (by unfold Base.pos; omega)
    (by unfold Base.pos; omega)
  refine ⟨byte, hcell, fun h1 h2 => ?_, fun h1 h2 => hzero ?_ ?_⟩
  · have hvsum := k.alignDown_add_mod ph.vaddr
    have hosum := k.alignDown_add_mod ph.offset
    rw [hfile (by unfold Base.pos; omega)]
    congr 1
    unfold Base.pos
    omega
  · unfold Base.pos
    omega
  · unfold Base.pos
    omega

/-- The contents of the file are mapped. -/
theorem Fits.mapFile (hfits : Fits b ph)
    (h : (if (k.loadcmd ph).mapend > alignDown ph.vaddr k.page then
        k.mmap .mapSegment (word (addr + alignDown ph.vaddr k.page))
          ((k.loadcmd ph).mapend - alignDown ph.vaddr k.page) ph.prot
          (fun i => file (alignDown ph.offset k.page + i)) m
      else .ok m) = .ok m') (x : ℕ) :
    m' x = if b.pos (alignDown ph.vaddr k.page) ≤ x ∧ x < b.pos (k.pageUp (ph.vaddr + ph.filesz)) then
      some (ph.prot, file (alignDown ph.offset k.page + (x - b.pos (alignDown ph.vaddr k.page))))
      else m x := by
  obtain ⟨hsz, hfirst, hvaddr, hroom, -⟩ := hfits
  have hpos := k.page_pos
  have hdown := k.alignDown_le ph.vaddr
  have hup := k.le_pageUp (ph.vaddr + ph.filesz)
  have hend : (k.loadcmd ph).mapend = k.pageUp (ph.vaddr + ph.filesz) := by
    change alignUp (word _) _ = _
    rw [word, Nat.mod_eq_of_lt (by omega), k.alignUp_eq (by omega)]
  rw [hend, b.word_add hfirst (by unfold Base.pos at *; omega)] at h
  split_ifs at h with hmap
  · have hlen : b.pos (alignDown ph.vaddr k.page) + (k.pageUp (ph.vaddr + ph.filesz) -
        alignDown ph.vaddr k.page) = b.pos (k.pageUp (ph.vaddr + ph.filesz)) := by
      unfold Base.pos
      omega
    rw [mmap_ok h, mapped, cover, hlen, b.pageUp_pos (by omega), k.pageUp_self (k.dvd_pageUp _)]
  · cases h
    rw [if_neg (by unfold Base.pos; omega)]

/-- The segments behind the first, which are mapped one after the other. -/
theorem mapRest_spec {phs : List Phdr} (h : k.mapRest file addr (phs.map k.loadcmd) m = .ok m')
    (hfits : ∀ ph ∈ phs, Fits b ph)
    (hdisj : phs.Pairwise fun p q => k.pageUp (p.vaddr + p.memsz) ≤ alignDown q.vaddr k.page) :
    (∀ ph ∈ phs, Filled b file ph m') ∧ ∀ x, (∀ ph ∈ phs, ¬Region b ph x) → m' x = m x := by
  induction phs generalizing m with
  | nil =>
    cases h
    exact ⟨fun _ h => absurd h List.not_mem_nil, fun _ _ => rfl⟩
  | cons ph phs ih =>
    obtain ⟨hph, hrest⟩ := List.forall_mem_cons.mp hfits
    obtain ⟨hbefore, hdisj⟩ := List.pairwise_cons.mp hdisj
    obtain ⟨m₁, hmap, h⟩ := bind_ok h
    obtain ⟨m₂, hzero, h⟩ := bind_ok h
    obtain ⟨hfilled, hkept⟩ := ih h hrest hdisj
    have hfile := hph.mapFile hmap
    obtain ⟨hhere, hpost⟩ := hph.postmap hzero fun x h1 h2 => (hfile x).trans (if_pos ⟨h1, h2⟩)
    refine ⟨List.forall_mem_cons.mpr ⟨?_, hfilled⟩, ?_⟩
    · refine hhere.congr (fun x hx => hkept x fun q hq hx' => ?_) hph.first_le
      have := hbefore q hq
      unfold Region Base.pos at *
      omega
    · intro x hx
      obtain ⟨hx, hxs⟩ := List.forall_mem_cons.mp hx
      have hle := k.pageUp_mono (Nat.add_le_add_left hph.filesz_le ph.vaddr)
      rw [hkept x hxs, hpost x hx, hfile x, if_neg (by unfold Region Base.pos at *; omega)]

/-! ### The first mapping -/

/-- The length that is asked for, so that the mapping can be aligned. -/
def request (k : Kernel) (mapalign maplength : ℕ) : ℕ :=
  if mapalign ≤ k.page then maplength
  else if maplength ≥ mapalign then maplength + mapalign else 2 * mapalign

/-- The kernel places a mapping of the length where nothing is mapped. -/
structure Free (k : Kernel) (len : ℕ) (m : Space) : Prop where
  room : k.place len + len + k.page ≤ 2 ^ 64
  free : ∀ x, k.place len ≤ x → x < k.pageUp (k.place len + len) → m x = none

theorem sub_eq {x y : ℕ} (hle : y ≤ x) (hlt : x < 2 ^ 64) : sub x y = x - y := by
  unfold sub word
  omega

theorem alignUp_place {start mapalign : ℕ} (hstart : k.page ∣ start) (halign : k.page ∣ mapalign)
    (hpos : 0 < mapalign) (hroom : start + mapalign ≤ 2 ^ 64) :
    k.page ∣ alignUp start mapalign ∧ start ≤ alignUp start mapalign ∧
      alignUp start mapalign + k.page ≤ start + mapalign := by
  have hdvd : k.page ∣ alignUp start mapalign := halign.trans (Nat.dvd_sub_mod _)
  have hmod := Nat.mod_lt (start + mapalign - 1) hpos
  have heq : alignUp start mapalign = start + mapalign - 1 - (start + mapalign - 1) % mapalign := by
    rw [alignUp, word, Nat.mod_eq_of_lt (by omega), alignDown]
  refine ⟨hdvd, by omega, ?_⟩
  by_contra hlt
  have hle := Nat.le_of_lt_add_of_dvd (not_le.mp hlt) (Nat.dvd_add hstart halign) hdvd
  omega

theorem munmap_apply {addr len : ℕ} (haddr : k.page ∣ addr) (x : ℕ) :
    (if len ≠ 0 then k.munmap addr len m else m) x =
      if addr ≤ x ∧ x < k.pageUp (addr + len) then none else m x := by
  by_cases hlen : len = 0
  · rw [hlen, if_neg (not_not.mpr rfl), Nat.add_zero, k.pageUp_self haddr, if_neg (by omega)]
  · rw [if_pos hlen, munmap, cover]

theorem dlMapSegment_spec {mapalign len start : ℕ}
    (h : k.dlMapSegment file c mapalign len m = .ok (start, m'))
    (halign : k.page < mapalign → k.page ∣ mapalign) (hfree : Free k (k.request mapalign len) m) :
    k.page ∣ start ∧ start + len + k.page ≤ 2 ^ 64 ∧ ∀ x, m' x =
      if start ≤ x ∧ x < k.pageUp (start + len) then some (c.prot, file (c.mapoff + (x - start)))
      else m x := by
  obtain ⟨hroom, hfree⟩ := hfree
  have hplace := k.place_dvd (k.request mapalign len)
  have hpos := k.page_pos
  rw [dlMapSegment] at h
  rw [request] at hroom hfree hplace
  split at h
  case isTrue hle =>
    rw [if_pos hle] at hroom hplace
    obtain ⟨m₁, hmap, h⟩ := bind_ok h
    cases h
    refine ⟨hplace, hroom, fun x => ?_⟩
    rw [mmap_ok hmap, mapped, cover]
  case isFalse hlt =>
    rw [if_neg hlt] at hroom hfree hplace
    obtain ⟨req, hreq⟩ : ∃ req, req = if len ≥ mapalign then len + mapalign else 2 * mapalign :=
      ⟨_, rfl⟩
    have hword : (if len ≥ mapalign then word (len + mapalign) else word (2 * mapalign)) = req := by
      rw [← hreq] at hroom
      split_ifs at hreq ⊢ <;> exact (Nat.mod_eq_of_lt (by omega)).trans hreq.symm
    have hle : len + mapalign ≤ req := by
      split_ifs at hreq <;> omega
    rw [← hreq] at hroom hfree hplace
    dsimp only at h
    rw [hword] at h
    obtain ⟨m₁, hmap₁, h⟩ := bind_ok h
    obtain ⟨m₂, hmap₂, h⟩ := bind_ok h
    obtain ⟨hdvd, hstart, hbelow⟩ := alignUp_place hplace (halign (not_le.mp hlt)) (by omega) (by omega)
    generalize k.place req = s at *
    generalize alignUp s mapalign = a at *
    have hup := k.pageUp_lt (a + len)
    rw [mmap_ok hmap₂, mmap_ok hmap₁, sub_eq hstart (by omega), word, Nat.mod_eq_of_lt (by omega), word,
      Nat.mod_eq_of_lt (by omega), k.alignUp_eq (by omega), sub_eq (by omega) (by omega)] at h
    cases h
    refine ⟨hdvd, by omega, fun x => ?_⟩
    rw [munmap_apply (k.dvd_pageUp _), munmap_apply hplace, mapped, mapped, cover, cover,
      show s + (start - s) = start by omega, k.pageUp_self hdvd,
      show k.pageUp (start + len) + (s + req - k.pageUp (start + len)) = s + req by omega]
    have hend := k.le_pageUp (start + len)
    have htop := k.le_pageUp (s + req)
    split_ifs with hbehind hhere hbefore hhere' hnow hmapped
    · omega
    · exact (hfree x (by omega) (by omega)).symm
    · omega
    · exact (hfree x (by omega) (by omega)).symm
    · rfl
    · omega
    · rfl

/-- The largest alignment is a power of two, if there is one at all. -/
theorem dvd_alignMax (phs : List Phdr) (h : k.page < alignMax phs) : k.page ∣ alignMax phs := by
  have hpow : powerof2 (alignMax phs) = true := by
    refine List.foldlRecOn (motive := fun n => powerof2 n = true) phs _ rfl fun n hn ph _ => ?_
    split_ifs with hph
    · exact hph.1
    · exact hn
  generalize alignMax phs = a at *
  have hlow := Nat.log2_self_le (n := a) (by omega)
  have hhigh := Nat.lt_log2_self (n := a)
  have heq : a = 2 ^ a.log2 := by
    by_contra hne
    have hbit := Nat.testBit_of_two_pow_le_and_two_pow_add_one_gt hlow hhigh
    have hbit' := Nat.testBit_of_two_pow_le_and_two_pow_add_one_gt (n := a - 1) (i := a.log2)
      (by omega) (by omega)
    have hzero := congrArg (Nat.testBit · a.log2) (of_decide_eq_true hpow)
    simp [hbit, hbit'] at hzero
  rw [heq, page] at h ⊢
  exact Nat.pow_dvd_pow 2 ((Nat.pow_lt_pow_iff_right Nat.one_lt_two).mp h).le

theorem offset_mod {x y : ℕ} (h : sub x y % k.page = 0) : x % k.page = y % k.page := by
  have hdvd : k.page ∣ 2 ^ 64 := Nat.pow_dvd_pow 2 k.shift_lt.le
  have hlt : word y < 2 ^ 64 := Nat.mod_lt y (Nat.two_pow_pos 64)
  have hx : x + (2 ^ 64 - word y) ≡ 0 [MOD k.page] :=
    (Nat.modEq_zero_iff_dvd.mpr ((Nat.dvd_mod_iff hdvd).mp (Nat.dvd_of_mod_eq_zero h)))
  have hy : word y + (2 ^ 64 - word y) ≡ 0 [MOD k.page] := by
    rw [Nat.add_sub_cancel' hlt.le]
    exact Nat.modEq_zero_iff_dvd.mpr hdvd
  have hsame := (hx.trans hy.symm).add_right_cancel'
  rwa [Nat.ModEq, word, Nat.mod_mod_of_dvd _ hdvd] at hsame

/-- The program headers of an object: the segments are in ascending order on pages of their own, no
address overflows. -/
structure Ascending (k : Kernel) (phs : List Phdr) : Prop where
  filesz_le : ∀ ph ∈ phs, ph.filesz ≤ ph.memsz
  disjoint : phs.Pairwise fun p q => k.pageUp (p.vaddr + p.memsz) ≤ alignDown q.vaddr k.page
  fits : ∀ ph ∈ phs, ph.vaddr + ph.memsz + k.page ≤ 2 ^ 64

theorem Ascending.tail {p : Phdr} {phs : List Phdr} (h : Ascending k (p :: phs)) : Ascending k phs :=
  ⟨fun q hq => h.filesz_le q (List.mem_cons_of_mem p hq), h.disjoint.tail,
    fun q hq => h.fits q (List.mem_cons_of_mem p hq)⟩

/-- The segments from the first one on end with the last one. -/
theorem Ascending.le_last {phs : List Phdr} (h : Ascending k (ph :: phs)) :
    ∀ p ∈ ph :: phs, p.vaddr + p.memsz ≤ (phs.getLastD ph).vaddr + (phs.getLastD ph).memsz := by
  induction phs generalizing ph with
  | nil => exact List.forall_mem_singleton.mpr (le_refl _)
  | cons q phs ih =>
    have hrest := ih h.tail
    rw [List.getLastD_cons]
    refine List.forall_mem_cons.mpr ⟨?_, hrest⟩
    have hq := hrest q List.mem_cons_self
    have hlt := List.rel_of_pairwise_cons h.disjoint List.mem_cons_self
    have hup := k.le_pageUp (ph.vaddr + ph.memsz)
    have hdown := k.alignDown_le q.vaddr
    omega

theorem Ascending.mapend {phs : List Phdr} (h : Ascending k phs) (hph : ph ∈ phs) :
    (k.loadcmd ph).mapend = k.pageUp (ph.vaddr + ph.filesz) := by
  have hpos := k.page_pos
  have hle := h.filesz_le ph hph
  have hfits := h.fits ph hph
  change alignUp (word _) _ = _
  rw [word, Nat.mod_eq_of_lt (by omega), k.alignUp_eq (by omega)]

/-- Without holes every page up to the last is one of a segment. -/
theorem Ascending.covered {phs : List Phdr} (h : Ascending k (ph :: phs))
    (hholes : hasHoles ((ph :: phs).map k.loadcmd) = false) {y : ℕ}
    (hy : alignDown ph.vaddr k.page ≤ y)
    (hlast : y < (phs.getLastD ph).vaddr + (phs.getLastD ph).memsz) :
    ∃ p ∈ ph :: phs, alignDown p.vaddr k.page ≤ y ∧ y < k.pageUp (p.vaddr + p.memsz) := by
  induction phs generalizing ph with
  | nil => exact ⟨ph, List.mem_cons_self, hy, hlast.trans_le (k.le_pageUp _)⟩
  | cons q phs ih =>
    simp only [List.map_cons, hasHoles, Bool.or_eq_false_iff, decide_eq_false_iff_not, not_not] at hholes
    rw [h.mapend List.mem_cons_self] at hholes
    by_cases hlt : y < alignDown q.vaddr k.page
    · have hup := k.pageUp_mono (Nat.add_le_add_left (h.filesz_le ph List.mem_cons_self) ph.vaddr)
      exact ⟨ph, List.mem_cons_self, hy, (hlt.trans_eq hholes.1.symm).trans_le hup⟩
    · rw [List.getLastD_cons] at hlast
      obtain ⟨p, hp, hin⟩ := ih h.tail hholes.2 (not_lt.mp hlt) hlast
      exact ⟨p, List.mem_cons_of_mem ph hp, hin⟩

/-! ### The whole object -/

/-- The length of the mapping. -/
def maplength (k : Kernel) (ph : Phdr) (phs : List Phdr) : ℕ :=
  (phs.getLastD ph).vaddr + (phs.getLastD ph).memsz - alignDown ph.vaddr k.page

/-- Each segment has its protection, the bytes of the file and zeros behind them; what is between the
segments is not accessible; and nothing is changed outside the range that is recorded. -/
structure Correct (k : Kernel) (file : ℕ → UInt8) (phs : List Phdr) (m : Space) (r : Loaded) :
    Prop where
  segment : ∀ p ∈ phs, ∀ y, alignDown p.vaddr k.page ≤ y → y < k.pageUp (p.vaddr + p.memsz) →
    ∃ byte, r.space (word (r.addr + y)) = some (p.prot, byte) ∧
      (p.vaddr ≤ y → y < p.vaddr + p.filesz → byte = file (p.offset + (y - p.vaddr))) ∧
      (p.vaddr + p.filesz ≤ y → y < p.vaddr + p.memsz → byte = 0)
  hole : ∀ x, r.mapStart ≤ x → x < r.mapEnd →
    (∀ p ∈ phs, ∀ y, alignDown p.vaddr k.page ≤ y → y < k.pageUp (p.vaddr + p.memsz) →
      word (r.addr + y) ≠ x) → ∃ byte, r.space x = some (.none, byte)
  outside : ∀ x, x < r.mapStart ∨ k.pageUp r.mapEnd ≤ x → r.space x = m x

/-- Access to the pages between the first segment and the last is taken away. -/
theorem holes_spec {holes : Bool} {lo hi : ℕ}
    (h : (if holes then k.mprotect (word (addr + lo)) (sub hi lo) .none m else .ok m) = .ok m')
    (hfirst : b.first ≤ lo) (hle : holes → lo ≤ hi) (hdvd : k.page ∣ hi) (hhi : hi < 2 ^ 64)
    (hroom : b.pos hi < 2 ^ 64) (x : ℕ) :
    m' x = if holes ∧ b.pos lo ≤ x ∧ x < b.pos hi then (m x).map fun c => (.none, c.2) else m x := by
  cases holes with
  | false =>
    cases h
    rw [if_neg (by simp)]
  | true =>
    have hle := hle rfl
    have hadd : b.pos lo + (hi - lo) = b.pos hi := by
      unfold Base.pos
      omega
    rw [if_pos rfl, b.word_add hfirst (by omega), sub_eq hle hhi] at h
    rw [mprotect_ok h, reprotect, cover, hadd, b.pageUp_pos (by omega), k.pageUp_self hdvd]
    simp only [true_and]

theorem Ascending.gap {phs : List Phdr} (h : Ascending k (ph :: phs))
    (hholes : hasHoles ((ph :: phs).map k.loadcmd) = true) :
    k.pageUp (ph.vaddr + ph.filesz) ≤ alignDown (phs.getLastD ph).vaddr k.page := by
  have hmono := k.pageUp_mono (Nat.add_le_add_left (h.filesz_le ph List.mem_cons_self) ph.vaddr)
  cases phs with
  | nil => cases hholes
  | cons q phs =>
    rw [List.getLastD_cons]
    exact hmono.trans (List.rel_of_pairwise_cons h.disjoint List.getLastD_mem_cons)

/-- Where the object is: the recorded range starts with the page of the first segment and ends with
the last one. -/
structure Laid (b : Base k addr) (ph : Phdr) (phs : List Phdr) (r : Loaded) : Prop
    extends Ascending k (ph :: phs) where
  start : b.start = r.mapStart
  first : b.first = alignDown ph.vaddr k.page
  stop : b.pos ((phs.getLastD ph).vaddr + (phs.getLastD ph).memsz) = r.mapEnd
  room : ∀ p ∈ ph :: phs, Fits b p

/-- The first mapping gives all segments their room. -/
theorem Maps.laid {phs : List Phdr} {r : Loaded} {m₁ m₂ m₃ : Space}
    (hmaps : Maps k file ph phs m r m₁ m₂ m₃) (h : Ascending k (ph :: phs))
    (hfree : Free k (k.request (alignMax (ph :: phs)) (k.maplength ph phs)) m) :
    ∃ b : Base k r.addr, Laid b ph phs r ∧
      ∀ x, m₁ x = if r.mapStart ≤ x ∧ x < k.pageUp r.mapEnd then
        some (ph.prot, file (alignDown ph.offset k.page + (x - r.mapStart))) else m x := by
  have hpos := k.page_pos
  have hdown := k.alignDown_le ph.vaddr
  have hlast := h.le_last ph List.mem_cons_self
  have hfitslast := h.fits _ (List.getLastD_mem_cons (l := phs) (a := ph))
  have hlen : sub (word ((phs.getLastD ph).vaddr + (phs.getLastD ph).memsz))
      (alignDown ph.vaddr k.page) = k.maplength ph phs := by
    rw [word, Nat.mod_eq_of_lt (by omega)]
    exact sub_eq (by omega) (by omega)
  have hfirst := hmaps.first
  have hend := hmaps.mapEnd
  rw [hlen] at hfirst hend
  obtain ⟨hdvd, hroom, hm₁⟩ := dlMapSegment_spec hfirst (dvd_alignMax _) hfree
  rw [word, Nat.mod_eq_of_lt (by omega)] at hend
  refine ⟨⟨r.mapStart, alignDown ph.vaddr k.page, hdvd, k.alignDown_dvd _, by omega, hmaps.addr⟩,
    ⟨h, rfl, rfl, hend.symm, fun p hp => ?_⟩, hend ▸ hm₁⟩
  have hle := h.le_last p hp
  refine ⟨h.filesz_le p hp, ?_, h.fits p hp, ?_, offset_mod (hmaps.offsets p hp)⟩
  · obtain rfl | hp := List.mem_cons.mp hp
    · exact le_refl _
    · have hbefore := List.rel_of_pairwise_cons h.disjoint hp
      have hup := k.le_pageUp (ph.vaddr + ph.memsz)
      change alignDown ph.vaddr k.page ≤ _
      omega
  · unfold maplength at hroom
    change r.mapStart + (_ - alignDown ph.vaddr k.page) + _ ≤ _
    omega

section
variable {phs : List Phdr} {r : Loaded} (h : Laid b ph phs r)
include h

theorem Laid.pos_first : b.pos (alignDown ph.vaddr k.page) = r.mapStart := by
  rw [Base.pos, h.first, h.start, Nat.sub_self, Nat.add_zero]

/-- No segment ends behind the last. -/
theorem Laid.region_le {p : Phdr} (hp : p ∈ ph :: phs) :
    b.pos (k.pageUp (p.vaddr + p.memsz)) ≤ k.pageUp r.mapEnd := by
  have hle := k.pageUp_mono (h.le_last p hp)
  have hlast := (h.room _ (List.getLastD_mem_cons (l := phs) (a := ph))).first_le
  have hdown := k.alignDown_le (phs.getLastD ph).vaddr
  rw [← h.stop, b.pageUp_pos (by omega)]
  unfold Base.pos
  omega

theorem Laid.mapEnd_lt : r.mapEnd + k.page ≤ 2 ^ 64 :=
  h.stop ▸ (h.room _ (List.getLastD_mem_cons (l := phs) (a := ph))).room

theorem Laid.not_region {x : ℕ} (hlo : r.mapStart ≤ x) (hhi : x < r.mapEnd)
    (hno : ∀ p ∈ ph :: phs, ∀ y, alignDown p.vaddr k.page ≤ y →
      y < k.pageUp (p.vaddr + p.memsz) → word (addr + y) ≠ x) :
    ∀ p ∈ ph :: phs, ¬Region b p x := by
  intro p hp hx
  have hle := (h.room p hp).first_le
  have hstart := h.start
  have hend := h.mapEnd_lt
  have hback : b.pos (b.first + (x - b.start)) = x := by
    unfold Base.pos
    omega
  refine hno p hp (b.first + (x - b.start)) ?_ ?_ ?_
  · unfold Region Base.pos at hx
    omega
  · unfold Region Base.pos at hx
    omega
  · rw [b.word_add (Nat.le_add_right _ _) (by omega), hback]

/-- An address of no segment is behind the contents of the first and before the last, and there
are holes. -/
theorem Laid.between {x : ℕ} (hlo : r.mapStart ≤ x) (hhi : x < r.mapEnd)
    (hno : ∀ p ∈ ph :: phs, ¬Region b p x) :
    hasHoles ((ph :: phs).map k.loadcmd) = true ∧ b.pos (k.pageUp (ph.vaddr + ph.filesz)) ≤ x ∧
      x < b.pos (alignDown (phs.getLastD ph).vaddr k.page) := by
  have hstart := h.start
  have hbase := h.pos_first
  have hmono := k.pageUp_mono (Nat.add_le_add_left (h.filesz_le ph List.mem_cons_self) ph.vaddr)
  refine ⟨?_, ?_, ?_⟩
  · by_contra hholes
    rw [Bool.not_eq_true] at hholes
    have hstop := h.stop
    have hfirst := h.first
    obtain ⟨p, hp, hin⟩ := h.covered hholes (y := b.first + (x - b.start)) (by omega)
      (by unfold Base.pos at hstop; omega)
    have hle := (h.room p hp).first_le
    refine hno p hp ⟨?_, ?_⟩
    · unfold Base.pos
      omega
    · unfold Base.pos
      omega
  · have := hno ph List.mem_cons_self
    unfold Region Base.pos at *
    omega
  · have hlast := List.getLastD_mem_cons (l := phs) (a := ph)
    have hno := hno _ hlast
    have hup := k.le_pageUp ((phs.getLastD ph).vaddr + (phs.getLastD ph).memsz)
    have hstop := h.stop
    unfold Region Base.pos at *
    omega

end

/-- What the calls behind the first mapping leave: the segments, and elsewhere what was there. -/
theorem Maps.filled {phs : List Phdr} {r : Loaded} {m₁ m₂ m₃ : Space} {b : Base k r.addr}
    (hmaps : Maps k file ph phs m r m₁ m₂ m₃) (h : Laid b ph phs r)
    (hm₂ : ∀ x, b.pos (alignDown ph.vaddr k.page) ≤ x →
      x < b.pos (k.pageUp (ph.vaddr + ph.filesz)) → m₂ x = some (ph.prot,
        file (alignDown ph.offset k.page + (x - b.pos (alignDown ph.vaddr k.page))))) :
    (∀ p ∈ ph :: phs, Filled b file p r.space) ∧
      ∀ x, (∀ p ∈ ph :: phs, ¬Region b p x) → r.space x = m₂ x := by
  have hph := h.room ph List.mem_cons_self
  obtain ⟨hfilled, hkept⟩ := hph.postmap hmaps.zeroed hm₂
  obtain ⟨hrest, hkept'⟩ := mapRest_spec hmaps.rest
    (fun p hp => h.room p (List.mem_cons_of_mem _ hp)) h.disjoint.tail
  refine ⟨List.forall_mem_cons.mpr ⟨?_, hrest⟩, fun x hx => ?_⟩
  · refine hfilled.congr (fun x hx => hkept' x fun q hq hx' => ?_) hph.first_le
    have := List.rel_of_pairwise_cons h.disjoint hq
    unfold Region Base.pos at *
    omega
  · obtain ⟨hx, hxs⟩ := List.forall_mem_cons.mp hx
    rw [hkept' x hxs, hkept x hx]

/-- The object is in memory as its program headers say. -/
theorem mapObject_correct {phs : List Phdr} {r : Loaded} (h : Ascending k (ph :: phs))
    (hfree : Free k (k.request (alignMax (ph :: phs)) (k.maplength ph phs)) m)
    (hrun : k.mapObject file (ph :: phs) m = .ok r) : Correct k file (ph :: phs) m r := by
  obtain ⟨_, _, m₁, m₂, m₃, heq, hmaps⟩ := mapObject_ok hrun
  cases heq
  obtain ⟨b, hlaid, hm₁⟩ := hmaps.laid h hfree
  have hpos := k.page_pos
  have hph := hlaid.room ph List.mem_cons_self
  have hlast := hlaid.room _ (List.getLastD_mem_cons (l := phs) (a := ph))
  have hup := k.le_pageUp (ph.vaddr + ph.filesz)
  have hmono := k.pageUp_mono (Nat.add_le_add_left hph.filesz_le ph.vaddr)
  have hdown := k.alignDown_le ph.vaddr
  have hdown' := k.alignDown_le (phs.getLastD ph).vaddr
  have hfirst := hlaid.first
  have hbase := hlaid.pos_first
  have hbelow := hlaid.region_le List.mem_cons_self
  have hholes := hmaps.holes
  rw [h.mapend List.mem_cons_self] at hholes
  have hm₂ := holes_spec (b := b) hholes (by omega) h.gap (k.alignDown_dvd _)
    (by have := hlast.vaddr; omega) (by have := hlast.room; unfold Base.pos at *; omega)
  obtain ⟨hfilled, hsame⟩ := hmaps.filled hlaid fun x h1 h2 => by
    rw [hm₂, if_neg (by omega), hm₁, if_pos (by unfold Base.pos at *; omega), hbase]
  constructor
  case segment =>
    intro p hp y h1 h2
    have hle := hlaid.region_le hp
    have hend := hlaid.mapEnd_lt
    have hlt := k.pageUp_lt r.mapEnd
    rw [b.word_add ((hlaid.room p hp).first_le.trans h1) (by unfold Base.pos at *; omega)]
    exact hfilled p hp y h1 h2
  case hole =>
    intro x h1 h2 hno
    have hno' := hlaid.not_region h1 h2 hno
    have hlow := k.le_pageUp r.mapEnd
    rw [hsame x hno', hm₂, if_pos (hlaid.between h1 h2 hno'), hm₁, if_pos (by omega)]
    exact ⟨_, rfl⟩
  case outside =>
    intro x hx
    have hlow := k.le_pageUp r.mapEnd
    have htop := hlaid.region_le (List.getLastD_mem_cons (l := phs) (a := ph))
    have hstart := hlaid.start
    have hup' := k.le_pageUp ((phs.getLastD ph).vaddr + (phs.getLastD ph).memsz)
    rw [hsame x, hm₂, if_neg (by unfold Base.pos at *; omega), hm₁, if_neg (by omega)]
    intro p hp hx'
    have hle := (hlaid.room p hp).first_le
    have := hlaid.region_le hp
    unfold Region Base.pos at *
    omega

/-- Pages of 4096 bytes, and a fixed address for all mappings. -/
def simple : Kernel :=
  ⟨12, fun _ => 2 ^ 20 + 4096, fun _ => false, Nat.le_of_ble_eq_true rfl, fun _ => ⟨257, rfl⟩⟩

def textAndData : List Phdr :=
  [⟨0, 0, 100, 100, 4096, ⟨true, false, true⟩⟩, ⟨4096, 12288, 10, 5000, 8192, ⟨true, true, false⟩⟩]

/-- A hole between two segments, zeros behind the second, and an alignment of two pages. -/
theorem mapObject_correct_aligned :
    ∃ r, simple.mapObject (fun _ => 1) textAndData (fun _ => none) = .ok r ∧
      Correct simple (fun _ => 1) textAndData (fun _ => none) r := by
  obtain ⟨r, hrun⟩ : ∃ r, simple.mapObject (fun _ => 1) textAndData (fun _ => none) = .ok r :=
    ⟨_, rfl⟩
  have hascending : Ascending simple textAndData := by
    constructor <;> decide
  exact ⟨r, hrun, mapObject_correct hascending ⟨by decide, fun _ _ _ => rfl⟩ hrun⟩

end Kernel

end AwaitGlibc.MapSegments
