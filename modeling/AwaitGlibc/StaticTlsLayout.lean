import Mathlib.Algebra.BigOperators.Group.List.Basic
import AwaitGlibc.StaticTls

/-! The layout of the start-up. The loop of `_dl_determine_tlsoffset` keeps one
gap between the blocks placed so far; a block goes into the gap or behind all
others. Without overflow every block is apart from the others and has the
residue of its segment, and the size of the area is a multiple of the largest
alignment beyond the thread control block. -/
namespace AwaitGlibc.StaticTls
open SizeT

/-- A block counted downwards from the thread pointer: the bytes at the
distances `top - size + 1` to `top`. -/
structure Block where
  top : ℕ
  size : ℕ

def Block.Apart (b b' : Block) : Prop :=
  b.top + b'.size ≤ b'.top ∨ b'.top + b.size ≤ b.top

theorem Block.Apart.symm {b b' : Block} (h : b.Apart b') : b'.Apart b :=
  Or.symm h

/-! ### One turn of the loop -/

/-- The block went into the remembered gap, which shrinks from below. -/
structure InGap (c : Cursor) (m : Segment) (off : UInt64) (c' : Cursor) : Prop where
  above : c.freetop.toNat + m.blocksize.toNat ≤ off.toNat
  below : off.toNat ≤ c.freebottom.toNat
  freetop : c'.freetop = off
  freebottom : c'.freebottom = c.freebottom
  offset : c'.offset = c.offset

/-- The block went behind all others; the gap is the old one or the padding. -/
structure AtEnd (c : Cursor) (m : Segment) (off : UInt64) (c' : Cursor) : Prop where
  above : c.offset.toNat + m.blocksize.toNat ≤ off.toNat
  short : off.toNat < c.offset.toNat + m.blocksize.toNat + m.align.toNat
  offset : c'.offset = off
  gap : (c'.freetop = c.freetop ∧ c'.freebottom = c.freebottom) ∨
    (c'.freetop = c.offset ∧ c'.freebottom.toNat + m.blocksize.toNat = off.toNat)

section Place
variable {c : Cursor} {m : Segment}

/-- Over a start that leaves room, the offset is at least the block above the
start, with less than one alignment of padding and the residue of the segment. -/
theorem offsetAbove_spec (start : UInt64) (m : Segment)
    (hroom : start.toNat + m.blocksize.toNat + m.align.toNat ≤ 2 ^ 64) :
    start.toNat + m.blocksize.toNat ≤ (offsetAbove start m).toNat ∧
    (offsetAbove start m).toNat < start.toNat + m.blocksize.toNat + m.align.toNat ∧
    m.align.toNat ∣ (offsetAbove start m).toNat + m.firstbyteOffset.toNat := by
  have hpos := m.align_pow.pos
  have hsum : (start + m.blocksize).toNat = start.toNat + m.blocksize.toNat :=
    toNat_add_of_lt (by omega)
  have hspec := roundup_sub_add_spec (x := start + m.blocksize) hpos
    (negMod_lt (x := m.firstbyteOffset) m.align_pow) (by omega)
  rw [hsum] at hspec
  obtain ⟨hge, hlt, q, hq⟩ := hspec
  refine ⟨hge, hlt, ?_⟩
  have hresidue := dvd_negMod_add (x := m.firstbyteOffset) m.align_pow
  rw [offsetAbove, hq, add_assoc]
  exact Nat.dvd_add (Nat.dvd_mul_left _ _) hresidue

theorem place_spec (hgap : c.freetop.toNat ≤ c.freebottom.toNat)
    (hend : c.freebottom.toNat ≤ c.offset.toNat)
    (hroom : c.offset.toNat + m.blocksize.toNat + m.align.toNat < 2 ^ 63) :
    (InGap c m (place c m).1 (place c m).2 ∨ AtEnd c m (place c m).1 (place c m).2) ∧
    m.align.toNat ∣ (place c m).1.toNat + m.firstbyteOffset.toNat ∧
    (place c m).2.maxAlign = if m.align < c.maxAlign then c.maxAlign else m.align := by
  by_cases hfits : m.blocksize ≤ c.freebottom - c.freetop ∧ offsetAbove c.freetop m ≤ c.freebottom
  · have hspec := offsetAbove_spec c.freetop m (by omega)
    rw [place, if_pos hfits]
    exact ⟨.inl ⟨hspec.1, UInt64.le_iff_toNat_le.mp hfits.2, rfl, rfl, rfl⟩, hspec.2.2, rfl⟩
  · have hspec := offsetAbove_spec c.offset m (by omega)
    rw [place, if_neg hfits]
    by_cases hlarger : c.offset + m.blocksize + (c.freebottom - c.freetop) < offsetAbove c.offset m
    · rw [if_pos hlarger]
      have hblock : (offsetAbove c.offset m - m.blocksize).toNat + m.blocksize.toNat
          = (offsetAbove c.offset m).toNat := by
        rw [toNat_sub_of_le (by omega)]
        omega
      exact ⟨.inr ⟨hspec.1, hspec.2.1, rfl, .inr ⟨rfl, hblock⟩⟩, hspec.2.2, rfl⟩
    · rw [if_neg hlarger]
      exact ⟨.inr ⟨hspec.1, hspec.2.1, rfl, .inl ⟨rfl, rfl⟩⟩, hspec.2.2, rfl⟩

end Place

/-! ### The whole loop -/

variable {α : Type} (tls : α → Segment)

def blockAt (offset : α → UInt64) (x : α) : Block :=
  ⟨(offset x).toNat, (tls x).blocksize.toNat⟩

/-- The offset suits the segment in an area used up to `used`: there is room for
the block, it is aligned, and the area provides its alignment. -/
structure Fitted (m : Segment) (off used maxAlign : UInt64) : Prop where
  size_le : m.blocksize.toNat ≤ off.toNat
  le_used : off.toNat ≤ used.toNat
  align_le : m.align.toNat ≤ maxAlign.toNat
  dvd : m.align.toNat ∣ off.toNat + m.firstbyteOffset.toNat

theorem Fitted.mono {m : Segment} {off used used' align align' : UInt64}
    (h : Fitted m off used align) (hused : used.toNat ≤ used'.toNat)
    (halign : align.toNat ≤ align'.toNat) : Fitted m off used' align' :=
  ⟨h.size_le, h.le_used.trans hused, h.align_le.trans halign, h.dvd⟩

structure Placed (done : α → Prop) (offset : α → UInt64) (c : Cursor) : Prop where
  gap_le : c.freetop.toNat ≤ c.freebottom.toNat
  gap_below : c.freebottom.toNat ≤ c.offset.toNat
  align_pow : PowerOfTwo c.maxAlign
  fitted : ∀ x, done x → Fitted (tls x) (offset x) c.offset c.maxAlign
  outside : ∀ x, done x → (offset x).toNat ≤ c.freetop.toNat ∨
    c.freebottom.toNat + (tls x).blocksize.toNat ≤ (offset x).toNat
  apart : ∀ x y, done x → done y → x ≠ y →
    (blockAt tls offset x).Apart (blockAt tls offset y)

section Loop
variable {tls} {done : α → Prop} {offset : α → UInt64} {c : Cursor}

/-- What a turn of the loop means for the blocks placed before: the new one is
apart from all of them and from the gap that is left. -/
theorem Placed.new_block (h : Placed tls done offset c) {m : Segment} {off : UInt64}
    {c' : Cursor} (hcase : InGap c m off c' ∨ AtEnd c m off c') :
    (m.blocksize.toNat ≤ off.toNat ∧ off.toNat ≤ c'.offset.toNat) ∧
    (off.toNat ≤ c'.freetop.toNat ∨ c'.freebottom.toNat + m.blocksize.toNat ≤ off.toNat) ∧
    (∀ y, done y → (⟨off.toNat, m.blocksize.toNat⟩ : Block).Apart (blockAt tls offset y)) ∧
    (∀ y, done y → (offset y).toNat ≤ c'.freetop.toNat ∨
      c'.freebottom.toNat + (tls y).blocksize.toNat ≤ (offset y).toNat) ∧
    (c'.freetop.toNat ≤ c'.freebottom.toNat ∧ c'.freebottom.toNat ≤ c'.offset.toNat) ∧
    c.offset.toNat ≤ c'.offset.toNat := by
  have hgap := h.gap_le
  have hbelow := h.gap_below
  cases hcase with
  | inl hin =>
    obtain ⟨habove, hin, ht, hb, ho⟩ := hin
    rw [ht, hb, ho]
    refine ⟨by omega, .inl le_rfl, fun y hy => ?_, fun y hy => ?_, by omega, le_rfl⟩
    · have := h.outside y hy
      simp only [Block.Apart, blockAt]
      omega
    · have := h.outside y hy
      omega
  | inr hout =>
    obtain ⟨habove, -, ho, hgap'⟩ := hout
    have hold : ∀ y, done y → (offset y).toNat ≤ c.offset.toNat :=
      fun y hy => (h.fitted y hy).le_used
    have happart : ∀ y, done y →
        (⟨off.toNat, m.blocksize.toNat⟩ : Block).Apart (blockAt tls offset y) := fun y hy =>
      .inr (le_trans (Nat.add_le_add_right (hold y hy) _) habove)
    rw [ho]
    cases hgap' with
    | inl hsame =>
      rw [hsame.1, hsame.2]
      exact ⟨by omega, by omega, happart, h.outside, by omega, by omega⟩
    | inr hpad =>
      rw [hpad.1]
      refine ⟨by omega, by omega, happart, fun y hy => .inl (hold y hy), by omega, by omega⟩

variable [DecidableEq α]

theorem blockAt_update_self (x : α) (off : UInt64) :
    blockAt tls (Function.update offset x off) x = ⟨off.toNat, (tls x).blocksize.toNat⟩ := by
  rw [blockAt, Function.update_self]

theorem blockAt_update_ne {x y : α} (hne : y ≠ x) (off : UInt64) :
    blockAt tls (Function.update offset x off) y = blockAt tls offset y := by
  rw [blockAt, blockAt, Function.update_of_ne hne]

theorem Placed.place (h : Placed tls done offset c) {x : α} (hnew : ¬ done x)
    (hroom : c.offset.toNat + (tls x).blocksize.toNat + (tls x).align.toNat < 2 ^ 63) :
    Placed tls (fun y => y = x ∨ done y)
      (Function.update offset x (StaticTls.place c (tls x)).1) (StaticTls.place c (tls x)).2 := by
  obtain ⟨hcase, hdvd, halign⟩ := place_spec h.gap_le h.gap_below hroom
  obtain ⟨hfit, hout, hapart, houtside, hgap, hgrow⟩ := h.new_block hcase
  have hne : ∀ {y}, done y → y ≠ x := fun hy he => hnew (he ▸ hy)
  have hle : c.maxAlign.toNat ≤ (StaticTls.place c (tls x)).2.maxAlign.toNat ∧
      (tls x).align.toNat ≤ (StaticTls.place c (tls x)).2.maxAlign.toNat ∧
      PowerOfTwo (StaticTls.place c (tls x)).2.maxAlign := by
    rw [halign]
    by_cases hlt : (tls x).align < c.maxAlign
    · rw [if_pos hlt]
      exact ⟨le_rfl, (UInt64.lt_iff_toNat_lt.mp hlt).le, h.align_pow⟩
    · rw [if_neg hlt]
      rw [UInt64.lt_iff_toNat_lt, not_lt] at hlt
      exact ⟨hlt, le_rfl, (tls x).align_pow⟩
  generalize (StaticTls.place c (tls x)).1 = off at *
  generalize (StaticTls.place c (tls x)).2 = c' at *
  constructor
  case gap_le => exact hgap.1
  case gap_below => exact hgap.2
  case align_pow => exact hle.2.2
  case fitted =>
    intro y hy
    cases hy with
    | inl he =>
      rw [he, Function.update_self]
      exact ⟨hfit.1, hfit.2, hle.2.1, hdvd⟩
    | inr hy =>
      rw [Function.update_of_ne (hne hy)]
      exact (h.fitted y hy).mono hgrow hle.1
  case outside =>
    intro y hy
    cases hy with
    | inl he =>
      rw [he, Function.update_self]
      exact hout
    | inr hy =>
      rw [Function.update_of_ne (hne hy)]
      exact houtside y hy
  case apart =>
    intro y z hy hz hyz
    cases hy with
    | inl he =>
      have hz : done z := hz.resolve_left fun hzx => hyz (he.trans hzx.symm)
      rw [he, blockAt_update_self, blockAt_update_ne (hne hz)]
      exact hapart z hz
    | inr hy =>
      rw [blockAt_update_ne (hne hy)]
      cases hz with
      | inl he =>
        rw [he, blockAt_update_self]
        exact (hapart y hy).symm
      | inr hz =>
        rw [blockAt_update_ne (hne hz)]
        exact h.apart y z hy hz hyz

omit [DecidableEq α] in
theorem Placed.congr (h : Placed tls done offset c) {done' : α → Prop}
    (hiff : ∀ x, done x ↔ done' x) : Placed tls done' offset c := by
  have heq : done = done' := funext fun x => propext (hiff x)
  exact heq ▸ h

end Loop

/-- The room the start-up objects take at most: each one its block and less
than one alignment of padding. -/
def roomFor (startup : List α) : ℕ :=
  (startup.map fun x => (tls x).blocksize.toNat + (tls x).align.toNat).sum

theorem roomFor_cons (x : α) (rest : List α) :
    roomFor tls (x :: rest)
      = (tls x).blocksize.toNat + (tls x).align.toNat + roomFor tls rest := by
  simp [roomFor]

/-- The loop keeps `Placed`. The bound `room` on all objects keeps every sum in
range. -/
theorem placeAll_spec [DecidableEq α] (room : ℕ) (hroom : room < 2 ^ 63) (rest : List α)
    {done : α → Prop} {offset : α → UInt64} {c : Cursor} (h : Placed tls done offset c)
    (hnew : ∀ x ∈ rest, ¬ done x) (hnodup : rest.Nodup)
    (hleft : c.offset.toNat + roomFor tls rest ≤ room)
    (halign : c.maxAlign.toNat ≤ max 64 room) :
    Placed tls (fun x => x ∈ rest ∨ done x) (placeAll tls rest c offset).2
      (placeAll tls rest c offset).1 ∧
    (placeAll tls rest c offset).1.offset.toNat ≤ room ∧
    (placeAll tls rest c offset).1.maxAlign.toNat ≤ max 64 room := by
  induction rest generalizing done offset c with
  | nil =>
    exact ⟨h.congr (by simp), (Nat.le_add_right _ _).trans hleft, halign⟩
  | cons x rest ih =>
    rw [roomFor_cons] at hleft
    rw [List.nodup_cons] at hnodup
    have hroom' : c.offset.toNat + (tls x).blocksize.toNat + (tls x).align.toNat < 2 ^ 63 := by
      omega
    have hplaced := h.place (hnew x List.mem_cons_self) hroom'
    obtain ⟨hcase, -, hmax⟩ := place_spec h.gap_le h.gap_below hroom'
    have hrest := ih hplaced ?_ hnodup.2 ?_ ?_
    · refine ⟨hrest.1.congr fun y => ?_, hrest.2⟩
      rw [List.mem_cons, or_left_comm, or_assoc]
    · intro y hy hdone
      cases hdone with
      | inl he => exact hnodup.1 (he ▸ hy)
      | inr hdone => exact hnew y (List.mem_cons_of_mem x hy) hdone
    · cases hcase with
      | inl hin =>
        rw [hin.offset]
        omega
      | inr hend =>
        have := hend.short
        rw [hend.offset]
        omega
    · rw [hmax]
      split <;> omega

/-! ### The area -/

variable (p : Parameters)

/-- The bytes below the thread pointer, `dl_tls_static_size - TLS_TCB_SIZE`. -/
def area (s : State α) : ℕ :=
  s.staticSize.toNat - p.tcbSize.toNat

structure Laid (s : State α) : Prop where
  align_pow : PowerOfTwo s.staticAlign
  tcb_le : p.tcbSize.toNat ≤ s.staticSize.toNat
  align_dvd : s.staticAlign.toNat ∣ area p s
  used_le : s.staticUsed.toNat ≤ area p s
  fitted : ∀ x ∈ s.live, HasStatic s x →
    Fitted (tls x) (s.offset x) s.staticUsed s.staticAlign
  apart : ∀ x ∈ s.live, ∀ y ∈ s.live, HasStatic s x → HasStatic s y → x ≠ y →
    (blockAt tls s.offset x).Apart (blockAt tls s.offset y)

/-- `_dl_determine_tlsoffset` establishes the invariant when the sizes, the
alignments, the surplus and the thread control block add up below `2 ^ 63`. -/
theorem laid_determineTlsoffset [DecidableEq α] {startup : List α} (hnodup : startup.Nodup)
    (hroom : roomFor tls startup + p.surplus.toNat + p.tcbSize.toNat < 2 ^ 63) :
    Laid tls p (determineTlsoffset tls p startup) := by
  have hstart : Placed tls (fun _ => False) (fun _ => noTlsOffset) ⟨tcbAlignment, 0, 0, 0⟩ :=
    ⟨le_rfl, le_rfl, ⟨6, rfl⟩, nofun, nofun, nofun⟩
  obtain ⟨hplaced, hoff, hmax⟩ := placeAll_spec tls (roomFor tls startup) (by omega)
    startup hstart (fun _ _ => id) hnodup (Nat.zero_add _).le (le_max_left _ _)
  have hstate : determineTlsoffset tls p startup = ⟨_, _, _, _, _, _⟩ := rfl
  rw [hstate]
  generalize placeAll tls startup ⟨tcbAlignment, 0, 0, 0⟩ (fun _ => noTlsOffset) = r
    at hplaced hoff hmax ⊢
  have hpos := hplaced.align_pow.pos
  have hsum : (r.1.offset + p.surplus).toNat = r.1.offset.toNat + p.surplus.toNat :=
    toNat_add_of_lt (by omega)
  obtain ⟨hge, hlt, hdvd⟩ := roundup_spec (x := r.1.offset + p.surplus) hpos (by omega)
  have hsize : (roundup (r.1.offset + p.surplus) r.1.maxAlign + p.tcbSize).toNat
      = (roundup (r.1.offset + p.surplus) r.1.maxAlign).toNat + p.tcbSize.toNat :=
    toNat_add_of_lt (by omega)
  constructor
  case align_pow => exact hplaced.align_pow
  case tcb_le => exact hsize ▸ Nat.le_add_left _ _
  case align_dvd =>
    rw [area, hsize, Nat.add_sub_cancel]
    exact hdvd
  case used_le =>
    rw [area, hsize, Nat.add_sub_cancel]
    exact (hsum ▸ Nat.le_add_right _ _).trans hge
  case fitted => exact fun x hx _ => hplaced.fitted x (.inl hx)
  case apart => exact fun x hx y hy _ _ => hplaced.apart x y (.inl hx) (.inl hy)

end AwaitGlibc.StaticTls
