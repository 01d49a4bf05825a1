import AwaitGlibc.MapSegments

/-! The alignment of the segments. The largest alignment is applied to the start of the first
mapping, but the first segment need not start at such a boundary. -/
namespace AwaitGlibc.MapSegments

def Aligned (phs : List Phdr) (addr : ℕ) : Prop :=
  ∀ ph ∈ phs, word (addr + ph.vaddr) ≡ ph.vaddr [MOD ph.align]

theorem powerof2_pow (i : ℕ) : powerof2 (2 ^ i) = true := by
  rw [powerof2, Nat.and_comm, Nat.and_two_pow_sub_one_eq_mod, Nat.mod_self, decide_eq_true_eq]

theorem foldl_align (phs : List Phdr) (hpow : ∀ ph ∈ phs, ∃ i < 64, ph.align = 2 ^ i) (n : ℕ) :
    ∃ r, phs.foldl (fun n ph => if powerof2 ph.align ∧ ph.align > n then ph.align else n) n = r ∧
      n ≤ r ∧ (∀ ph ∈ phs, ph.align ≤ r) ∧ (r = n ∨ ∃ ph ∈ phs, ph.align = r) := by
  induction phs generalizing n with
  | nil => exact ⟨n, rfl, le_refl _, nofun, .inl rfl⟩
  | cons ph phs ih =>
    obtain ⟨⟨i, -, hi⟩, hpow⟩ := List.forall_mem_cons.mp hpow
    obtain ⟨r, hr, hle, hall, hmem⟩ := ih hpow (if ph.align > n then ph.align else n)
    refine ⟨r, ?_, ?_, List.forall_mem_cons.mpr ⟨?_, hall⟩, ?_⟩
    · rw [List.foldl_cons, hi, powerof2_pow, ← hi]
      simpa using hr
    · split_ifs at hle <;> omega
    · split_ifs at hle <;> omega
    · obtain h | ⟨p, hp, h⟩ := hmem
      · split_ifs at h
        · exact .inr ⟨ph, List.mem_cons_self, h.symm⟩
        · exact .inl h
      · exact .inr ⟨p, List.mem_cons_of_mem ph hp, h⟩

theorem alignMax_spec {phs : List Phdr} (hpow : ∀ ph ∈ phs, ∃ i < 64, ph.align = 2 ^ i)
    (hne : phs ≠ []) :
    (∃ i < 64, alignMax phs = 2 ^ i) ∧ (∃ ph ∈ phs, ph.align = alignMax phs) ∧
      ∀ ph ∈ phs, ph.align ∣ alignMax phs := by
  obtain ⟨r, hr, -, hall, hmem⟩ := foldl_align phs hpow 0
  rw [← alignMax] at hr
  rw [hr]
  obtain ⟨p, hp⟩ := List.exists_mem_of_ne_nil phs hne
  obtain ⟨q, hq, rfl⟩ : ∃ q ∈ phs, q.align = r := by
    refine hmem.resolve_left fun hzero => ?_
    obtain ⟨i, -, hi⟩ := hpow p hp
    have hle := hall p hp
    have := Nat.two_pow_pos i
    omega
  obtain ⟨i, hi, heq⟩ := hpow q hq
  refine ⟨⟨i, hi, heq⟩, ⟨q, hq, rfl⟩, fun ph hph => ?_⟩
  obtain ⟨j, -, hj⟩ := hpow ph hph
  have hle := hall ph hph
  rw [heq, hj] at hle ⊢
  exact Nat.pow_dvd_pow 2 ((Nat.pow_le_pow_iff_right Nat.one_lt_two).mp hle)

theorem dvd_sub_iff {d x y : ℕ} (hd : d ∣ 2 ^ 64) (hx : d ∣ x) : d ∣ sub x y ↔ d ∣ y := by
  have hlt : word y ≤ 2 ^ 64 := (Nat.mod_lt y (by decide)).le
  rw [sub, word, Nat.dvd_mod_iff hd, Nat.dvd_add_right hx, Nat.dvd_sub_iff_right hlt hd, word,
    Nat.dvd_mod_iff hd]

namespace Kernel

variable {k : Kernel} {file : ℕ → UInt8} {m m' : Space}

theorem dlMapSegment_dvd {c : Loadcmd} {mapalign len start : ℕ}
    (h : k.dlMapSegment file c mapalign len m = .ok (start, m')) :
    if mapalign ≤ k.page then k.page ∣ start else mapalign ∣ start := by
  rw [dlMapSegment] at h
  split at h
  case isTrue hle =>
    obtain ⟨m₁, -, h⟩ := bind_ok h
    cases h
    rw [if_pos hle]
    exact k.place_dvd len
  case isFalse hlt =>
    obtain ⟨m₁, -, h⟩ := bind_ok h
    obtain ⟨m₂, -, h⟩ := bind_ok h
    cases h
    rw [if_neg hlt]
    exact Nat.dvd_sub_mod _

/-- Where the largest alignment is more than a page, the first segment has to start at a multiple
of it. -/
theorem aligned_iff {ph : Phdr} {phs : List Phdr} {r : Loaded}
    (hpow : ∀ p ∈ ph :: phs, ∃ i < 64, p.align = 2 ^ i)
    (h : k.mapObject file (ph :: phs) m = .ok r) :
    Aligned (ph :: phs) r.addr ↔
      alignMax (ph :: phs) ≤ k.page ∨ alignMax (ph :: phs) ∣ alignDown ph.vaddr k.page := by
  obtain ⟨_, _, m₁, m₂, m₃, heq, hmaps⟩ := mapObject_ok h
  cases heq
  have hstart := dlMapSegment_dvd hmaps.first
  obtain ⟨⟨i, hi, hmax⟩, ⟨q, hq, hqmax⟩, hdvd⟩ := alignMax_spec hpow (List.cons_ne_nil _ _)
  generalize alignMax (ph :: phs) = a at *
  have hword : a ∣ 2 ^ 64 := hmax ▸ Nat.pow_dvd_pow 2 hi.le
  have hcongr {p : Phdr} (hp : p ∈ ph :: phs) :
      word (r.addr + p.vaddr) ≡ p.vaddr [MOD p.align] ↔ p.align ∣ r.addr := by
    rw [word, Nat.ModEq, Nat.mod_mod_of_dvd _ ((hdvd p hp).trans hword), ← Nat.ModEq,
      Nat.add_modEq_right_iff]
  have hall : Aligned (ph :: phs) r.addr ↔ a ∣ r.addr :=
    ⟨fun h => hqmax ▸ (hcongr hq).mp (h q hq), fun h p hp => (hcongr hp).mpr ((hdvd p hp).trans h)⟩
  rw [hall, hmaps.addr]
  split_ifs at hstart with hpage
  · have hpow : a ∣ k.page := by
      rw [hmax, page] at hpage ⊢
      exact Nat.pow_dvd_pow 2 ((Nat.pow_le_pow_iff_right Nat.one_lt_two).mp hpage)
    rw [dvd_sub_iff hword (hpow.trans hstart)]
    exact iff_of_true (hpow.trans (Nat.dvd_sub_mod _)) (.inl hpage)
  · rw [dvd_sub_iff hword hstart, or_iff_right hpage]

def sample : Kernel := ⟨12, fun _ => 0x7f0000000000, fun _ => false, by decide, fun _ => by decide⟩

/-- An object whose second segment is to be at a multiple of two megabytes. -/
def huge (vaddr : ℕ) : List Phdr :=
  [⟨vaddr, vaddr, 0x800, 0x800, 0x1000, ⟨true, false, true⟩⟩,
    ⟨0x200000, 0x200000, 0x800, 0x900, 0x200000, ⟨true, true, false⟩⟩]

theorem aligned_huge :
    ∃ r, sample.mapObject (fun _ => 0) (huge 0) (fun _ => .none) = .ok r ∧ Aligned (huge 0) r.addr := by
  have hpow : ∀ p ∈ huge 0, ∃ i < 64, p.align = 2 ^ i :=
    List.forall_mem_cons.mpr ⟨⟨12, by decide, rfl⟩, List.forall_mem_singleton.mpr ⟨21, by decide, rfl⟩⟩
  have hrun : sample.mapObject (fun _ => 0) (huge 0) (fun _ => .none) = .ok _ := rfl
  exact ⟨_, hrun, (aligned_iff hpow hrun).mpr (.inr (by decide))⟩

/-- The first segment starts at the second page. -/
theorem huge_not_aligned :
    ∃ r, sample.mapObject (fun _ => 0) (huge 0x1000) (fun _ => .none) = .ok r ∧
      ¬Aligned (huge 0x1000) r.addr :=
  ⟨_, rfl, fun h => absurd (h _ (List.mem_cons_of_mem _ List.mem_cons_self)) (by decide)⟩

end Kernel

end AwaitGlibc.MapSegments
