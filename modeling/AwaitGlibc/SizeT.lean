import Mathlib.Data.UInt
import Mathlib.Algebra.Order.Ring.Nat
import Mathlib.Data.Nat.Bitwise
import Mathlib.Tactic.Ring

/-! Unsigned 64-bit sizes, `size_t` of C, with the wrapping arithmetic of
`UInt64`. Each lemma says under which bounds an expression of C has the value
it has over the natural numbers. Rounding up is the one place where an
intermediate value is allowed to wrap: the operand may have been lowered below
zero by at most one alignment, and the sum inside the division undoes it. -/
namespace AwaitGlibc.SizeT

/-- `roundup (x, y)` of `sys/param.h` for a `y` that is no constant. -/
def roundup (x y : UInt64) : UInt64 :=
  (x + (y - 1)) / y * y

/-- The representative of `-x` below the alignment `y`, `-x & (y - 1)`. -/
def negMod (x y : UInt64) : UInt64 :=
  -x &&& (y - 1)

theorem toNat_add_of_lt {x y : UInt64} (h : x.toNat + y.toNat < 2 ^ 64) :
    (x + y).toNat = x.toNat + y.toNat := by
  rw [UInt64.toNat_add, Nat.mod_eq_of_lt h]

theorem toNat_sub_of_le {x y : UInt64} (h : y.toNat ≤ x.toNat) :
    (x - y).toNat = x.toNat - y.toNat :=
  UInt64.toNat_sub_of_le x y (UInt64.le_iff_toNat_le.mpr h)

theorem toNat_mul_of_lt {x y : UInt64} (h : x.toNat * y.toNat < 2 ^ 64) :
    (x * y).toNat = x.toNat * y.toNat := by
  rw [UInt64.toNat_mul, Nat.mod_eq_of_lt h]

theorem toNat_pred {y : UInt64} (h : 0 < y.toNat) : (y - 1).toNat = y.toNat - 1 :=
  toNat_sub_of_le h

section Alignment
variable {x y : UInt64}

def PowerOfTwo (y : UInt64) : Prop :=
  ∃ k : ℕ, y.toNat = 2 ^ k

theorem PowerOfTwo.pos (hy : PowerOfTwo y) : 0 < y.toNat := by
  cases hy with
  | intro k hk => rw [hk]; exact Nat.two_pow_pos k

theorem PowerOfTwo.dvd_of_le (hx : PowerOfTwo x) (hy : PowerOfTwo y)
    (h : x.toNat ≤ y.toNat) : x.toNat ∣ y.toNat := by
  obtain ⟨k, hk⟩ := hx
  obtain ⟨n, hn⟩ := hy
  rw [hk, hn] at h ⊢
  exact Nat.pow_dvd_pow 2 ((Nat.pow_le_pow_iff_right (by decide)).mp h)

/-- A power of two below `2 ^ 64` divides it, so negation modulo `2 ^ 64` is
negation modulo the alignment. -/
theorem PowerOfTwo.dvd_size (hy : PowerOfTwo y) : y.toNat ∣ 2 ^ 64 := by
  obtain ⟨k, hk⟩ := hy
  have hlt : (2 : ℕ) ^ k < 2 ^ 64 := hk ▸ y.toNat_lt
  rw [hk]
  exact Nat.pow_dvd_pow 2 (Nat.pow_lt_pow_iff_right (by decide) |>.mp hlt).le

theorem toNat_negMod (hy : PowerOfTwo y) :
    (negMod x y).toNat = (2 ^ 64 - x.toNat) % y.toNat := by
  have hpred := toNat_pred hy.pos
  have hdvd := hy.dvd_size
  obtain ⟨k, hk⟩ := hy
  rw [negMod, UInt64.toNat_and, hpred, hk, Nat.and_two_pow_sub_one_eq_mod, UInt64.toNat_neg]
  rw [hk] at hdvd
  exact Nat.mod_mod_of_dvd _ hdvd

theorem negMod_lt (hy : PowerOfTwo y) : (negMod x y).toNat < y.toNat := by
  rw [toNat_negMod hy]
  exact Nat.mod_lt _ hy.pos

theorem dvd_negMod_add (hy : PowerOfTwo y) : y.toNat ∣ (negMod x y).toNat + x.toNat := by
  have hx := x.toNat_lt
  rw [← Nat.modEq_zero_iff_dvd, toNat_negMod hy]
  calc (2 ^ 64 - x.toNat) % y.toNat + x.toNat
      ≡ (2 ^ 64 - x.toNat) + x.toNat [MOD y.toNat] := (Nat.mod_modEq _ _).add_right _
    _ = 2 ^ 64 := by omega
    _ ≡ 0 [MOD y.toNat] := Nat.modEq_zero_iff_dvd.mpr hy.dvd_size

end Alignment

section Roundup
variable {x y r : UInt64}

/-- Rounding up a value that was lowered by `r`, a remainder of the alignment,
and raising the result by `r` again: the least value from `x` on that is
congruent to `r`. The difference `x - r` may wrap. -/
theorem roundup_sub_add_spec (hy : 0 < y.toNat) (hr : r.toNat < y.toNat)
    (hsum : x.toNat + y.toNat ≤ 2 ^ 64) :
    x.toNat ≤ (roundup (x - r) y + r).toNat ∧
    (roundup (x - r) y + r).toNat < x.toNat + y.toNat ∧
    ∃ q, (roundup (x - r) y + r).toNat = q * y.toNat + r.toNat := by
  have hpred := toNat_pred hy
  have hlift : (x - r + (y - 1)).toNat = x.toNat + (y.toNat - 1 - r.toNat) := by
    rw [UInt64.toNat_add, UInt64.toNat_sub, hpred]
    omega
  generalize hq : (x.toNat + (y.toNat - 1 - r.toNat)) / y.toNat = q
  have hlow : q * y.toNat ≤ x.toNat + (y.toNat - 1 - r.toNat) := hq ▸ Nat.div_mul_le_self _ _
  have hhigh : x.toNat + (y.toNat - 1 - r.toNat) < q * y.toNat + y.toNat :=
    hq ▸ Nat.lt_div_mul_add hy
  have hround : (roundup (x - r) y).toNat = q * y.toNat := by
    rw [roundup, toNat_mul_of_lt] <;> rw [UInt64.toNat_div, hlift, hq]
    omega
  have hback : (roundup (x - r) y + r).toNat = q * y.toNat + r.toNat := by
    rw [toNat_add_of_lt] <;> rw [hround]
    omega
  rw [hback]
  exact ⟨by omega, by omega, q, rfl⟩

theorem roundup_spec (hy : 0 < y.toNat) (hsum : x.toNat + y.toNat ≤ 2 ^ 64) :
    x.toNat ≤ (roundup x y).toNat ∧ (roundup x y).toNat < x.toNat + y.toNat ∧
    y.toNat ∣ (roundup x y).toNat := by
  have h := roundup_sub_add_spec (r := 0) hy hy hsum
  simp only [UInt64.sub_zero, UInt64.add_zero] at h
  obtain ⟨hge, hlt, q, hq⟩ := h
  exact ⟨hge, hlt, q, by rw [hq, mul_comm]; rfl⟩

end Roundup

end AwaitGlibc.SizeT
