import Mathlib.Data.Nat.ModEq
import Mathlib.Tactic.Ring

/-!
# Little-endian numbers

Numbers are written with a fixed number of bytes, the lowest first.
-/
namespace AwaitGlibc.ByteLayout

abbrev Bytes := List UInt8

/-- The lowest `width` bytes of a number. -/
def encode : ℕ → ℕ → Bytes
  | 0, _ => []
  | width + 1, n => UInt8.ofNat n :: encode width (n / 256)

def decode : Bytes → ℕ
  | [] => 0
  | b :: bytes => b.toNat + 256 * decode bytes

@[simp] theorem length_encode (width n : ℕ) : (encode width n).length = width := by
  induction width generalizing n with
  | zero => rfl
  | succ width ih => rw [encode, List.length_cons, ih]

theorem decode_encode (width n : ℕ) : decode (encode width n) = n % 256 ^ width := by
  induction width generalizing n with
  | zero => rw [encode, decode, pow_zero, Nat.mod_one]
  | succ width ih =>
    have hbyte : (UInt8.ofNat n).toNat = n % 256 := by simp
    rw [encode, decode, ih, hbyte, pow_succ', Nat.mod_mul]

end AwaitGlibc.ByteLayout
