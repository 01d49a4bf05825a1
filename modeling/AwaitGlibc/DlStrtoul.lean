import AwaitGlibc.CText

/-!
# `_dl_strtoul`

The number reader of the dynamic loader. It knows the prefixes of octal and
hexadecimal numbers, returns the largest 64-bit value as soon as the next digit
might not fit, and otherwise negates modulo `2 ^ 64`. Its callers store the
result in an `int`. `numeralValue` is what the same notation denotes among the
integers; the two agree on the range of `int`.
-/
namespace AwaitGlibc.DlStrtoul
open CText

def uint64Max : ℕ := 2 ^ 64 - 1

def digitOf (base : ℕ) (c : Char) : Option ℕ :=
  let maxDigit := if base = 8 then 7 else 9
  if 48 ≤ c.toNat ∧ c.toNat ≤ 48 + maxDigit then some (c.toNat - 48)
  else if base = 16 then
    if 97 ≤ c.toNat ∧ c.toNat ≤ 102 then some (c.toNat - 97 + 10)
    else if 65 ≤ c.toNat ∧ c.toNat ≤ 70 then some (c.toNat - 65 + 10)
    else none
  else none

/-- The digit loop; `none` is the early return for a number that is too large. -/
def accumulate (base : ℕ) : ℕ → Text → Option ℕ × Text
  | result, [] => (some result, [])
  | result, c :: rest =>
    match digitOf base c with
    | none => (some result, c :: rest)
    | some digval =>
      if (uint64Max - digval) / base ≤ result then (none, c :: rest)
      else accumulate base (result * base + digval) rest

/-- The base, and the text its digits start at. -/
def basePrefix : Text → ℕ × Text
  | '0' :: c :: rest => if c = 'x' ∨ c = 'X' then (16, rest) else (8, '0' :: c :: rest)
  | ['0'] => (8, ['0'])
  | t => (10, t)

def isBlank (c : Char) : Bool := c = ' ' || c = '\t'

def startsNumeral : Text → Bool
  | [] => false
  | c :: _ => c.isDigit

/-- The value as a `uint64_t`, and the text behind it. -/
def dlStrtoul (nptr : Text) : ℕ × Text :=
  let u := takeSign (nptr.dropWhile isBlank)
  if startsNumeral u.2 then
    let b := basePrefix u.2
    match accumulate b.1 0 b.2 with
    | (none, rest) => (uint64Max, rest)
    | (some result, rest) => (if u.1 then (2 ^ 64 - result) % 2 ^ 64 else result, rest)
  else (0, u.2)

def readDigits (base : ℕ) : ℕ → Text → ℕ
  | n, [] => n
  | n, c :: rest =>
    match digitOf base c with
    | none => n
    | some digval => readDigits base (n * base + digval) rest

/-- The integer that a text denotes in the notation of `_dl_strtoul`. -/
def numeralValue (nptr : Text) : ℤ :=
  let u := takeSign (nptr.dropWhile isBlank)
  if startsNumeral u.2 then
    let n := readDigits (basePrefix u.2).1 0 (basePrefix u.2).2
    if u.1 then -(n : ℤ) else n
  else 0

/-- The base that the prefix of a text selects. -/
def numeralBase (nptr : Text) : ℕ := (basePrefix (takeSign (nptr.dropWhile isBlank)).2).1

theorem le_readDigits {base : ℕ} (hb : 1 ≤ base) (n : ℕ) (t : Text) :
    n ≤ readDigits base n t := by
  induction t generalizing n with
  | nil => exact le_refl n
  | cons c rest ih =>
    rw [readDigits]
    cases digitOf base c with
    | none => exact le_refl n
    | some digval =>
      have hmul : n * 1 ≤ n * base := Nat.mul_le_mul_left n hb
      exact le_trans (by omega) (ih (n * base + digval))

/-- The early return is not taken below the bound, which leaves room for one
more digit. -/
theorem accumulate_eq {base : ℕ} (hb : 1 ≤ base) (n : ℕ) (t : Text)
    (h : readDigits base n t + base ≤ uint64Max) :
    (accumulate base n t).1 = some (readDigits base n t) := by
  induction t generalizing n with
  | nil => rfl
  | cons c rest ih =>
    rw [readDigits] at h ⊢
    rw [accumulate]
    cases hd : digitOf base c with
    | none => rfl
    | some digval =>
      simp only [hd] at h ⊢
      have hle := le_readDigits hb (n * base + digval) rest
      have hroom : ¬ (uint64Max - digval) / base ≤ n := by
        rw [not_le, ← Nat.succ_le_iff, Nat.le_div_iff_mul_le (by omega), Nat.succ_mul]
        omega
      rw [if_neg hroom]
      exact ih _ h

theorem basePrefix_bounds (t : Text) : 1 ≤ (basePrefix t).1 ∧ (basePrefix t).1 ≤ 16 := by
  unfold basePrefix
  split
  · split_ifs <;> simp
  · simp
  · simp

/-- Negation modulo `2 ^ 64` is negation for the low 32 bits. -/
theorem toInt_neg_mod {n : ℕ} (h : n ≤ 2 ^ 64) :
    toInt ((2 ^ 64 - n) % 2 ^ 64 : ℕ) = toInt (-(n : ℤ)) := by
  rcases Nat.eq_zero_or_pos n with rfl | hpos
  · rfl
  · have hmod : (2 ^ 64 - n) % 2 ^ 64 = 2 ^ 64 - n := Nat.mod_eq_of_lt (by omega)
    have hcast : ((2 ^ 64 - n : ℕ) : ℤ) = -(n : ℤ) + 2 ^ 32 * 2 ^ 32 := by omega
    rw [hmod, hcast]
    exact Int.add_mul_bmod_self_left _ _ _

theorem accumulate_none {base : ℕ} (hb : 1 ≤ base) (n : ℕ) (t : Text)
    (hn : n + base ≤ uint64Max) (h : uint64Max < readDigits base n t + base) :
    (accumulate base n t).1 = none := by
  induction t generalizing n with
  | nil => exact absurd h (not_lt.mpr hn)
  | cons c rest ih =>
    rw [readDigits] at h
    rw [accumulate]
    cases hd : digitOf base c with
    | none =>
      simp only [hd] at h
      exact absurd h (not_lt.mpr hn)
    | some digval =>
      simp only [hd] at h ⊢
      by_cases hroom : (uint64Max - digval) / base ≤ n
      · rw [if_pos hroom]
      · rw [if_neg hroom]
        rw [not_le, ← Nat.succ_le_iff, Nat.le_div_iff_mul_le (by omega), Nat.succ_mul] at hroom
        exact ih _ (by omega) h

/-- Narrowed to `int`, the value is the number denoted, up to a multiple of `2 ^ 32`, as
long as the number is not too large; then it is -1. -/
theorem toInt_dlStrtoul (token : Text) :
    toInt (dlStrtoul token).1 =
      if uint64Max < (numeralValue token).natAbs + numeralBase token then -1
      else toInt (numeralValue token) := by
  have hmax : toInt uint64Max = -1 := by decide
  unfold dlStrtoul numeralValue numeralBase
  generalize takeSign (token.dropWhile isBlank) = u
  obtain ⟨hb, hb'⟩ := basePrefix_bounds u.2
  cases hdigit : startsNumeral u.2 with
  | false =>
    simp only [hdigit, Bool.false_eq_true, if_false, Int.natAbs_zero]
    rw [if_neg (by unfold uint64Max; omega)]
    rfl
  | true =>
    simp only [hdigit, if_true]
    generalize basePrefix u.2 = b at *
    have habs : (if u.1 = true then -(readDigits b.1 0 b.2 : ℤ) else readDigits b.1 0 b.2).natAbs =
        readDigits b.1 0 b.2 := by split_ifs <;> omega
    rw [habs]
    by_cases hlarge : uint64Max < readDigits b.1 0 b.2 + b.1
    · have hacc := accumulate_none hb 0 b.2 (by unfold uint64Max; omega) hlarge
      rw [if_pos hlarge]
      cases hr : accumulate b.1 0 b.2 with
      | mk r rest =>
        rw [hr] at hacc
        dsimp only at hacc
        rw [hacc]
        exact hmax
    · have hacc := accumulate_eq hb 0 b.2 (not_lt.mp hlarge)
      cases hr : accumulate b.1 0 b.2 with
      | mk r rest =>
        rw [hr] at hacc
        dsimp only at hacc
        rw [hacc]
        split_ifs with hneg
        · exact toInt_neg_mod (by unfold uint64Max at hlarge; omega)
        · rfl

theorem toInt_dlStrtoul_of_range {t : Text} (h₀ : -2 ^ 31 ≤ numeralValue t)
    (h₁ : numeralValue t ≤ intMax) : toInt (dlStrtoul t).1 = numeralValue t := by
  have hbase := basePrefix_bounds (takeSign (t.dropWhile isBlank)).2
  rw [toInt_dlStrtoul, if_neg (by unfold intMax at h₁; unfold uint64Max numeralBase; omega)]
  exact toInt_of_range h₀ h₁

end AwaitGlibc.DlStrtoul
