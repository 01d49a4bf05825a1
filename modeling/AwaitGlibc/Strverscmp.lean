import AwaitGlibc.LibraryOrder

/-!
# The order of version strings

`strverscmp` runs an automaton over what two strings have in common. Where they differ,
the state and the two characters select how to compare: by the characters, by the number
of digits that follow, or against the order of characters. The order is that of lists of
numbers: each place of a string contributes a rank, the length of the run of digits that
starts there, where numbers are integral, and the character.
-/
namespace AwaitGlibc.Strverscmp
open ByteLayout LibraryOrder

/-- `S_N`, `S_I`, `S_F` and `S_Z`. -/
inductive State where
  | normal
  | integral
  | fractional
  | zeroes
deriving DecidableEq, Repr

/-- The symbols `x`, `d` and `0`. -/
inductive Symbol where
  | other
  | digit
  | zero
deriving DecidableEq, Repr

/-- The entries of `result_type`; the last two stand for themselves. -/
inductive Result where
  | cmp
  | len
  | minus
  | plus
deriving DecidableEq, Repr

def symbol (c : UInt8) : Symbol :=
  if c = 48 then .zero else if isDigit c then .digit else .other

def nextState : State → Symbol → State
  | _, .other => .normal
  | .normal, .digit | .integral, _ => .integral
  | .normal, .zero | .zeroes, .zero => .zeroes
  | .fractional, _ | .zeroes, .digit => .fractional

def resultType : State → Symbol → Symbol → Result
  | .normal, .digit, .digit => .len
  | .normal, _, _ | .fractional, _, _ | _, .other, .other => .cmp
  | .integral, .other, _ => .minus
  | .integral, _, .other => .plus
  | .integral, _, _ => .len
  | .zeroes, .other, _ => .plus
  | .zeroes, _, .other => .minus
  | .zeroes, _, _ => .cmp

/-- `while (isdigit (*p1++)) if (!isdigit (*p2++)) return 1`. -/
def lenLoop (diff : ℤ) : Bytes → Bytes → ℤ
  | [], p2 => if isDigit (peek p2) then -1 else diff
  | c1 :: p1, p2 =>
    if isDigit c1 then if isDigit (peek p2) then lenLoop diff p1 p2.tail else 1
    else if isDigit (peek p2) then -1 else diff

/-- What follows the loop, with the first characters that differ. -/
def decideResult (s : State) (p1 p2 : Bytes) : ℤ :=
  let diff : ℤ := (peek p1).toNat - (peek p2).toNat
  match resultType s (symbol (peek p1)) (symbol (peek p2)) with
  | .cmp => diff
  | .len => lenLoop diff p1.tail p2.tail
  | .minus => -1
  | .plus => 1

/-- `while ((diff = c1 - c2) == 0)`. -/
def compareLoop : State → Bytes → Bytes → ℤ
  | s, [], p2 => if peek p2 = 0 then 0 else decideResult s [] p2
  | s, c1 :: p1, p2 =>
    if c1 = peek p2 then compareLoop (nextState s (symbol c1)) p1 p2.tail
    else decideResult s (c1 :: p1) p2

def strverscmp (s1 s2 : CString) : ℤ := compareLoop .normal s1.bytes s2.bytes

/-! ## The order -/

/-- The number of digits a string starts with. -/
def run : Bytes → ℤ
  | [] => 0
  | c :: p => if isDigit c then run p + 1 else 0

def rank : State → UInt8 → ℤ
  | .normal, c => if symbol c = .digit then 49 else c.toNat
  | .zeroes, c => if isDigit c then 0 else 1
  | _, _ => 0

def weight : State → Bytes → ℤ
  | .normal, p => if symbol (peek p) = .digit then run p else 0
  | .integral, p => run p
  | _, _ => 0

def keys : State → Bytes → List ℤ
  | s, [] => [rank s 0, weight s [], 0]
  | s, c :: p => rank s c :: weight s (c :: p) :: c.toNat :: keys (nextState s (symbol c)) p

theorem symbol_cases (c : UInt8) :
    symbol c = .zero ∧ isDigit c = true ∧ c.toNat = 48 ∨
      symbol c = .digit ∧ isDigit c = true ∧ 48 < c.toNat ∧ c.toNat ≤ 57 ∨
      symbol c = .other ∧ isDigit c = false ∧ (c.toNat < 48 ∨ 57 < c.toNat) := by
  have hdigit : isDigit c = true ↔ 48 ≤ c.toNat ∧ c.toNat ≤ 57 := by
    simp [isDigit, UInt8.le_iff_toNat_le]
  have hzero : c = 48 ↔ c.toNat = 48 := UInt8.toNat_inj.symm
  unfold symbol
  split_ifs with h0 hd
  · have hc := hzero.mp h0
    exact .inl ⟨rfl, hdigit.mpr (by omega), hc⟩
  · have hc := hdigit.mp hd
    rw [hzero] at h0
    exact .inr (.inl ⟨rfl, hd, by omega⟩)
  · rw [hdigit] at hd
    exact .inr (.inr ⟨rfl, by rw [← Bool.not_eq_true, hdigit]; exact hd, by omega⟩)

variable {p1 p2 : Bytes}

theorem run_nonneg (p : Bytes) : 0 ≤ run p := by
  induction p with
  | nil => exact le_rfl
  | cons c p ih =>
    rw [run]
    split_ifs <;> omega

theorem run_eq (p : Bytes) : run p = if isDigit (peek p) then run p.tail + 1 else 0 := by
  cases p <;> rfl

/-- The longer run of digits is the greater; runs of the same length are compared by `diff`. -/
theorem lenLoop_spec {diff : ℤ} (hdiff : diff ≠ 0) (p1 p2 : Bytes) :
    lenLoop diff p1 p2 ≠ 0 ∧
      (lenLoop diff p1 p2 < 0 ↔ run p1 < run p2 ∨ run p1 = run p2 ∧ diff < 0) := by
  induction p1 generalizing p2 with
  | nil =>
    have hpos := run_nonneg p2.tail
    rw [lenLoop, run, run_eq p2]
    split_ifs <;> omega
  | cons c1 p1 ih =>
    have hpos1 := run_nonneg p1
    have hpos2 := run_nonneg p2.tail
    have hrest := ih p2.tail
    rw [lenLoop, run, run_eq p2]
    split_ifs <;> omega

theorem keys_eq (s : State) (p : Bytes) :
    ∃ l, keys s p = rank s (peek p) :: weight s p :: (peek p).toNat :: l := by
  cases p with
  | nil => exact ⟨[], rfl⟩
  | cons c p => exact ⟨_, rfl⟩

theorem key_lt {a a' b b' c c' : ℤ} (hc : c ≠ c') (l l' : List ℤ) :
    a :: b :: c :: l < a' :: b' :: c' :: l' ↔ a < a' ∨ a = a' ∧ (b < b' ∨ b = b' ∧ c < c') := by
  simp only [List.cons_lt_cons_iff, hc, false_and, or_false]

theorem decideResult_spec (s : State) (p1 p2 : Bytes) (hne : peek p1 ≠ peek p2) :
    decideResult s p1 p2 ≠ 0 ∧ (decideResult s p1 p2 < 0 ↔ keys s p1 < keys s p2) ∧
      (0 < decideResult s p1 p2 ↔ keys s p2 < keys s p1) := by
  have hnat : (peek p1).toNat ≠ (peek p2).toNat := fun h => hne (UInt8.toNat_inj.mp h)
  obtain ⟨l1, h1⟩ := keys_eq s p1
  obtain ⟨l2, h2⟩ := keys_eq s p2
  have hpos1 := run_nonneg p1.tail
  have hpos2 := run_nonneg p2.tail
  have hdiff : ((peek p1).toNat : ℤ) - (peek p2).toNat ≠ 0 := by omega
  have hlen := lenLoop_spec hdiff p1.tail p2.tail
  rw [h1, h2, key_lt (by omega), key_lt (by omega), decideResult]
  obtain ⟨hs1, hd1, hr1⟩ | ⟨hs1, hd1, hr1⟩ | ⟨hs1, hd1, hr1⟩ := symbol_cases (peek p1) <;>
    obtain ⟨hs2, hd2, hr2⟩ | ⟨hs2, hd2, hr2⟩ | ⟨hs2, hd2, hr2⟩ := symbol_cases (peek p2) <;>
    cases s <;>
    simp only [resultType, rank, weight, hs1, hs2, hd1, hd2, run_eq p1, run_eq p2, if_true,
      if_false, reduceCtorEq, true_and] <;> omega

theorem weight_cons (s : State) (c : UInt8) (p1 p2 : Bytes) :
    weight s (c :: p1) = weight s (c :: p2) ∨ nextState s (symbol c) = .integral ∧
      weight s (c :: p1) = run p1 + 1 ∧ weight s (c :: p2) = run p2 + 1 := by
  obtain ⟨hs, hd, -⟩ | ⟨hs, hd, -⟩ | ⟨hs, hd, -⟩ := symbol_cases c <;>
    cases s <;> simp [weight, peek, run, nextState, hs, hd]

/-- Behind a character that two strings begin with, the order is that of the rest: the lengths of
runs of digits that begin with the character differ as those of the rest do. -/
theorem keys_cons_lt (s : State) (c : UInt8) (p1 p2 : Bytes) :
    keys s (c :: p1) < keys s (c :: p2) ↔
      keys (nextState s (symbol c)) p1 < keys (nextState s (symbol c)) p2 := by
  simp only [keys, List.cons_lt_cons_iff, lt_irrefl, true_and, false_or]
  obtain hsame | ⟨hnext, h1, h2⟩ := weight_cons s c p1 p2
  · simp [hsame]
  · obtain ⟨l1, hl1⟩ := keys_eq .integral p1
    obtain ⟨l2, hl2⟩ := keys_eq .integral p2
    rw [hnext, h1, h2, hl1, hl2]
    simp only [rank, weight, List.cons_lt_cons_iff, lt_irrefl, true_and, false_or,
      add_lt_add_iff_right, add_left_inj]
    tauto

theorem compareLoop_spec (s : State) (hp1 : (0 : UInt8) ∉ p1) (hp2 : (0 : UInt8) ∉ p2) :
    (compareLoop s p1 p2 = 0 ↔ p1 = p2) ∧ (compareLoop s p1 p2 < 0 ↔ keys s p1 < keys s p2) ∧
      (0 < compareLoop s p1 p2 ↔ keys s p2 < keys s p1) := by
  induction p1 generalizing s p2 with
  | nil =>
    rw [compareLoop]
    split_ifs with h
    · have hnil : p2 = [] := by
        by_contra hne
        exact peek_ne_zero hp2 hne h
      simp [hnil]
    · obtain ⟨hne, horder⟩ := decideResult_spec s [] p2 fun h' => h h'.symm
      refine ⟨iff_of_false hne ?_, horder⟩
      rintro rfl
      exact h rfl
  | cons c1 p1 ih =>
    rw [compareLoop]
    split_ifs with h
    · cases p2 with
      | nil => exact absurd (h ▸ List.mem_cons_self) hp1
      | cons c2 p2 =>
        obtain rfl : c1 = c2 := h
        rw [keys_cons_lt, keys_cons_lt, List.cons_inj_right]
        exact ih _ (zero_notMem_tail hp1) (zero_notMem_tail hp2)
    · obtain ⟨hne, horder⟩ := decideResult_spec s (c1 :: p1) p2 h
      refine ⟨iff_of_false hne ?_, horder⟩
      rintro rfl
      exact h rfl

theorem strverscmp_spec (a b : CString) :
    (strverscmp a b = 0 ↔ a.bytes = b.bytes) ∧
      (strverscmp a b < 0 ↔ keys .normal a.bytes < keys .normal b.bytes) ∧
      (0 < strverscmp a b ↔ keys .normal b.bytes < keys .normal a.bytes) :=
  compareLoop_spec .normal a.zero_notMem b.zero_notMem

/-! ## Numerals -/

def Digits (u : Bytes) : Prop := ∀ c ∈ u, isDigit c = true

/-- Digits without a leading zero. -/
structure IsNumeral (u : Bytes) : Prop where
  ne_nil : u ≠ []
  digits : Digits u
  leading : peek u = 48 → u = [48]

def value : Bytes → ℕ
  | [] => 0
  | c :: p => (c.toNat - 48) * 10 ^ p.length + value p

theorem digit_bounds {c : UInt8} (h : isDigit c = true) : 48 ≤ c.toNat ∧ c.toNat ≤ 57 := by
  simpa [isDigit, UInt8.le_iff_toNat_le] using h

theorem value_lt (h : Digits p1) : value p1 < 10 ^ p1.length := by
  induction p1 with
  | nil => exact Nat.one_pos
  | cons c p ih =>
    obtain ⟨hc, hp⟩ := List.forall_mem_cons.mp h
    have hrest := ih hp
    have hle : (c.toNat - 48) * 10 ^ p.length ≤ 9 * 10 ^ p.length :=
      Nat.mul_le_mul_right _ (by have := digit_bounds hc; omega)
    rw [value, List.length_cons, pow_succ]
    omega

theorem value_cons_lt {c d : UInt8} (hc : isDigit c = true) (hd : isDigit d = true)
    (h1 : Digits p1) (h2 : Digits p2) (hlen : p1.length = p2.length) :
    value (c :: p1) < value (d :: p2) ↔
      c.toNat < d.toNat ∨ c.toNat = d.toNat ∧ value p1 < value p2 := by
  have hv1 := value_lt h1
  have hv2 := value_lt h2
  have hc := digit_bounds hc
  have hd := digit_bounds hd
  rw [value, value, hlen]
  rw [hlen] at hv1
  obtain ⟨i, hi⟩ : ∃ i, c.toNat = 48 + i := ⟨c.toNat - 48, by omega⟩
  obtain ⟨j, hj⟩ : ∃ j, d.toNat = 48 + j := ⟨d.toNat - 48, by omega⟩
  rw [hi, hj, Nat.add_sub_cancel_left, Nat.add_sub_cancel_left]
  obtain hlt | rfl | hgt := lt_trichotomy i j
  · have hle := Nat.mul_le_mul_right (10 ^ p2.length) (Nat.succ_le_of_lt hlt)
    rw [Nat.succ_mul] at hle
    omega
  · omega
  · have hle := Nat.mul_le_mul_right (10 ^ p2.length) (Nat.succ_le_of_lt hgt)
    rw [Nat.succ_mul] at hle
    omega

theorem run_digits (h : Digits p1) : run p1 = p1.length := by
  induction p1 with
  | nil => rfl
  | cons c p ih =>
    obtain ⟨hc, hp⟩ := List.forall_mem_cons.mp h
    rw [run, if_pos hc, ih hp, List.length_cons, Nat.cast_succ]

theorem nextState_integral {c : UInt8} (h : isDigit c = true) :
    nextState .integral (symbol c) = .integral := by
  obtain ⟨hs, -⟩ | ⟨hs, -⟩ | ⟨-, hd, -⟩ := symbol_cases c
  · rw [hs]
    rfl
  · rw [hs]
    rfl
  · rw [h] at hd
    cases hd

/-- Digits in the middle of a number: more of them are the greater number. -/
theorem keys_digits_lt (h1 : Digits p1) (h2 : Digits p2) :
    keys .integral p1 < keys .integral p2 ↔
      p1.length < p2.length ∨ p1.length = p2.length ∧ value p1 < value p2 := by
  by_cases hlen : p1.length = p2.length
  · induction p1 generalizing p2 with
    | nil =>
      obtain rfl := List.eq_nil_of_length_eq_zero hlen.symm
      simp [value]
    | cons c p1 ih =>
      cases p2 with
      | nil => cases hlen
      | cons d p2 =>
        obtain ⟨hc, hp1⟩ := List.forall_mem_cons.mp h1
        obtain ⟨hd, hp2⟩ := List.forall_mem_cons.mp h2
        have hlen' := Nat.succ.inj hlen
        have hrest := ih hp1 hp2 hlen'
        rw [value_cons_lt hc hd hp1 hp2 hlen']
        simp only [keys, rank, weight, run_digits h1, run_digits h2, List.cons_lt_cons_iff,
          nextState_integral hc, nextState_integral hd, hrest, lt_irrefl, false_or, true_and]
        omega
  · obtain ⟨l1, hl1⟩ := keys_eq .integral p1
    obtain ⟨l2, hl2⟩ := keys_eq .integral p2
    rw [hl1, hl2, weight, weight, run_digits h1, run_digits h2]
    simp only [rank, List.cons_lt_cons_iff, lt_irrefl, false_or, true_and]
    omega

theorem IsNumeral.cases (h : IsNumeral p1) :
    p1 = [48] ∨ (∃ l, keys .normal p1 = 49 :: l ∧ keys .integral p1 = 0 :: l) ∧
      10 ^ (p1.length - 1) ≤ value p1 := by
  obtain ⟨c, p, rfl⟩ := List.exists_cons_of_ne_nil h.ne_nil
  obtain ⟨hc, -⟩ := List.forall_mem_cons.mp h.digits
  obtain ⟨-, -, h48⟩ | ⟨hs, -, hbounds⟩ | ⟨-, hd, -⟩ := symbol_cases c
  · exact .inl (h.leading (UInt8.toNat_inj.mp h48))
  · refine .inr ⟨⟨run (c :: p) :: c.toNat :: keys .integral p, ?_, ?_⟩, ?_⟩
    · simp [keys, rank, weight, peek, hs, nextState]
    · simp [keys, rank, weight, hs, nextState]
    · have hle := Nat.mul_le_mul_right (10 ^ p.length) (show 1 ≤ c.toNat - 48 by omega)
      rw [value, List.length_cons, Nat.add_sub_cancel]
      omega
  · rw [hc] at hd
    cases hd

theorem IsNumeral.keys_lt (h1 : IsNumeral p1) (h2 : IsNumeral p2) :
    keys .normal p1 < keys .normal p2 ↔ value p1 < value p2 := by
  obtain rfl | ⟨⟨l1, hn1, hi1⟩, hv1⟩ := h1.cases
  · obtain rfl | ⟨⟨l2, hn2, -⟩, hv2⟩ := h2.cases
    · simp
    · have hpos := Nat.pow_pos (n := p2.length - 1) (show 0 < 10 by decide)
      rw [hn2]
      simp [keys, rank, symbol, value, List.cons_lt_cons_iff]
      omega
  · obtain rfl | ⟨⟨l2, hn2, hi2⟩, hv2⟩ := h2.cases
    · rw [hn1]
      simp [keys, rank, symbol, value, List.cons_lt_cons_iff]
    · have hkeys := keys_digits_lt h1.digits h2.digits
      have hlt1 := value_lt h1.digits
      have hlt2 := value_lt h2.digits
      have hpow (i j : ℕ) (h : i < j) : 10 ^ i ≤ 10 ^ (j - 1) :=
        Nat.pow_le_pow_right (by decide) (by omega)
      have h12 := hpow p1.length p2.length
      have h21 := hpow p2.length p1.length
      simp only [hi1, hi2, List.cons_lt_cons_iff, lt_irrefl, false_or, true_and] at hkeys
      simp only [hn1, hn2, List.cons_lt_cons_iff, lt_irrefl, false_or, true_and, hkeys]
      omega

theorem compareLoop_prefix {p : Bytes} (hp : ∀ c ∈ p, isDigit c = false) (u v : Bytes) :
    compareLoop .normal (p ++ u) (p ++ v) = compareLoop .normal u v := by
  induction p with
  | nil => rfl
  | cons c p ih =>
    obtain ⟨hc, hp⟩ := List.forall_mem_cons.mp hp
    obtain ⟨-, hd, -⟩ | ⟨-, hd, -⟩ | ⟨hs, -⟩ := symbol_cases c
    · rw [hc] at hd
      cases hd
    · rw [hc] at hd
      cases hd
    · rw [List.cons_append, compareLoop, hs]
      exact (if_pos rfl).trans (ih hp)

theorem sign_congr {x y : ℤ} (hneg : x < 0 ↔ y < 0) (hpos : 0 < x ↔ 0 < y) : x.sign = y.sign := by
  obtain h | rfl | h := lt_trichotomy x 0
  · rw [Int.sign_eq_neg_one_of_neg h, Int.sign_eq_neg_one_of_neg (hneg.mp h)]
  · rw [show y = 0 by omega]
  · rw [Int.sign_eq_one_of_pos h, Int.sign_eq_one_of_pos (hpos.mp h)]

/-- `strverscmp` is a total order, and it orders numerals behind a common prefix without digits by
their values. -/
theorem strverscmp_total_order :
    (∀ a b : CString, strverscmp a b = 0 ↔ a = b) ∧
      (∀ a b, (strverscmp a b).sign = -(strverscmp b a).sign) ∧
      (∀ a b c, strverscmp a b ≤ 0 → strverscmp b c ≤ 0 → strverscmp a c ≤ 0) ∧
      ∀ (a b : CString) (p u v : Bytes), a.bytes = p ++ u → b.bytes = p ++ v →
        (∀ c ∈ p, isDigit c = false) → IsNumeral u → IsNumeral v →
        (strverscmp a b).sign = ((value u : ℤ) - value v).sign := by
  refine ⟨fun a b => ?_, fun a b => ?_, fun a b c hab hbc => ?_, ?_⟩
  · exact (strverscmp_spec a b).1.trans Subtype.ext_iff.symm
  · obtain ⟨-, hlt, hgt⟩ := strverscmp_spec a b
    obtain ⟨-, hlt', hgt'⟩ := strverscmp_spec b a
    rw [← Int.sign_neg]
    apply sign_congr
    · rw [hlt, Int.neg_neg_iff_pos, hgt']
    · rw [hgt, Int.neg_pos, hlt']
  · rw [← not_lt, (strverscmp_spec _ _).2.2] at hab hbc ⊢
    exact List.le_trans hab hbc
  · intro a b p u v ha hb hp hu hv
    have hnul {s : CString} {w : Bytes} (hs : s.bytes = p ++ w) : (0 : UInt8) ∉ w :=
      fun h => s.zero_notMem (hs ▸ List.mem_append_right p h)
    obtain ⟨-, hlt, hgt⟩ := compareLoop_spec .normal (hnul ha) (hnul hb)
    rw [strverscmp, ha, hb, compareLoop_prefix hp]
    apply sign_congr
    · rw [hlt, hu.keys_lt hv]
      omega
    · rw [hgt, hv.keys_lt hu]
      omega

/-- `a2` is before `a10`. -/
theorem strverscmp_total_order_numerals :
    (strverscmp ⟨[97, 50], by decide⟩ ⟨[97, 49, 48], by decide⟩).sign =
      ((value [50] : ℤ) - value [49, 48]).sign := by
  have hone (c : UInt8) (h : isDigit c = true) : Digits [c] := List.forall_mem_singleton.mpr h
  have hu : IsNumeral [50] := ⟨by decide, hone 50 rfl, by decide⟩
  have hv : IsNumeral [49, 48] :=
    ⟨by decide, List.forall_mem_cons.mpr ⟨rfl, hone 48 rfl⟩, by decide⟩
  exact strverscmp_total_order.2.2.2 _ _ [97] [50] [49, 48] rfl rfl
    (List.forall_mem_singleton.mpr rfl) hu hv

end AwaitGlibc.Strverscmp
