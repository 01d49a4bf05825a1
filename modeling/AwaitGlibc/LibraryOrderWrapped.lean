import AwaitGlibc.LibraryOrder

/-!
# The order of library names on a machine whose integers wrap

`_dl_cache_libcmp` once more, with `int` arithmetic modulo `2 ^ 32` in place of an
undefined result. Up to which numbers in names it is an order.
-/
namespace AwaitGlibc.LibraryOrder.Wrapped
open ByteLayout

def wrap (x : ℤ) : ℤ := x.bmod (2 ^ 32)

def readNumber (val : ℤ) : Bytes → ℤ × Bytes
  | [] => (val, [])
  | c :: p => if isDigit c then readNumber (wrap (val * 10 + c.toNat - 48)) p else (val, c :: p)

def libcmpLoop : ℕ → Bytes → Bytes → Option ℤ
  | 0, _, _ => none
  | _ + 1, [], p2 => some (0 - char (peek p2))
  | fuel + 1, c1 :: q1, p2 =>
    if isDigit c1 then
      if isDigit (peek p2) then
        let (val1, p1) := readNumber (c1.toNat - 48) q1
        let (val2, p2) := readNumber ((peek p2).toNat - 48) p2.tail
        if val1 ≠ val2 then some (wrap (val1 - val2)) else libcmpLoop fuel p1 p2
      else some 1
    else if isDigit (peek p2) then some (-1)
    else if c1 ≠ peek p2 then some (char c1 - char (peek p2))
    else libcmpLoop fuel q1 p2.tail

def dlCacheLibcmp (p1 p2 : CString) : Option ℤ :=
  libcmpLoop (p1.length + 1) p1.bytes p2.bytes

/-- The values of the runs of digits, the first of which may have begun already. -/
def numbers : Option ℕ → Bytes → List ℕ
  | none, [] => []
  | some n, [] => [n]
  | none, c :: p => if isDigit c then numbers (some (c.toNat - 48)) p else numbers none p
  | some n, c :: p =>
    if isDigit c then numbers (some (n * 10 + c.toNat - 48)) p else n :: numbers none p

def Below (bound : ℕ) (p : Bytes) : Prop := ∀ n ∈ numbers none p, n < bound

/-- On the given names the comparison comes to a result, which is zero for names with equal numbers
and characters only, changes its sign with the order of the names, and is transitive. -/
def IsPreorder (known : CString → Prop) : Prop :=
  ∀ a b c, known a → known b → known c → ∃ ab ba bc ac,
    dlCacheLibcmp a b = some ab ∧ dlCacheLibcmp b a = some ba ∧ dlCacheLibcmp b c = some bc ∧
      dlCacheLibcmp a c = some ac ∧ (ab = 0 ↔ tokens none a.bytes = tokens none b.bytes) ∧
      sign ab = (sign ba).swap ∧ (ab ≤ 0 → bc ≤ 0 → ac ≤ 0)

theorem wrap_eq {x : ℤ} (hlo : -2 ^ 31 ≤ x) (hhi : x < 2 ^ 31) : wrap x = x :=
  Int.bmod_eq_of_le (by omega) (by omega)

theorem isDigit_iff {c : UInt8} : isDigit c = true ↔ 48 ≤ c.toNat ∧ c.toNat ≤ 57 := by
  simp [isDigit, UInt8.le_iff_toNat_le]

/-- What a number has been read up to is no larger than its value. -/
theorem exists_mem_numbers (val : ℕ) (p : Bytes) : ∃ n ∈ numbers (some val) p, val ≤ n := by
  induction p generalizing val with
  | nil => exact ⟨val, List.mem_singleton_self val, le_refl _⟩
  | cons c p ih =>
    rw [numbers]
    split_ifs with hd
    · obtain ⟨n, hn, hle⟩ := ih (val * 10 + c.toNat - 48)
      have := isDigit_iff.mp hd
      exact ⟨n, hn, by omega⟩
    · exact ⟨val, List.mem_cons_self, le_refl _⟩

/-- A number is read from the front of the tokens, with a name of less than `len` bytes behind it. -/
structure Reads (ts : List ℤ) (len : ℕ) (r : ℤ × Bytes) : Prop where
  value : 0 ≤ r.1 ∧ r.1 < 2 ^ 31
  tokens : ts = 1 :: r.1 :: tokens none r.2
  below : Below (2 ^ 31) r.2
  zero_notMem : (0 : UInt8) ∉ r.2
  length : r.2.length < len

theorem readNumber_spec {val : ℕ} {p : Bytes} (h : ∀ n ∈ numbers (some val) p, n < 2 ^ 31)
    (hp : (0 : UInt8) ∉ p) : Reads (tokens (some val) p) (p.length + 1) (readNumber val p) := by
  induction p generalizing val with
  | nil =>
    have hval := h val (List.mem_singleton_self val)
    exact ⟨by rw [readNumber]; omega, rfl, by simp [Below, numbers, readNumber], hp, Nat.one_pos⟩
  | cons c p ih =>
    rw [numbers] at h
    rw [readNumber.eq_def, tokens]
    dsimp only
    split_ifs at h ⊢ with hd
    · have hdigit := isDigit_iff.mp hd
      obtain ⟨n, hn, hle⟩ := exists_mem_numbers (val * 10 + c.toNat - 48) p
      have hlt := h n hn
      have hval : wrap ((val : ℤ) * 10 + c.toNat - 48) = (val * 10 + c.toNat - 48 : ℕ) := by
        rw [wrap_eq] <;> omega
      have hread := ih h fun hmem => hp (List.mem_cons_of_mem c hmem)
      rw [hval]
      exact { hread with length := hread.length.trans (Nat.lt_succ_self _) }
    · have hval := h val List.mem_cons_self
      refine ⟨by simp only; omega, ?_, ?_, hp, Nat.lt_succ_self _⟩
      · rw [tokens, if_neg hd]
      · intro n hn
        rw [numbers, if_neg hd] at hn
        exact h n (List.mem_cons_of_mem _ hn)

theorem readNumber_digit {p : Bytes} (hd : isDigit (peek p) = true) (h : Below (2 ^ 31) p)
    (hp : (0 : UInt8) ∉ p) :
    Reads (tokens none p) p.length (readNumber ((peek p).toNat - 48) p.tail) := by
  cases p with
  | nil => cases hd
  | cons c q =>
    have hdigit := isDigit_iff.mp hd
    have hval : ((peek (c :: q)).toNat : ℤ) - 48 = ((peek (c :: q)).toNat - 48 : ℕ) := by omega
    rw [Below, numbers, if_pos (show isDigit c = true from hd)] at h
    rw [hval, tokens_digit hd]
    exact readNumber_spec h (zero_notMem_tail hp)

theorem Below.tail {bound : ℕ} {p : Bytes} (h : Below bound p) (hd : ¬isDigit (peek p) = true) :
    Below bound p.tail := by
  cases p with
  | nil => exact h
  | cons c q =>
    rwa [Below, numbers, if_neg (show ¬isDigit c = true from hd)] at h

/-- Where no number reaches `2 ^ 31`, the comparison is that of the names as numbers and
characters. -/
theorem libcmpLoop_wrapped (fuel : ℕ) {p1 p2 : Bytes} (hfuel : p1.length < fuel)
    (hp1 : (0 : UInt8) ∉ p1) (hp2 : (0 : UInt8) ∉ p2) (h1 : Below (2 ^ 31) p1)
    (h2 : Below (2 ^ 31) p2) :
    ∃ res, libcmpLoop fuel p1 p2 = some res ∧
      sign res = compare (tokens none p1) (tokens none p2) := by
  induction fuel generalizing p1 p2 with
  | zero => omega
  | succ fuel ih =>
    cases p1 with
    | nil => exact ⟨_, rfl, (compare_end hp2).symm⟩
    | cons c1 q1 =>
      rw [List.length_cons] at hfuel
      rw [libcmpLoop, show isDigit c1 = isDigit (peek (c1 :: q1)) from rfl]
      split_ifs with hd1 hd2 hd2 hne
      · have hr1 : Reads _ (q1.length + 1) (readNumber (c1.toNat - 48) q1) :=
          readNumber_digit hd1 h1 hp1
        have hr2 := readNumber_digit hd2 h2 hp2
        have hlen := hr1.length
        have hv1 := hr1.value
        have hv2 := hr2.value
        rw [compare_numbers hr1.tokens hr2.tokens]
        simp only [ne_eq, ite_not]
        split_ifs with hval
        · exact ih (by omega) hr1.zero_notMem hr2.zero_notMem hr1.below hr2.below
        · exact ⟨_, rfl, by rw [wrap_eq] <;> omega⟩
      · exact ⟨_, rfl, (compare_digit_char hd1 (Bool.eq_false_iff.mpr hd2)).symm⟩
      · exact ⟨_, rfl, (compare_char_digit (Bool.eq_false_iff.mpr hd1) hd2).symm⟩
      · refine ⟨_, rfl, ?_⟩
        rw [compare_chars (Bool.eq_false_iff.mpr hd1) (Bool.eq_false_iff.mpr hd2)]
        exact (if_neg hne).symm
      · rw [not_not] at hne
        rw [compare_same hp1 (Bool.eq_false_iff.mpr hd1) hne]
        exact ih (by omega) (zero_notMem_tail hp1) (zero_notMem_tail hp2) (h1.tail hd1)
          (h2.tail hd2)

theorem dlCacheLibcmp_spec {a b : CString} (ha : Below (2 ^ 31) a.bytes)
    (hb : Below (2 ^ 31) b.bytes) :
    ∃ res, dlCacheLibcmp a b = some res ∧
      sign res = compare (tokens none a.bytes) (tokens none b.bytes) :=
  libcmpLoop_wrapped _ (Nat.lt_succ_self _) a.zero_notMem b.zero_notMem ha hb

/-- A name with a number that an `int` has no room for, and a name with the number zero. -/
def large : CString := ⟨[50, 49, 52, 55, 52, 56, 51, 54, 52, 56], by decide⟩

def zero : CString := ⟨[48], by decide⟩

/-- Either of the names is before the other. -/
theorem libcmp_both_less :
    dlCacheLibcmp large zero = some (-2147483648) ∧ dlCacheLibcmp zero large = some (-2147483648) := by
  decide

theorem libcmp_preorder_iff (bound : ℕ) :
    IsPreorder (fun p => Below bound p.bytes) ↔ bound ≤ 2 ^ 31 := by
  constructor
  · intro h
    by_contra hlt
    have hlarge : Below bound large.bytes := by
      intro n hn
      rw [List.mem_singleton.mp (show n ∈ [2147483648] from hn)]
      omega
    have hzero : Below bound zero.bytes := by
      intro n hn
      rw [List.mem_singleton.mp (show n ∈ [0] from hn)]
      omega
    obtain ⟨ab, ba, -, -, hab, hba, -, -, -, hsign, -⟩ := h _ _ _ hlarge hzero hzero
    rw [show dlCacheLibcmp zero large = some (-2147483648) by decide] at hba
    cases hab
    cases hba
    exact absurd hsign (by decide)
  · intro hle a b c ha hb hc
    have hfits {p : CString} (h : Below bound p.bytes) : Below (2 ^ 31) p.bytes :=
      fun n hn => (h n hn).trans_le hle
    obtain ⟨ab, hab, hsab⟩ := dlCacheLibcmp_spec (hfits ha) (hfits hb)
    obtain ⟨ba, hba, hsba⟩ := dlCacheLibcmp_spec (hfits hb) (hfits ha)
    obtain ⟨bc, hbc, hsbc⟩ := dlCacheLibcmp_spec (hfits hb) (hfits hc)
    obtain ⟨ac, hac, hsac⟩ := dlCacheLibcmp_spec (hfits ha) (hfits hc)
    refine ⟨ab, ba, bc, ac, hab, hba, hbc, hac, ?_, ?_, ?_⟩
    · rw [← compare_eq_iff_eq, ← sign, hsab]
      exact Std.LawfulEqCmp.compare_eq_iff_eq
    · rw [hsab, hsba]
      exact Std.OrientedCmp.eq_swap
    · rw [sign] at hsab hsbc hsac
      rw [← Std.isLE_compare, hsab, ← Std.isLE_compare, hsbc, ← Std.isLE_compare, hsac]
      exact Std.TransCmp.isLE_trans

end AwaitGlibc.LibraryOrder.Wrapped
