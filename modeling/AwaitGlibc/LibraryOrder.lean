import AwaitGlibc.ByteLayout
import Mathlib.Data.List.Sort
import Mathlib.Order.Compare

/-!
# The order of the library cache

The entries of the cache are sorted by `compare`, which compares the names of libraries
with `_dl_cache_libcmp`: numbers in names by their values. The values are of type `int`,
and their overflow is an undefined result here.
-/
namespace AwaitGlibc.LibraryOrder
open ByteLayout

/-- A C string: no byte of it is zero. -/
def CString := {s : Bytes // (0 : UInt8) ∉ s}

namespace CString

instance : DecidableEq CString := inferInstanceAs (DecidableEq {s : Bytes // (0 : UInt8) ∉ s})

def bytes (s : CString) : Bytes := s.val

def length (s : CString) : ℕ := s.bytes.length

theorem zero_notMem (s : CString) : (0 : UInt8) ∉ s.bytes := s.property

end CString

def isDigit (c : UInt8) : Bool := 48 ≤ c && c ≤ 57

/-- The value of a byte as a `char`. -/
def char (c : UInt8) : ℤ := if c.toNat < 128 then c.toNat else c.toNat - 256

/-- The character a string starts with, which is zero at its end. -/
def peek : Bytes → UInt8
  | [] => 0
  | c :: _ => c

/-- `while (*p >= '0' && *p <= '9') val = val * 10 + *p++ - '0'`. -/
def readNumber (val : ℕ) : Bytes → Option (ℕ × Bytes)
  | [] => some (val, [])
  | c :: p =>
    if isDigit c then
      if val * 10 + c.toNat < 2 ^ 31 then readNumber (val * 10 + c.toNat - 48) p else none
    else some (val, c :: p)

/-- The loop of `_dl_cache_libcmp`; the fuel bounds its rounds. -/
def libcmpLoop : ℕ → Bytes → Bytes → Option ℤ
  | 0, _, _ => none
  | _ + 1, [], p2 => some (0 - char (peek p2))
  | fuel + 1, c1 :: q1, p2 =>
    if isDigit c1 then
      if isDigit (peek p2) then do
        let (val1, p1) ← readNumber (c1.toNat - 48) q1
        let (val2, p2) ← readNumber ((peek p2).toNat - 48) p2.tail
        if val1 ≠ val2 then some (val1 - val2) else libcmpLoop fuel p1 p2
      else some 1
    else if isDigit (peek p2) then some (-1)
    else if c1 ≠ peek p2 then some (char c1 - char (peek p2))
    else libcmpLoop fuel q1 p2.tail

def dlCacheLibcmp (p1 p2 : CString) : Option ℤ :=
  libcmpLoop (p1.length + 1) p1.bytes p2.bytes

def strcmp : Bytes → Bytes → ℤ
  | [], [] => 0
  | [], c2 :: _ => 0 - c2.toNat
  | c1 :: _, [] => c1.toNat
  | c1 :: p1, c2 :: p2 => if c1 = c2 then strcmp p1 p2 else c1.toNat - c2.toNat

/-- `struct cache_entry`; a subdirectory of `glibc-hwcaps` is given by its name. -/
structure Entry where
  lib : CString
  path : CString
  flags : BitVec 32
  osversion : BitVec 32
  isaLevel : BitVec 32
  hwcap : BitVec 64
  bitsHwcap : ℕ
  hwcaps : Option CString
  deriving DecidableEq

/-- The end of `compare`: the most specific hwcap first. -/
def compareHwcap (e1 e2 : Entry) : ℤ :=
  if e2.bitsHwcap > e1.bitsHwcap then 1
  else if e2.bitsHwcap < e1.bitsHwcap then -1
  else if e2.hwcap > e1.hwcap then 1
  else if e2.hwcap < e1.hwcap then -1
  else if e2.osversion > e1.osversion then 1
  else if e2.osversion < e1.osversion then -1
  else 0

/-- `compare` for entries of libraries with equal names. -/
def compareVariants (e1 e2 : Entry) : ℤ :=
  if e1.flags.toInt < e2.flags.toInt then 1
  else if e1.flags.toInt > e2.flags.toInt then -1
  else
    match e1.hwcaps, e2.hwcaps with
    | some _, none => -1
    | none, some _ => 1
    | some name1, some name2 =>
      let res := strcmp name1.bytes name2.bytes
      if res ≠ 0 then res else compareHwcap e1 e2
    | none, none => compareHwcap e1 e2

def compareEntries (e1 e2 : Entry) : Option ℤ := do
  let res ← dlCacheLibcmp e2.lib e1.lib
  if res = 0 then some (compareVariants e1 e2) else some res

/-! ## The order -/

/-- The numbers and characters of a name. Numbers are larger than characters, and the
end counts as the character zero. -/
def tokens : Option ℕ → Bytes → List ℤ
  | none, [] => [0, 0]
  | some n, [] => [1, n, 0, 0]
  | none, c :: p =>
    if isDigit c then tokens (some (c.toNat - 48)) p else 0 :: char c :: tokens none p
  | some n, c :: p =>
    if isDigit c then tokens (some (n * 10 + c.toNat - 48)) p
    else 1 :: n :: 0 :: char c :: tokens none p

def byName (e1 e2 : Entry) : Ordering :=
  compareOn (fun e : Entry => tokens none e.lib.bytes) e2 e1

def byKind : Entry → Entry → Ordering :=
  compareOn fun e => [-e.flags.toInt, if e.hwcaps.isSome then 0 else 1]

def bySubdirectory : Entry → Entry → Ordering :=
  compareOn fun e => (e.hwcaps.elim [] CString.bytes).map UInt8.toNat

def byHwcap : Entry → Entry → Ordering :=
  compareOn fun e => [-(e.bitsHwcap : ℤ), -(e.hwcap.toNat : ℤ), -(e.osversion.toNat : ℤ)]

def order : Entry → Entry → Ordering :=
  compareLex byName (compareLex byKind (compareLex bySubdirectory byHwcap))

instance : Std.TransCmp byName :=
  @Std.TransCmp.opposite _ (compareOn fun e : Entry => tokens none e.lib.bytes) _

instance : Std.TransCmp order := by
  unfold order byKind bySubdirectory byHwcap
  infer_instance

def sign (res : ℤ) : Ordering := compare res 0

theorem sign_sub (a b : ℤ) : sign (a - b) = compare a b := by
  rw [sign]
  obtain h | h | h := lt_trichotomy a b
  · rw [compare_lt_iff_lt.mpr h, compare_lt_iff_lt]
    omega
  · rw [compare_eq_iff_eq.mpr h, compare_eq_iff_eq]
    omega
  · rw [compare_gt_iff_gt.mpr h, compare_gt_iff_gt]
    omega

theorem char_inj {c c' : UInt8} (h : char c = char c') : c = c' := by
  have h1 := c.toNat_lt
  have h2 := c'.toNat_lt
  apply UInt8.toNat.inj
  unfold char at h
  split_ifs at h <;> omega

variable {p p1 p2 : Bytes}

theorem tokens_digit (h : isDigit (peek p) = true) :
    tokens none p = tokens (some ((peek p).toNat - 48)) p.tail := by
  cases p with
  | nil => cases h
  | cons c p =>
    exact if_pos h

def after (p : Bytes) : List ℤ := if p = [] then [] else tokens none p.tail

theorem tokens_char (h : isDigit (peek p) = false) :
    tokens none p = 0 :: char (peek p) :: after p := by
  cases p with
  | nil => rfl
  | cons c p =>
    rw [tokens, if_neg (by rw [← Bool.not_eq_true] at h; exact h)]
    rfl

theorem tokens_number (n : ℕ) (p : Bytes) : ∃ rest, tokens (some n) p = 1 :: rest := by
  induction p generalizing n with
  | nil => exact ⟨_, rfl⟩
  | cons c p ih =>
    rw [tokens]
    split_ifs
    · exact ih _
    · exact ⟨_, rfl⟩

section
variable {val v : ℕ} {rest : Bytes} (h : readNumber val p = some (v, rest))
include h

theorem tokens_readNumber : tokens (some val) p = 1 :: (v : ℤ) :: tokens none rest := by
  induction p generalizing val with
  | nil =>
    cases h
    rfl
  | cons c p ih =>
    rw [readNumber] at h
    rw [tokens]
    split_ifs at h with hd hlt
    · rw [if_pos hd]
      exact ih h
    · rw [if_neg hd]
      cases h
      rw [tokens, if_neg hd]

theorem zero_notMem_readNumber (hp : (0 : UInt8) ∉ p) : (0 : UInt8) ∉ rest := by
  induction p generalizing val with
  | nil =>
    cases h
    exact hp
  | cons c p ih =>
    rw [readNumber] at h
    split_ifs at h with hd hlt
    · exact ih h fun hmem => hp (List.mem_cons_of_mem c hmem)
    · cases h
      exact hp

end

theorem compare_cons_lt {a b : ℤ} (h : a < b) (as bs : List ℤ) :
    compare (a :: as) (b :: bs) = .lt := by
  rw [List.compare_cons_cons, compare_lt_iff_lt.mpr h]
  rfl

theorem compare_cons_gt {a b : ℤ} (h : b < a) (as bs : List ℤ) :
    compare (a :: as) (b :: bs) = .gt := by
  rw [List.compare_cons_cons, compare_gt_iff_gt.mpr h]
  rfl

theorem compare_cons_ne {a b : ℤ} (h : a ≠ b) (as bs : List ℤ) :
    compare (a :: as) (b :: bs) = compare a b := by
  obtain h | h := lt_or_gt_of_ne h
  · rw [compare_cons_lt h, compare_lt_iff_lt.mpr h]
  · rw [compare_cons_gt h, compare_gt_iff_gt.mpr h]

theorem compare_cons_self (a : ℤ) (as bs : List ℤ) :
    compare (a :: as) (a :: bs) = compare as bs := by
  rw [List.compare_cons_cons, compare_eq_iff_eq.mpr rfl]
  rfl

theorem peek_ne_zero (hp : (0 : UInt8) ∉ p) (hne : p ≠ []) : peek p ≠ 0 := by
  cases p with
  | nil => exact absurd rfl hne
  | cons c p =>
    rintro (rfl : c = 0)
    exact hp List.mem_cons_self

theorem zero_notMem_tail (hp : (0 : UInt8) ∉ p) : (0 : UInt8) ∉ p.tail :=
  fun h => hp (List.mem_of_mem_tail h)

theorem compare_chars (hd1 : isDigit (peek p1) = false) (hd2 : isDigit (peek p2) = false) :
    compare (tokens none p1) (tokens none p2) =
      if peek p1 = peek p2 then compare (after p1) (after p2)
      else sign (char (peek p1) - char (peek p2)) := by
  rw [tokens_char hd1, tokens_char hd2, compare_cons_self]
  split_ifs with heq
  · rw [heq, compare_cons_self]
  · rw [sign_sub, compare_cons_ne fun h => heq (char_inj h)]

theorem compare_digit_char (hd1 : isDigit (peek p1) = true) (hd2 : isDigit (peek p2) = false) :
    compare (tokens none p1) (tokens none p2) = .gt := by
  obtain ⟨rest, hrest⟩ := tokens_number ((peek p1).toNat - 48) p1.tail
  rw [tokens_digit hd1, hrest, tokens_char hd2]
  exact compare_cons_gt (by decide) _ _

theorem compare_char_digit (hd1 : isDigit (peek p1) = false) (hd2 : isDigit (peek p2) = true) :
    compare (tokens none p1) (tokens none p2) = .lt := by
  obtain ⟨rest, hrest⟩ := tokens_number ((peek p2).toNat - 48) p2.tail
  rw [tokens_digit hd2, hrest, tokens_char hd1]
  exact compare_cons_lt (by decide) _ _

theorem compare_end (hp2 : (0 : UInt8) ∉ p2) :
    compare (tokens none []) (tokens none p2) = sign (0 - char (peek p2)) := by
  cases hd2 : isDigit (peek p2) with
  | true =>
    have hle : 48 ≤ (peek p2).toNat ∧ (peek p2).toNat ≤ 57 := by
      simpa [isDigit, UInt8.le_iff_toNat_le] using hd2
    rw [compare_char_digit rfl hd2, eq_comm, sign, compare_lt_iff_lt, char]
    split_ifs <;> omega
  | false =>
    rw [compare_chars rfl hd2]
    split_ifs with heq
    · have hnil : p2 = [] := by
        by_contra hne
        exact peek_ne_zero hp2 hne heq.symm
      rw [hnil]
      rfl
    · rfl

theorem compare_same {c1 : UInt8} {q1 : Bytes} (hp1 : (0 : UInt8) ∉ c1 :: q1)
    (hd1 : isDigit (peek (c1 :: q1)) = false) (heq : c1 = peek p2) :
    compare (tokens none (c1 :: q1)) (tokens none p2) =
      compare (tokens none q1) (tokens none p2.tail) := by
  have hp2 : p2 ≠ [] := by
    rintro rfl
    exact hp1 (heq ▸ List.mem_cons_self)
  have hpeek : peek (c1 :: q1) = peek p2 := heq
  rw [compare_chars hd1 (hpeek ▸ hd1), if_pos hpeek, after, after, if_neg (List.cons_ne_nil _ _),
    if_neg hp2, List.tail_cons]

theorem compare_numbers {r1 r2 : Bytes} {v1 v2 : ℤ}
    (h1 : tokens none p1 = 1 :: v1 :: tokens none r1)
    (h2 : tokens none p2 = 1 :: v2 :: tokens none r2) :
    compare (tokens none p1) (tokens none p2) =
      if v1 = v2 then compare (tokens none r1) (tokens none r2) else sign (v1 - v2) := by
  rw [h1, h2, compare_cons_self]
  split_ifs with heq
  · rw [heq, compare_cons_self]
  · rw [sign_sub, compare_cons_ne heq]

theorem libcmpLoop_spec (fuel : ℕ) {res : ℤ} (hp1 : (0 : UInt8) ∉ p1) (hp2 : (0 : UInt8) ∉ p2)
    (h : libcmpLoop fuel p1 p2 = some res) :
    sign res = compare (tokens none p1) (tokens none p2) := by
  induction fuel generalizing p1 p2 with
  | zero => cases h
  | succ fuel ih =>
    cases p1 with
    | nil =>
      cases h
      exact (compare_end hp2).symm
    | cons c1 q1 =>
      have hq1 := zero_notMem_tail hp1
      have hq2 := zero_notMem_tail hp2
      rw [libcmpLoop, show isDigit c1 = isDigit (peek (c1 :: q1)) from rfl] at h
      split_ifs at h with hd1 hd2 hd2 hne
      · obtain ⟨⟨val1, r1⟩, hr1, h⟩ := Option.bind_eq_some_iff.mp h
        obtain ⟨⟨val2, r2⟩, hr2, h⟩ := Option.bind_eq_some_iff.mp h
        rw [compare_numbers ((tokens_digit hd1).trans (tokens_readNumber hr1))
          ((tokens_digit hd2).trans (tokens_readNumber hr2))]
        simp only [ne_eq, ite_not] at h
        simp only [Nat.cast_inj]
        split_ifs at h ⊢ with hval
        · exact ih (zero_notMem_readNumber hr1 hq1) (zero_notMem_readNumber hr2 hq2) h
        · cases h
          rfl
      · cases h
        exact (compare_digit_char hd1 (Bool.eq_false_iff.mpr hd2)).symm
      · cases h
        exact (compare_char_digit (Bool.eq_false_iff.mpr hd1) hd2).symm
      · cases h
        rw [compare_chars (Bool.eq_false_iff.mpr hd1) (Bool.eq_false_iff.mpr hd2)]
        exact (if_neg hne).symm
      · rw [not_not] at hne
        rw [compare_same hp1 (Bool.eq_false_iff.mpr hd1) hne]
        exact ih hq1 hq2 h

theorem strcmp_spec (p1 p2 : Bytes) (hp1 : (0 : UInt8) ∉ p1) (hp2 : (0 : UInt8) ∉ p2) :
    sign (strcmp p1 p2) = compare (p1.map UInt8.toNat) (p2.map UInt8.toNat) := by
  have hpos {c : UInt8} {p : Bytes} (hp : (0 : UInt8) ∉ c :: p) : 0 < c.toNat := by
    rw [Nat.pos_iff_ne_zero]
    intro hzero
    have hc : c = 0 := UInt8.toNat.inj (hzero.trans UInt8.toNat_zero.symm)
    exact hp (hc ▸ List.mem_cons_self)
  induction p1 generalizing p2 with
  | nil =>
    cases p2 with
    | nil => rfl
    | cons c2 p2 =>
      have := hpos hp2
      rw [strcmp, sign, compare_lt_iff_lt.mpr (by omega)]
      rfl
  | cons c1 p1 ih =>
    cases p2 with
    | nil =>
      have := hpos hp1
      rw [strcmp, sign, compare_gt_iff_gt.mpr (by omega)]
      rfl
    | cons c2 p2 =>
      rw [strcmp, List.map_cons, List.map_cons, List.compare_cons_cons]
      split_ifs with heq
      · rw [heq, compare_eq_iff_eq.mpr rfl, ih p2 (zero_notMem_tail hp1) (zero_notMem_tail hp2)]
        rfl
      · rw [sign_sub]
        obtain hlt | hgt := lt_or_gt_of_ne fun h => heq (UInt8.toNat.inj h)
        · rw [compare_lt_iff_lt.mpr hlt, compare_lt_iff_lt.mpr (by omega)]
          rfl
        · rw [compare_gt_iff_gt.mpr hgt, compare_gt_iff_gt.mpr (by omega)]
          rfl

theorem compareHwcap_spec (e1 e2 : Entry) : sign (compareHwcap e1 e2) = byHwcap e1 e2 := by
  rw [byHwcap, compareOn, List.compare_cons_cons, List.compare_cons_cons, List.compare_cons_cons]
  unfold compareHwcap
  simp only [gt_iff_lt, BitVec.lt_def]
  split_ifs with h1 h2 h3 h4 h5 h6
  · rw [compare_gt_iff_gt.mpr (by omega)]
    rfl
  · rw [compare_lt_iff_lt.mpr (by omega)]
    rfl
  all_goals rw [compare_eq_iff_eq.mpr (show -(e1.bitsHwcap : ℤ) = _ by omega)]
  · rw [compare_gt_iff_gt.mpr (by omega)]
    rfl
  · rw [compare_lt_iff_lt.mpr (by omega)]
    rfl
  all_goals rw [compare_eq_iff_eq.mpr (show -(e1.hwcap.toNat : ℤ) = _ by omega)]
  · rw [compare_gt_iff_gt.mpr (by omega)]
    rfl
  · rw [compare_lt_iff_lt.mpr (by omega)]
    rfl
  · rw [compare_eq_iff_eq.mpr (by omega)]
    rfl

theorem compareVariants_spec (e1 e2 : Entry) :
    sign (compareVariants e1 e2) =
      compareLex byKind (compareLex bySubdirectory byHwcap) e1 e2 := by
  rw [compareLex, compareLex, byKind, compareOn, List.compare_cons_cons]
  unfold compareVariants
  obtain hlt | heq | hgt := lt_trichotomy e1.flags.toInt e2.flags.toInt
  · rw [if_pos hlt, compare_gt_iff_gt.mpr (by omega)]
    rfl
  · rw [if_neg (by omega), if_neg (by omega), compare_eq_iff_eq.mpr (congrArg Neg.neg heq)]
    cases h1 : e1.hwcaps with
    | none =>
      cases h2 : e2.hwcaps with
      | none =>
        rw [bySubdirectory, compareOn, h1, h2]
        exact compareHwcap_spec e1 e2
      | some name2 => rfl
    | some name1 =>
      cases h2 : e2.hwcaps with
      | none => rfl
      | some name2 =>
        have hstr := strcmp_spec name1.bytes name2.bytes name1.zero_notMem name2.zero_notMem
        rw [bySubdirectory, compareOn, h1, h2]
        change sign (if strcmp name1.bytes name2.bytes ≠ 0 then _ else _) =
          (compare (name1.bytes.map UInt8.toNat) (name2.bytes.map UInt8.toNat)).then _
        rw [← hstr]
        split_ifs with hne
        · obtain h | h := lt_or_gt_of_ne hne
          · rw [sign, compare_lt_iff_lt.mpr h]
            rfl
          · rw [sign, compare_gt_iff_gt.mpr h]
            rfl
        · rw [not_not] at hne
          rw [hne]
          exact compareHwcap_spec e1 e2
  · rw [if_neg (by omega), if_pos hgt, compare_lt_iff_lt.mpr (by omega)]
    rfl

theorem compareEntries_spec {e1 e2 : Entry} {res : ℤ} (h : compareEntries e1 e2 = some res) :
    sign res = order e1 e2 := by
  obtain ⟨r, hr, h⟩ := Option.bind_eq_some_iff.mp h
  have hname := libcmpLoop_spec _ e2.lib.zero_notMem e1.lib.zero_notMem hr
  rw [order, compareLex, byName, compareOn, ← hname]
  split_ifs at h with hzero
  · cases h
    rw [hzero, compareVariants_spec]
    rfl
  · cases h
    obtain h | h := lt_or_gt_of_ne hzero
    · rw [sign, compare_lt_iff_lt.mpr h]
      rfl
    · rw [sign, compare_gt_iff_gt.mpr h]
      rfl

end AwaitGlibc.LibraryOrder
