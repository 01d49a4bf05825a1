import AwaitGlibc.OpenatPaths
import AwaitGlibc.PreopenLists

/-!
# Descriptor numbers in the environment

The preopen lists are read by `strtol`, the library list by `_dl_strtoul`, and both
results are narrowed to `int`. A decimal numeral in the range of `int` is what the
lists are meant to hold. The first reader also takes blanks, a sign and numbers that
are narrowed to another one; the second in addition reads a leading zero as the
octal prefix, ignores what follows the digits and never records descriptor 0.
-/
namespace AwaitGlibc.DescriptorTokens
open CText DlStrtoul PreopenLists OpenatPaths

/-- What `PREOPEN_PATH_FDS` or `PREOPEN_FILE_FDS` records; -1 stands for no descriptor. -/
def recordedPreopen (token : Text) : Option ℤ :=
  if listedFd token = -1 then none else some (listedFd token)

/-- What `LD_LIBRARY_PATH_FDS` records. -/
def recordedLibrary (token : Text) : Option ℤ :=
  if 0 < tokenFd token then some (tokenFd token) else none

def InRange (token : Text) : Prop := IsNumeral token ∧ (digitsValue token : ℤ) ≤ intMax

instance (token : Text) : Decidable (InRange token) := inferInstanceAs (Decidable (_ ∧ _))

def ReadAsDecimal (token : Text) (recorded : Option ℤ) : Prop :=
  recorded = if InRange token then some (digitsValue token : ℤ) else none

/-! ### The preopen lists -/

/-- The value of a token that is a numeral behind white space and a sign. -/
def signedNumeral (token : Text) : Option ℤ :=
  let u := takeSign (token.dropWhile isSpace)
  if IsNumeral u.2 then some (if u.1 then -(digitsValue u.2 : ℤ) else digitsValue u.2) else none

def saturate (v : ℤ) : ℤ := max longMin (min longMax v)

/-- Every token that is a numeral behind white space and a sign is the numeral in
range itself, or its saturated value ends in 32 one bits. -/
def PreopenReadable (token : Text) : Prop :=
  token ≠ [] ∧ ∀ v, signedNumeral token = some v → InRange token ∨ toInt (saturate v) = -1

variable {token : Text}

theorem listedFd_eq (hne : token ≠ []) :
    listedFd token = ((signedNumeral token).map fun v => toInt (saturate v)).getD (-1) := by
  have hm : toInt (-1) = -1 := by decide
  unfold listedFd signedNumeral strtol
  generalize takeSign (token.dropWhile isSpace) = u
  have hsplit := List.takeWhile_append_dropWhile (p := Char.isDigit) (l := u.2)
  by_cases hds : u.2.takeWhile Char.isDigit = []
  · have hnum : ¬ IsNumeral u.2 := by
      intro h
      rw [List.takeWhile_eq_self_iff.mpr h.2] at hds
      exact h.1 hds
    simp [hds, hnum, hne, hm]
  · have hdrop : u.2.drop (u.2.takeWhile Char.isDigit).length = u.2.dropWhile Char.isDigit := by
      nth_rewrite 2 [← hsplit]
      exact List.drop_left
    simp only [if_neg hds, hdrop]
    by_cases hrest : u.2.dropWhile Char.isDigit = []
    · rw [hrest, List.append_nil] at hsplit
      have hnum : IsNumeral u.2 := ⟨hsplit ▸ hds, List.takeWhile_eq_self_iff.mp hsplit⟩
      simp [hrest, hnum, hsplit, saturate]
    · have hnum : ¬ IsNumeral u.2 := fun h => hrest (List.dropWhile_eq_nil_iff.mpr h.2)
      simp [hrest, hnum, hm]

theorem listedFd_of_inRange (h : InRange token) : listedFd token = digitsValue token := by
  have hs := strtol_of_isNumeral h.1 h.2
  have hrange := toInt_of_range (v := digitsValue token) (by omega) h.2
  simp [listedFd, hs, hrange]

theorem recordedPreopen_iff (token : Text) :
    ReadAsDecimal token (recordedPreopen token) ↔ PreopenReadable token := by
  unfold ReadAsDecimal recordedPreopen PreopenReadable
  by_cases hr : InRange token
  · have hfd := listedFd_of_inRange hr
    have hpos : ¬ (digitsValue token : ℤ) = -1 := by omega
    simp [hr, hfd, hpos, hr.1.1]
  · by_cases hne : token = []
    · subst hne
      decide
    · rw [listedFd_eq hne]
      cases hs : signedNumeral token with
      | none => simp [hr, hne]
      | some v => simp [hr, hne]

/-! ### The library list -/

/-- A numeral in range is not 0 and has no leading zero, unless it has one digit
behind its zeros. Of another token the number in front is 0, negative, too large
for 64 bits, or one whose low 32 bits are not positive. -/
def LibraryReadable (token : Text) : Prop :=
  if InRange token then
    digitsValue token ≠ 0 ∧ (token.head? = some '0' → digitsValue token < 8)
  else uint64Max < (numeralValue token).natAbs + numeralBase token ∨ toInt (numeralValue token) ≤ 0

section Octal
variable {t : Text}

theorem digitOf_ten {c : Char} (h : c.isDigit = true) : digitOf 10 c = some (c.toNat - 48) := by
  have hc : 48 ≤ c.toNat ∧ c.toNat ≤ 57 := Char.isDigit_iff_toNat.mp h
  simp [digitOf, hc.1, hc.2]

theorem digitOf_eight {c : Char} (h : c.isDigit = true) :
    digitOf 8 c = if c.toNat - 48 < 8 then some (c.toNat - 48) else none := by
  have hc : 48 ≤ c.toNat ∧ c.toNat ≤ 57 := Char.isDigit_iff_toNat.mp h
  have hiff : c.toNat ≤ 48 + 7 ↔ c.toNat - 48 < 8 := by omega
  simp [digitOf, hc.1, hiff]

def decimalFrom (n : ℕ) (t : Text) : ℕ := t.foldl (fun n c => 10 * n + (c.toNat - 48)) n

theorem readDigits_ten (hd : ∀ c ∈ t, c.isDigit = true) (n : ℕ) :
    readDigits 10 n t = decimalFrom n t := by
  induction t generalizing n with
  | nil => rfl
  | cons c t ih =>
    rw [List.forall_mem_cons] at hd
    rw [readDigits, digitOf_ten hd.1]
    rw [mul_comm n 10]
    exact ih hd.2 _

theorem le_decimalFrom (n : ℕ) (t : Text) : n ≤ decimalFrom n t := by
  induction t generalizing n with
  | nil => exact le_refl n
  | cons c t ih => exact le_trans (by omega) (ih (10 * n + (c.toNat - 48)))

theorem readDigits_eight_lt (hd : ∀ c ∈ t, c.isDigit = true) {m n : ℕ} (h : m < n) :
    readDigits 8 m t < decimalFrom n t := by
  induction t generalizing m n with
  | nil => exact h
  | cons c t ih =>
    rw [List.forall_mem_cons] at hd
    rw [readDigits, digitOf_eight hd.1]
    split_ifs with hc
    · exact ih (n := 10 * n + (c.toNat - 48)) hd.2 (by omega)
    · exact lt_of_lt_of_le h (le_decimalFrom n (c :: t))

theorem readDigits_eight (hd : ∀ c ∈ t, c.isDigit = true) {n : ℕ} (hn : n < 8) :
    (decimalFrom n t < 8 → readDigits 8 n t = decimalFrom n t) ∧
      (8 ≤ decimalFrom n t → readDigits 8 n t < decimalFrom n t) := by
  induction t generalizing n with
  | nil => exact ⟨fun _ => rfl, fun h => absurd hn (not_lt.mpr h)⟩
  | cons c t ih =>
    rw [List.forall_mem_cons] at hd
    have hle := le_decimalFrom (10 * n + (c.toNat - 48)) t
    have hstep : decimalFrom n (c :: t) = decimalFrom (10 * n + (c.toNat - 48)) t := rfl
    rw [readDigits, digitOf_eight hd.1, hstep]
    split_ifs with hc
    · rcases Nat.eq_zero_or_pos n with rfl | hpos
      · simpa using ih hd.2 hc
      · exact ⟨fun h => absurd h (by omega), fun _ => readDigits_eight_lt hd.2 (by omega)⟩
    · exact ⟨fun h => absurd h (by omega), fun h => lt_of_lt_of_le hn h⟩

end Octal

theorem takeSign_of_isNumeral (h : IsNumeral token) :
    takeSign (token.dropWhile isBlank) = (false, token) ∧ startsNumeral token = true := by
  obtain ⟨c, t, rfl⟩ := List.exists_cons_of_ne_nil h.1
  have hc : c.isDigit = true := h.2 c List.mem_cons_self
  have hne : c ≠ ' ' ∧ c ≠ '\t' ∧ c ≠ '-' ∧ c ≠ '+' := by
    refine ⟨?_, ?_, ?_, ?_⟩ <;> rintro rfl <;> exact absurd hc (by decide)
  have hblank : isBlank c = false := by simp [isBlank, hne.1, hne.2.1]
  refine ⟨?_, hc⟩
  unfold takeSign
  split <;> simp_all

theorem basePrefix_of_isNumeral (h : IsNumeral token) :
    basePrefix token = (if token.head? = some '0' then 8 else 10, token) := by
  obtain ⟨c, t, rfl⟩ := List.exists_cons_of_ne_nil h.1
  unfold basePrefix
  split
  · rename_i d rest heq
    have hd : d.isDigit = true := h.2 d (by simp [heq])
    have hx : ¬ (d = 'x' ∨ d = 'X') := by
      rintro (rfl | rfl) <;> exact absurd hd (by decide)
    simp_all
  · simp_all
  · rename_i hzero hsingle
    have hc : c ≠ '0' := by
      rintro rfl
      cases t with
      | nil => exact hsingle rfl
      | cons d t => exact hzero d t rfl
    simp [hc]

/-- A numeral in range is narrowed to the value of its digits in the base that
its first digit selects. -/
theorem tokenFd_of_inRange (h : InRange token) :
    tokenFd token = readDigits (if token.head? = some '0' then 8 else 10) 0 token ∧
      (tokenFd token = digitsValue token ↔
        (token.head? = some '0' → digitsValue token < 8)) := by
  obtain ⟨hsign, hstart⟩ := takeSign_of_isNumeral h.1
  have hten := readDigits_ten h.1.2 0
  have height := readDigits_eight h.1.2 (n := 0) (by norm_num)
  have hvalue : decimalFrom 0 token = digitsValue token := rfl
  have hle := h.2
  have hfd : tokenFd token = readDigits (if token.head? = some '0' then 8 else 10) 0 token := by
    rw [tokenFd, toInt_dlStrtoul, numeralBase, numeralValue, hsign, basePrefix_of_isNumeral h.1]
    simp only [hstart, if_true, Bool.false_eq_true, if_false, Int.natAbs_natCast]
    unfold intMax at hle
    have hsmall : readDigits (if token.head? = some '0' then 8 else 10) 0 token < 2 ^ 31 := by
      split_ifs <;> omega
    rw [if_neg (by unfold uint64Max; split_ifs <;> omega)]
    exact toInt_of_range (by omega) (by unfold intMax; omega)
  refine ⟨hfd, ?_⟩
  rw [hfd]
  split_ifs with hzero <;> simp only [hzero, forall_true_left, IsEmpty.forall_iff, iff_true] <;> omega

theorem recordedLibrary_iff (token : Text) :
    ReadAsDecimal token (recordedLibrary token) ↔ LibraryReadable token := by
  unfold ReadAsDecimal recordedLibrary LibraryReadable
  by_cases hr : InRange token
  · obtain ⟨hfd, heq⟩ := tokenFd_of_inRange hr
    rw [if_pos hr, if_pos hr, ← heq]
    split_ifs with hpos
    · simp only [Option.some.injEq]
      omega
    · simp only [false_iff]
      omega
  · rw [if_neg hr, if_neg hr, tokenFd, toInt_dlStrtoul]
    split_ifs with hlarge hpos <;> simp_all

/-- Each reader records the tokens as decimal descriptor numbers exactly when they
are readable for it. -/
theorem recorded_iff (token : Text) :
    (ReadAsDecimal token (recordedPreopen token) ↔ PreopenReadable token) ∧
      (ReadAsDecimal token (recordedLibrary token) ↔ LibraryReadable token) :=
  ⟨recordedPreopen_iff token, recordedLibrary_iff token⟩

/-- 4294967299 is recorded as descriptor 3 by both readers; in the library list `010`
becomes 8, `3x` becomes 3 and `0` is dropped. -/
theorem tokens_misread :
    recordedPreopen "4294967299".toList = some 3 ∧ recordedPreopen "-3".toList = some (-3) ∧
      recordedLibrary "4294967299".toList = some 3 ∧ recordedLibrary "010".toList = some 8 ∧
      recordedLibrary "3x".toList = some 3 ∧ recordedLibrary "0".toList = none := by
  decide

end AwaitGlibc.DescriptorTokens
