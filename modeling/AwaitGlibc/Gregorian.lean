import Mathlib

/-!
# The proleptic Gregorian calendar

Dates are given by their succession: the day after a date is the next day of its
month, the first of the next month or the first of January. Day `0` is
1970-01-01, and every other day number is reached from it by counting in either
direction (`IsDay`). `dayNumber` computes the number of a date from the leap
years before it; a date and its day number determine each other.
-/
namespace AwaitGlibc.Gregorian

/-! ### Years -/

def isLeap (y : ℤ) : Bool := y % 4 = 0 && (y % 100 ≠ 0 || y % 400 = 0)

def yearLength (y : ℤ) : ℤ := if isLeap y then 366 else 365

/-- Leap years up to the end of year `y`, counted from year 0 on. -/
def leapsThru (y : ℤ) : ℤ := y / 4 - y / 100 + y / 400

def yearStart (y : ℤ) : ℤ := 365 * (y - 1970) + leapsThru (y - 1) - leapsThru 1969

theorem isLeap_iff {y : ℤ} : isLeap y = true ↔ y % 4 = 0 ∧ (y % 100 ≠ 0 ∨ y % 400 = 0) := by
  simp [isLeap]

theorem leapsThru_eq (y : ℤ) : leapsThru y = leapsThru (y - 1) + if isLeap y then 1 else 0 := by
  unfold leapsThru
  by_cases h : isLeap y = true
  · rw [if_pos h]
    rw [isLeap_iff] at h
    omega
  · rw [if_neg h]
    rw [isLeap_iff] at h
    omega

theorem yearStart_succ (y : ℤ) : yearStart (y + 1) = yearStart y + yearLength y := by
  have hleaps := leapsThru_eq y
  unfold yearStart yearLength
  rw [add_sub_cancel_right, hleaps]
  split_ifs <;> omega

theorem yearLength_bounds (y : ℤ) : 365 ≤ yearLength y ∧ yearLength y ≤ 366 := by
  unfold yearLength
  split_ifs <;> omega

theorem yearStart_strictMono : StrictMono yearStart := by
  apply strictMono_int_of_lt_succ
  intro y
  have hlen := yearLength_bounds y
  rw [yearStart_succ]
  omega

theorem yearStart_sub_bounds {y z : ℤ} (h : y ≤ z) :
    365 * (z - y) ≤ yearStart z - yearStart y ∧
      4 * (yearStart z - yearStart y) ≤ 1461 * (z - y) + 3 := by
  unfold yearStart leapsThru
  omega

theorem year_unique {n y z : ℤ} (hy : yearStart y ≤ n) (hy' : n < yearStart (y + 1))
    (hz : yearStart z ≤ n) (hz' : n < yearStart (z + 1)) : y = z := by
  have h1 : y < z + 1 := yearStart_strictMono.lt_iff_lt.mp (hy.trans_lt hz')
  have h2 : z < y + 1 := yearStart_strictMono.lt_iff_lt.mp (hz.trans_lt hy')
  omega

/-! ### Months -/

/-- The length of month `m`, counted from January as `0`. -/
def monthLength (leap : Bool) (m : ℕ) : ℕ :=
  [31, if leap then 29 else 28, 31, 30, 31, 30, 31, 31, 30, 31, 30, 31].getD m 0

def daysBefore (leap : Bool) (m : ℕ) : ℕ := ∑ i ∈ Finset.range m, monthLength leap i

theorem daysBefore_succ (leap : Bool) (m : ℕ) :
    daysBefore leap (m + 1) = daysBefore leap m + monthLength leap m :=
  Finset.sum_range_succ _ m

theorem daysBefore_mono (leap : Bool) : Monotone (daysBefore leap) := by
  apply monotone_nat_of_le_succ
  intro m
  rw [daysBefore_succ]
  exact Nat.le_add_right _ _

theorem daysBefore_twelve (y : ℤ) : (daysBefore (isLeap y) 12 : ℤ) = yearLength y := by
  unfold yearLength
  cases isLeap y <;> decide

theorem monthLength_pos {leap : Bool} {m : ℕ} (h : m < 12) : 0 < monthLength leap m := by
  revert leap m
  decide

theorem month_unique (leap : Bool) {n m k : ℕ} (hm : daysBefore leap m ≤ n)
    (hm' : n < daysBefore leap (m + 1)) (hk : daysBefore leap k ≤ n)
    (hk' : n < daysBefore leap (k + 1)) : m = k := by
  have h1 : m < k + 1 := (daysBefore_mono leap).reflect_lt (hm.trans_lt hk')
  have h2 : k < m + 1 := (daysBefore_mono leap).reflect_lt (hk.trans_lt hm')
  omega

/-! ### Dates -/

/-- A day of the calendar; months are counted from `0` and days from `1`. -/
@[ext]
structure Date where
  year : ℤ
  month : ℕ
  day : ℕ
  month_lt : month < 12
  day_pos : 1 ≤ day
  day_le : day ≤ monthLength (isLeap year) month
deriving DecidableEq

namespace Date

def epoch : Date := ⟨1970, 0, 1, by decide, by decide, by decide⟩

def next (d : Date) : Date :=
  if h : d.day < monthLength (isLeap d.year) d.month then
    ⟨d.year, d.month, d.day + 1, d.month_lt, Nat.succ_pos _, h⟩
  else if h : d.month + 1 < 12 then
    ⟨d.year, d.month + 1, 1, h, Nat.one_pos, monthLength_pos h⟩
  else ⟨d.year + 1, 0, 1, by decide, Nat.one_pos, monthLength_pos (by decide)⟩

def dayOfYear (d : Date) : ℕ := daysBefore (isLeap d.year) d.month + (d.day - 1)

/-- Days since 1970-01-01. -/
def dayNumber (d : Date) : ℤ := yearStart d.year + d.dayOfYear

theorem dayOfYear_lt_succ (d : Date) :
    d.dayOfYear < daysBefore (isLeap d.year) (d.month + 1) := by
  have hle := d.day_le
  have hpos := d.day_pos
  rw [daysBefore_succ]
  unfold dayOfYear
  omega

theorem dayOfYear_lt (d : Date) : (d.dayOfYear : ℤ) < yearLength d.year := by
  have hmonth : daysBefore (isLeap d.year) (d.month + 1) ≤ daysBefore (isLeap d.year) 12 :=
    daysBefore_mono _ d.month_lt
  rw [← daysBefore_twelve]
  exact_mod_cast d.dayOfYear_lt_succ.trans_le hmonth

theorem dayNumber_next (d : Date) : d.next.dayNumber = d.dayNumber + 1 := by
  have hpos := d.day_pos
  have hle := d.day_le
  unfold next
  split_ifs with hday hmonth
  · simp only [dayNumber, dayOfYear]
    omega
  · have hsucc := daysBefore_succ (isLeap d.year) d.month
    simp only [dayNumber, dayOfYear]
    omega
  · have hm : d.month = 11 := by
      have hlt := d.month_lt
      omega
    have hsucc : daysBefore (isLeap d.year) 12 = _ := daysBefore_succ (isLeap d.year) 11
    have hyear := daysBefore_twelve d.year
    have hstart := yearStart_succ d.year
    have hzero : daysBefore (isLeap (d.year + 1)) 0 = 0 := rfl
    simp only [dayNumber, dayOfYear]
    rw [hm] at hday hle ⊢
    omega

theorem dayNumber_injective : Function.Injective dayNumber := by
  intro d e h
  have hyear : d.year = e.year := by
    have hd := d.dayOfYear_lt
    have he := e.dayOfYear_lt
    have hd' := yearStart_succ d.year
    have he' := yearStart_succ e.year
    unfold dayNumber at h
    apply year_unique (n := d.dayNumber)
    all_goals unfold dayNumber; omega
  have hday : d.dayOfYear = e.dayOfYear := by
    unfold dayNumber at h
    rw [hyear] at h
    omega
  have hmonth : d.month = e.month := by
    have hd := d.dayOfYear_lt_succ
    have he := e.dayOfYear_lt_succ
    apply month_unique (isLeap d.year) (n := d.dayOfYear) (Nat.le_add_right _ _) hd
    · rw [hday, hyear]
      exact Nat.le_add_right _ _
    · rw [hday, hyear]
      exact he
  apply Date.ext hyear hmonth
  have hd := d.day_pos
  have he := e.day_pos
  unfold dayOfYear at hday
  rw [hyear, hmonth] at hday
  omega

end Date

/-! ### Counting days -/

/-- `d` is day `n`, counted from 1970-01-01 one day after the other. -/
inductive IsDay : ℤ → Date → Prop where
  | epoch : IsDay 0 .epoch
  | next {n : ℤ} {d : Date} (h : IsDay n d) : IsDay (n + 1) d.next
  | prev {n : ℤ} {d : Date} (h : IsDay (n + 1) d.next) : IsDay n d

theorem IsDay.dayNumber_eq {n : ℤ} {d : Date} (h : IsDay n d) : d.dayNumber = n := by
  induction h with
  | epoch => decide
  | next _ ih => rw [Date.dayNumber_next, ih]
  | prev _ ih =>
    rw [Date.dayNumber_next] at ih
    omega

theorem exists_isDay (k : ℕ) : ∃ d, IsDay k d := by
  induction k with
  | zero => exact ⟨.epoch, .epoch⟩
  | succ k ih =>
    obtain ⟨d, hd⟩ := ih
    exact ⟨d.next, by exact_mod_cast hd.next⟩

theorem isDay_of_neg (k : ℕ) (d : Date) (h : d.dayNumber = -k) : IsDay (-k) d := by
  induction k generalizing d with
  | zero =>
    have hd : d = .epoch := Date.dayNumber_injective (h.trans (by decide))
    rw [hd]
    exact .epoch
  | succ k ih =>
    have hnext : d.next.dayNumber = -k := by
      rw [Date.dayNumber_next, h]
      omega
    have hd := ih d.next hnext
    have hn : -(k : ℤ) = -((k + 1 : ℕ) : ℤ) + 1 := by omega
    rw [hn] at hd
    exact hd.prev

theorem isDay_iff {n : ℤ} {d : Date} : IsDay n d ↔ d.dayNumber = n := by
  constructor
  · exact IsDay.dayNumber_eq
  · intro h
    by_cases hn : 0 ≤ n
    · obtain ⟨e, he⟩ := exists_isDay n.toNat
      rw [Int.toNat_of_nonneg hn] at he
      have hde : d = e := Date.dayNumber_injective (h.trans he.dayNumber_eq.symm)
      rw [hde]
      exact he
    · have hneg : n = -(n.natAbs : ℤ) := by omega
      rw [hneg]
      exact isDay_of_neg n.natAbs d (h.trans hneg)

end AwaitGlibc.Gregorian
