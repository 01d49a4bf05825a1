import AwaitGlibc.CheckedArray
import AwaitGlibc.Gregorian

/-!
# Broken-down time

`__offtime` of `time/offtime.c`: the `struct tm` of a time `t` at `offset`
seconds east of UTC. Times are 64-bit integers and every operation on them is
checked; division and remainder round toward zero, as those of C do. The fields
of `struct tm` are 32-bit integers, and a store to one of them keeps the low
bits.
-/
namespace AwaitGlibc.BrokenDown

inductive Fault where
  | overflow
  | outside
  | outOfFuel
deriving DecidableEq, Repr

@[ext]
structure Tm where
  sec : ℤ
  min : ℤ
  hour : ℤ
  mday : ℤ
  mon : ℤ
  year : ℤ
  wday : ℤ
  yday : ℤ
  isdst : ℤ
deriving DecidableEq, Repr, Inhabited

def int64 (x : ℤ) : Except Fault ℤ :=
  if -2 ^ 63 ≤ x ∧ x < 2 ^ 63 then .ok x else .error .overflow

def toInt (x : ℤ) : ℤ := x.bmod (2 ^ 32)

def secsPerHour : ℤ := 60 * 60

def secsPerDay : ℤ := secsPerHour * 24

def isleap (y : ℤ) : Bool := y.tmod 4 = 0 && (y.tmod 100 ≠ 0 || y.tmod 400 = 0)

/-- `__mon_yday`: how many days come before each month. -/
def monYday (leap : Bool) : List ℤ :=
  if leap then [0, 31, 60, 91, 121, 152, 182, 213, 244, 274, 305, 335, 366]
  else [0, 31, 59, 90, 120, 151, 181, 212, 243, 273, 304, 334, 365]

/-- `while (rem < 0)` -/
def raiseRem : ℕ → ℤ → ℤ → Except Fault (ℤ × ℤ)
  | 0, _, _ => .error .outOfFuel
  | fuel + 1, rem, days =>
    if rem < 0 then do
      let rem ← int64 (rem + secsPerDay)
      let days ← int64 (days - 1)
      raiseRem fuel rem days
    else .ok (rem, days)

/-- `while (rem >= SECS_PER_DAY)` -/
def lowerRem : ℕ → ℤ → ℤ → Except Fault (ℤ × ℤ)
  | 0, _, _ => .error .outOfFuel
  | fuel + 1, rem, days =>
    if secsPerDay ≤ rem then do
      let rem ← int64 (rem - secsPerDay)
      let days ← int64 (days + 1)
      lowerRem fuel rem days
    else .ok (rem, days)

/-- `DIV`: the quotient rounded down. -/
def div (a b : ℤ) : Except Fault ℤ := int64 (a.tdiv b - if a.tmod b < 0 then 1 else 0)

def leapsThruEndOf (y : ℤ) : Except Fault ℤ := do
  let a ← div y 4
  let b ← div y 100
  let c ← int64 (a - b)
  let d ← div y 400
  int64 (c + d)

def guessYear (days y : ℤ) : Except Fault ℤ := do
  let a ← int64 (y + days.tdiv 365)
  int64 (a - if days.tmod 365 < 0 then 1 else 0)

def adjustDays (days y yg : ℤ) : Except Fault ℤ := do
  let a ← int64 (yg - y)
  let b ← int64 (a * 365)
  let prevg ← int64 (yg - 1)
  let leapsg ← leapsThruEndOf prevg
  let c ← int64 (b + leapsg)
  let prev ← int64 (y - 1)
  let leaps ← leapsThruEndOf prev
  let d ← int64 (c - leaps)
  int64 (days - d)

def findYear : ℕ → ℤ → ℤ → Except Fault (ℤ × ℤ)
  | 0, _, _ => .error .outOfFuel
  | fuel + 1, days, y =>
    if days < 0 ∨ (if isleap y then 366 else 365) ≤ days then do
      let yg ← guessYear days y
      let days ← adjustDays days y yg
      findYear fuel days yg
    else .ok (days, y)

/-- `for (y = 11; days < (long int) ip[y]; --y)` -/
def findMonth (ip : List ℤ) (days : ℤ) : ℕ → Except Fault ℕ
  | 0 =>
    match ip[0]? with
    | none => .error .outside
    | some start => if days < start then .error .outside else .ok 0
  | m + 1 =>
    match ip[m + 1]? with
    | none => .error .outside
    | some start => if days < start then findMonth ip days m else .ok (m + 1)

/-- The part of `__offtime` after the year has been found. -/
def storeDate (days y : ℤ) (tp : Tm) : Except Fault (Bool × Tm) := do
  let since ← int64 (y - 1900)
  let tp := { tp with year := toInt since }
  if tp.year ≠ since then .ok (false, tp)
  else
    let ip := monYday (isleap y)
    let m ← findMonth ip days 11
    let day ← int64 (days - ip.getD m 0)
    let mday ← int64 (day + 1)
    .ok (true, { tp with yday := toInt days, mon := m, mday := toInt mday })

/-- `__offtime`; whether the year can be represented, and what `*tp` is
afterwards. -/
def offtime (fuel : ℕ) (t offset : ℤ) (tp : Tm) : Except Fault (Bool × Tm) := do
  let rem ← int64 (t.tmod secsPerDay + offset)
  let (rem, days) ← raiseRem fuel rem (t.tdiv secsPerDay)
  let (rem, days) ← lowerRem fuel rem days
  let tp := { tp with hour := toInt (rem.tdiv secsPerHour) }
  let rem := rem.tmod secsPerHour
  let tp := { tp with min := toInt (rem.tdiv 60), sec := toInt (rem.tmod 60) }
  let shifted ← int64 (4 + days)
  let wday := toInt (shifted.tmod 7)
  let tp := { tp with wday := if wday < 0 then wday + 7 else wday }
  let (days, y) ← findYear fuel days 1970
  storeDate days y tp

variable {x y n days : ℤ} {m : ℕ}

/-! ### Arithmetic -/

theorem int64_ok (h : -2 ^ 63 ≤ x ∧ x < 2 ^ 63) : int64 x = .ok x := if_pos h

theorem toInt_eq (h : -2 ^ 31 ≤ x ∧ x < 2 ^ 31) : toInt x = x := by
  unfold toInt
  rw [Int.bmod_def]
  split_ifs <;> omega

theorem toInt_eq_iff : toInt x = x ↔ -2 ^ 31 ≤ x ∧ x < 2 ^ 31 := by
  refine ⟨fun h => ?_, toInt_eq⟩
  unfold toInt at h
  rw [Int.bmod_def] at h
  split_ifs at h <;> omega

theorem isleap_eq (y : ℤ) : isleap y = Gregorian.isLeap y := by
  simp only [isleap, Gregorian.isLeap, ← Int.dvd_iff_tmod_eq_zero, ← Int.dvd_iff_emod_eq_zero,
    ne_eq]

theorem tdiv_sub_eq {a b : ℤ} (hb : 0 < b) :
    a.tdiv b - (if a.tmod b < 0 then 1 else 0) = a / b := by
  have hlt := Int.emod_lt_of_pos a hb
  have hnonneg := Int.emod_nonneg a hb.ne'
  rw [Int.tdiv_eq_ediv, Int.tmod_eq_emod, Int.sign_eq_one_of_pos hb]
  by_cases h : 0 ≤ a ∨ b ∣ a
  · rw [if_pos h, if_pos h, if_neg (by omega)]
    omega
  · rw [if_neg h, if_neg h, if_pos (by omega)]
    omega

theorem div_ok {a b : ℤ} (hb : 0 < b) (h : -2 ^ 63 ≤ a ∧ a < 2 ^ 63) :
    div a b = .ok (a / b) := by
  unfold div
  rw [tdiv_sub_eq hb]
  exact int64_ok ⟨(Int.le_ediv_iff_mul_le hb).mpr (by nlinarith),
    Int.ediv_lt_of_lt_mul hb (by nlinarith)⟩

theorem leapsThruEndOf_ok (h : -2 ^ 60 ≤ y ∧ y ≤ 2 ^ 60) :
    leapsThruEndOf y = .ok (Gregorian.leapsThru y) := by
  unfold leapsThruEndOf
  rw [div_ok (by decide) (by omega), div_ok (by decide) (by omega), div_ok (by decide) (by omega)]
  change (int64 (y / 4 - y / 100) >>= fun c => int64 (c + y / 400)) = _
  rw [int64_ok (by omega)]
  exact int64_ok (by omega)

/-! ### The time of the day -/

theorem raiseRem_ok (fuel : ℕ) (rem days : ℤ) (hfuel : 0 < fuel)
    (hmany : -rem + 86400 ≤ 86400 * fuel) (hrem : -2 ^ 63 ≤ rem ∧ rem < 2 ^ 63)
    (hsum : -2 ^ 64 ≤ rem + 86400 * days ∧ rem + 86400 * days ≤ 2 ^ 64) :
    ∃ rem' days', raiseRem fuel rem days = .ok (rem', days') ∧ 0 ≤ rem' ∧ rem' ≤ max rem 86400 ∧
      rem' + 86400 * days' = rem + 86400 * days := by
  induction fuel generalizing rem days with
  | zero => exact absurd hfuel (lt_irrefl 0)
  | succ fuel ih =>
    unfold raiseRem
    by_cases hneg : rem < 0
    · obtain ⟨rem', days', hrun, hpos, hle, heq⟩ := ih (rem + 86400) (days - 1)
        (by omega) (by omega) (by omega) (by omega)
      refine ⟨rem', days', ?_, hpos, by omega, by omega⟩
      rw [if_pos hneg, show secsPerDay = 86400 from rfl, int64_ok (by omega), ok_bind]
      rw [int64_ok (by omega)]
      exact hrun
    · rw [if_neg hneg]
      exact ⟨rem, days, rfl, by omega, le_max_left _ _, rfl⟩

theorem lowerRem_ok (fuel : ℕ) (rem days : ℤ) (hfuel : 0 < fuel) (hmany : rem < 86400 * fuel)
    (hrem : 0 ≤ rem ∧ rem < 2 ^ 63)
    (hsum : -2 ^ 64 ≤ rem + 86400 * days ∧ rem + 86400 * days ≤ 2 ^ 64) :
    ∃ rem' days', lowerRem fuel rem days = .ok (rem', days') ∧ 0 ≤ rem' ∧ rem' < 86400 ∧
      rem' + 86400 * days' = rem + 86400 * days := by
  induction fuel generalizing rem days with
  | zero => exact absurd hfuel (lt_irrefl 0)
  | succ fuel ih =>
    unfold lowerRem
    rw [show secsPerDay = 86400 from rfl]
    by_cases hbig : 86400 ≤ rem
    · obtain ⟨rem', days', hrun, hpos, hlt, heq⟩ := ih (rem - 86400) (days + 1)
        (by omega) (by omega) (by omega) (by omega)
      refine ⟨rem', days', ?_, hpos, hlt, by omega⟩
      rw [if_pos hbig, int64_ok (by omega), ok_bind, int64_ok (by omega)]
      exact hrun
    · rw [if_neg hbig]
      exact ⟨rem, days, rfl, by omega, by omega, rfl⟩

/-- Both loops together divide by the length of a day. -/
theorem splitDays_ok (fuel : ℕ) (rem days : ℤ) (hfuel : rem.natAbs + 3 ≤ fuel)
    (hrem : -2 ^ 63 ≤ rem ∧ rem < 2 ^ 63)
    (hsum : -2 ^ 64 ≤ rem + 86400 * days ∧ rem + 86400 * days ≤ 2 ^ 64) :
    ∃ r, raiseRem fuel rem days = .ok r ∧ lowerRem fuel r.1 r.2 =
      .ok ((rem + 86400 * days) % 86400, (rem + 86400 * days) / 86400) := by
  obtain ⟨r, d, hraise, hpos, hle, heq⟩ := raiseRem_ok fuel rem days (by omega) (by omega) hrem hsum
  obtain ⟨r', d', hlower, hpos', hlt, heq'⟩ := lowerRem_ok fuel r d
    (by omega) (by omega) (by omega) (by omega)
  refine ⟨(r, d), hraise, ?_⟩
  rw [hlower, ← heq, ← heq', Int.add_mul_emod_self_left, Int.emod_eq_of_lt hpos' hlt,
    Int.add_mul_ediv_left _ _ (by decide), Int.ediv_eq_zero_of_lt hpos' hlt, zero_add]

/-! ### The year -/

open Gregorian (yearStart yearLength leapsThru)

def InYear (days y : ℤ) : Prop := 0 ≤ days ∧ days < yearLength y

theorem loop_condition_iff (days y : ℤ) :
    (days < 0 ∨ (if isleap y then 366 else 365) ≤ days) ↔ ¬ InYear days y := by
  rw [isleap_eq]
  unfold InYear yearLength
  split_ifs <;> omega

/-- The years that 64 bits of seconds can reach. -/
theorem year_bounds (hn : |n| ≤ 2 ^ 48) (hdays : |days| ≤ 2 ^ 48) (h : yearStart y + days = n) :
    -2 ^ 50 ≤ y ∧ y ≤ 2 ^ 50 := by
  rw [abs_le] at hn hdays
  unfold yearStart leapsThru at h
  omega

theorem guessYear_ok (hdays : |days| ≤ 2 ^ 48) (hy : -2 ^ 50 ≤ y ∧ y ≤ 2 ^ 50) :
    guessYear days y = .ok (y + days / 365) := by
  rw [abs_le] at hdays
  have hdiv := tdiv_sub_eq (a := days) (b := 365) (by decide)
  unfold guessYear
  rw [int64_ok (by omega)]
  change int64 _ = _
  rw [add_sub_assoc, hdiv]
  exact int64_ok (by omega)

theorem adjustDays_ok {yg : ℤ} (hdays : |days| ≤ 2 ^ 48) (hy : -2 ^ 50 ≤ y ∧ y ≤ 2 ^ 50)
    (hyg : -2 ^ 51 ≤ yg ∧ yg ≤ 2 ^ 51) :
    adjustDays days y yg = .ok (days - (yearStart yg - yearStart y)) := by
  rw [abs_le] at hdays
  have hl : -2 ^ 51 ≤ leapsThru (y - 1) ∧ leapsThru (y - 1) ≤ 2 ^ 51 := by
    unfold leapsThru
    omega
  have hlg : -2 ^ 52 ≤ leapsThru (yg - 1) ∧ leapsThru (yg - 1) ≤ 2 ^ 52 := by
    unfold leapsThru
    omega
  unfold adjustDays
  simp only [int64_ok (x := yg - y) (by omega),
    int64_ok (x := (yg - y) * 365) (by omega),
    int64_ok (x := yg - 1) (by omega), int64_ok (x := y - 1) (by omega),
    leapsThruEndOf_ok (y := yg - 1) (by omega),
    leapsThruEndOf_ok (y := y - 1) (by omega),
    int64_ok (x := (yg - y) * 365 + leapsThru (yg - 1)) (by omega),
    int64_ok (x := (yg - y) * 365 + leapsThru (yg - 1) - leapsThru (y - 1)) (by omega),
    bind, Except.bind]
  rw [int64_ok (by omega)]
  congr 1
  unfold yearStart
  omega

/-- One correction of the year ends the search or brings the day closer. -/
theorem adjust_decreases (h : ¬ InYear days y) :
    InYear (days - (yearStart (y + days / 365) - yearStart y)) (y + days / 365) ∨
      (days - (yearStart (y + days / 365) - yearStart y)).natAbs < days.natAbs := by
  have hlen := Gregorian.yearLength_bounds y
  by_cases hneg : days < 0
  · have hle : y + days / 365 ≤ y := by omega
    have hsub := Gregorian.yearStart_sub_bounds hle
    by_cases hone : days / 365 = -1
    · -- The day is in the year before.
      have hsucc := Gregorian.yearStart_succ (y + days / 365)
      left
      unfold InYear
      rw [hone] at hsucc ⊢
      rw [neg_add_cancel_right] at hsucc
      have hlen' := Gregorian.yearLength_bounds (y + -1)
      omega
    · right
      omega
  · have hle : y ≤ y + days / 365 := by omega
    have hsub := Gregorian.yearStart_sub_bounds hle
    unfold InYear at h
    right
    omega

theorem findYear_ok (fuel : ℕ) (hn : |n| ≤ 2 ^ 48) (hdays : |days| ≤ 2 ^ 48)
    (hstart : yearStart y + days = n) (hfuel : 0 < fuel ∧ InYear days y ∨ days.natAbs + 2 ≤ fuel) :
    ∃ days' y', findYear fuel days y = .ok (days', y') ∧ InYear days' y' ∧
      yearStart y' + days' = n := by
  induction fuel generalizing days y with
  | zero => omega
  | succ fuel ih =>
    unfold findYear
    by_cases hin : InYear days y
    · rw [if_neg ((loop_condition_iff days y).not.mpr (not_not.mpr hin))]
      exact ⟨days, y, rfl, hin, hstart⟩
    · have hy := year_bounds hn hdays hstart
      have hdec := adjust_decreases hin
      have hf : days.natAbs + 2 ≤ fuel + 1 := hfuel.resolve_left fun hl => hin hl.2
      have hlen := Gregorian.yearLength_bounds (y + days / 365)
      rw [abs_le] at hdays
      have hdays' : |days - (yearStart (y + days / 365) - yearStart y)| ≤ 2 ^ 48 := by
        rw [abs_le]
        unfold InYear at hdec
        omega
      obtain ⟨d, z, hrun, hd, hz⟩ := ih hdays' (by omega)
        (hdec.imp (fun h => ⟨by omega, h⟩) fun h => by omega)
      refine ⟨d, z, ?_, hd, hz⟩
      rw [if_pos ((loop_condition_iff days y).mpr hin), guessYear_ok (abs_le.mpr hdays) hy, ok_bind]
      rw [adjustDays_ok (abs_le.mpr hdays) hy (by omega)]
      exact hrun

/-! ### The month -/

open Gregorian (daysBefore)

theorem monYday_getElem? {leap : Bool} {m : ℕ} (h : m ≤ 12) :
    (monYday leap)[m]? = some (daysBefore leap m : ℤ) := by
  revert leap m
  decide

theorem findMonth_ok (leap : Bool) (hm : m < 12) (hpos : 0 ≤ days)
    (hlt : days < daysBefore leap (m + 1)) :
    ∃ k, findMonth (monYday leap) days m = .ok k ∧ k < 12 ∧ (daysBefore leap k : ℤ) ≤ days ∧
      days < daysBefore leap (k + 1) := by
  induction m with
  | zero =>
    refine ⟨0, ?_, by decide, ?_, hlt⟩
    · unfold findMonth
      rw [monYday_getElem? (by decide)]
      exact if_neg (not_lt.mpr hpos)
    · exact hpos
  | succ m ih =>
    unfold findMonth
    rw [monYday_getElem? (by omega)]
    by_cases hbelow : days < daysBefore leap (m + 1)
    · obtain ⟨k, hrun, hk⟩ := ih (by omega) hbelow
      exact ⟨k, (if_pos hbelow).trans hrun, hk⟩
    · exact ⟨m + 1, if_neg hbelow, hm, not_lt.mp hbelow, hlt⟩

/-! ### What is stored -/

open Gregorian (Date IsDay)

/-- `tm` is the date and the time of the day `n` seconds after 1970-01-01
00:00:00; that day was a Thursday. -/
def IsTime (tm : Tm) (n : ℤ) : Prop :=
  ∃ d : Date, IsDay (n / 86400) d ∧ tm.year = d.year - 1900 ∧ tm.mon = d.month ∧
    tm.mday = d.day ∧ tm.yday = d.dayOfYear ∧ tm.wday = (4 + n / 86400) % 7 ∧
    tm.hour = n % 86400 / 3600 ∧ tm.min = n % 3600 / 60 ∧ tm.sec = n % 60

/-- The year of `n` seconds after 1970-01-01 00:00:00 can be stored in
`tm_year`. -/
def YearFits (n : ℤ) : Prop :=
  ∃ d : Date, IsDay (n / 86400) d ∧ -2 ^ 31 ≤ d.year - 1900 ∧ d.year - 1900 < 2 ^ 31

def TmYear (y : ℤ) : Prop := -2 ^ 31 ≤ y - 1900 ∧ y - 1900 < 2 ^ 31

theorem exists_date (hm : m < 12) (hle : (daysBefore (Gregorian.isLeap y) m : ℤ) ≤ days)
    (hlt : days < daysBefore (Gregorian.isLeap y) (m + 1)) :
    ∃ d : Date, d.year = y ∧ d.month = m ∧
      (d.day : ℤ) = days - daysBefore (Gregorian.isLeap y) m + 1 ∧ (d.dayOfYear : ℤ) = days := by
  rw [Gregorian.daysBefore_succ] at hlt
  refine ⟨⟨y, m, (days - daysBefore (Gregorian.isLeap y) m).toNat + 1, hm, Nat.succ_pos _, ?_⟩,
    rfl, rfl, ?_, ?_⟩
  · omega
  · dsimp only
    omega
  · simp only [Date.dayOfYear]
    omega

def Tm.withDate (tp : Tm) (d : Date) : Tm :=
  { tp with year := d.year - 1900, yday := d.dayOfYear, mon := d.month, mday := d.day }

theorem storeDate_ok (hn : |n| ≤ 2 ^ 48) (h : InYear days y) (hstart : yearStart y + days = n)
    (tp : Tm) :
    ∃ d : Date, IsDay n d ∧
      (TmYear d.year ∧ storeDate days y tp = .ok (true, tp.withDate d) ∨
        ¬ TmYear d.year ∧
          storeDate days y tp = .ok (false, { tp with year := toInt (d.year - 1900) })) := by
  have hlen := Gregorian.yearLength_bounds y
  have hyear := Gregorian.daysBefore_twelve y
  have hin := h
  unfold InYear at hin
  have hy := year_bounds hn (abs_le.mpr ⟨by omega, by omega⟩) hstart
  obtain ⟨m, hrun, hm, hle, hlt⟩ := findMonth_ok (Gregorian.isLeap y) (m := 11)
    (by decide) hin.1 (show days < (daysBefore _ 12 : ℕ) by omega)
  obtain ⟨d, rfl, rfl, hday, hdoy⟩ := exists_date hm hle hlt
  refine ⟨d, Gregorian.isDay_iff.mpr ?_, ?_⟩
  · rw [Date.dayNumber, hdoy]
    exact hstart
  unfold storeDate
  rw [int64_ok (by omega)]
  by_cases hfits : TmYear d.year
  · refine .inl ⟨hfits, ?_⟩
    change (if toInt (d.year - 1900) ≠ d.year - 1900 then _ else _) = _
    rw [if_neg (not_not.mpr (toInt_eq hfits)), isleap_eq, hrun, ok_bind]
    rw [List.getD_eq_getElem?_getD, monYday_getElem? (by omega), Option.getD_some,
      int64_ok (by omega), ok_bind]
    rw [← hday, int64_ok (by omega)]
    change Except.ok _ = _
    rw [toInt_eq hfits, toInt_eq (x := days) (by omega),
      toInt_eq (x := (d.day : ℤ)) (by omega), Tm.withDate, hdoy]
  · refine .inr ⟨hfits, ?_⟩
    exact if_pos fun he => hfits (toInt_eq_iff.mp he)

/-- The fields that do not depend on the year: the time of the day and the day of
the week. -/
def Tm.withTime (tp : Tm) (n : ℤ) : Tm :=
  { tp with
    hour := n % 86400 / 3600
    min := n % 3600 / 60
    sec := n % 60
    wday := (4 + n / 86400) % 7 }

/-- Enough iterations for all loops of `__offtime`. -/
def enough (t offset : ℤ) : ℕ := t.natAbs + offset.natAbs + 86410

theorem offtime_eq {fuel : ℕ} {t offset : ℤ} (ht : -2 ^ 63 ≤ t ∧ t < 2 ^ 63)
    (ho : |offset| ≤ 2 ^ 62) (hfuel : enough t offset ≤ fuel) (tp : Tm) :
    ∃ days y, InYear days y ∧ yearStart y + days = (t + offset) / 86400 ∧
      offtime fuel t offset tp = storeDate days y (tp.withTime (t + offset)) := by
  unfold enough at hfuel
  rw [abs_le] at ho
  have hmod : t.tmod 86400 + 86400 * t.tdiv 86400 = t := Int.tmod_add_mul_tdiv t 86400
  have hsmall : -86400 < t.tmod 86400 ∧ t.tmod 86400 < 86400 := by
    rw [Int.tmod_eq_emod]
    split_ifs <;> omega
  have hsum : t.tmod 86400 + offset + 86400 * t.tdiv 86400 = t + offset := by omega
  obtain ⟨r, hraise, hlower⟩ := splitDays_ok fuel (t.tmod 86400 + offset)
    (t.tdiv 86400) (by omega) (by omega) (by omega)
  rw [hsum] at hlower
  have hn : |(t + offset) / 86400| ≤ 2 ^ 48 := by
    rw [abs_le]
    omega
  obtain ⟨days, y, hfind, hin, hstart⟩ := findYear_ok fuel (y := 1970) hn hn
    (by rw [show yearStart 1970 = 0 from by decide, zero_add]) (by omega)
  refine ⟨days, y, hin, hstart, ?_⟩
  have hwday : (if toInt ((4 + (t + offset) / 86400).tmod 7) < 0 then
      toInt ((4 + (t + offset) / 86400).tmod 7) + 7 else
      toInt ((4 + (t + offset) / 86400).tmod 7)) = (4 + (t + offset) / 86400) % 7 := by
    rw [Int.tmod_eq_emod]
    split_ifs with h1 h2 h3
    all_goals rw [toInt_eq (by omega)] at *
    all_goals omega
  unfold offtime
  rw [show secsPerDay = 86400 from rfl, show secsPerHour = 3600 from rfl,
    int64_ok (by omega)]
  change (raiseRem fuel (t.tmod 86400 + offset) (t.tdiv 86400) >>= _) = _
  rw [hraise]
  change (lowerRem fuel r.1 r.2 >>= _) = _
  rw [hlower]
  change (int64 (4 + (t + offset) / 86400) >>= _) = _
  rw [int64_ok (by omega)]
  rw [hfind]
  change storeDate days y _ = storeDate days y _
  have hrem : 0 ≤ (t + offset) % 86400 := by omega
  have hrem' : 0 ≤ (t + offset) % 86400 % 3600 := by omega
  simp only [hwday, Tm.withTime, Int.tdiv_eq_ediv_of_nonneg hrem, Int.tmod_eq_emod_of_nonneg hrem,
    Int.tdiv_eq_ediv_of_nonneg hrem', Int.tmod_eq_emod_of_nonneg hrem']
  rw [toInt_eq (by omega), toInt_eq (by omega),
    toInt_eq (by omega)]
  congr 2 <;> omega

/-- `__offtime` returns with enough iterations. -/
def Returns (t offset : ℤ) (tp : Tm) (r : Bool) (tm : Tm) : Prop :=
  ∃ n, ∀ fuel, n ≤ fuel → offtime fuel t offset tp = .ok (r, tm)

theorem Returns.unique {t offset : ℤ} {tp tm tm' : Tm} {r r' : Bool}
    (h : Returns t offset tp r tm) (h' : Returns t offset tp r' tm') : r = r' ∧ tm = tm' := by
  obtain ⟨n, hn⟩ := h
  obtain ⟨n', hn'⟩ := h'
  have heq := (hn (max n n') (le_max_left _ _)).symm.trans (hn' (max n n') (le_max_right _ _))
  cases heq
  exact ⟨rfl, rfl⟩

/-- The outcome of `__offtime`, with the date that it stores or could not
store. -/
theorem offtime_runs {t offset : ℤ} (ht : -2 ^ 63 ≤ t ∧ t < 2 ^ 63) (ho : |offset| ≤ 2 ^ 62)
    (tp : Tm) :
    ∃ d : Date, IsDay ((t + offset) / 86400) d ∧
      (TmYear d.year ∧
          (∀ fuel, enough t offset ≤ fuel → offtime fuel t offset tp =
            .ok (true, (tp.withTime (t + offset)).withDate d)) ∨
        ¬ TmYear d.year ∧
          ∀ fuel, enough t offset ≤ fuel → offtime fuel t offset tp =
            .ok (false, { tp.withTime (t + offset) with year := toInt (d.year - 1900) })) := by
  obtain ⟨days, y, hin, hstart, -⟩ := offtime_eq ht ho le_rfl tp
  have hn : |(t + offset) / 86400| ≤ 2 ^ 48 := by
    rw [abs_le] at ho ⊢
    omega
  obtain ⟨d, hd, hstore⟩ := storeDate_ok hn hin hstart (tp.withTime (t + offset))
  -- Every run with enough iterations ends with the same date.
  have hrun : ∀ fuel, enough t offset ≤ fuel →
      offtime fuel t offset tp = storeDate days y (tp.withTime (t + offset)) := by
    intro fuel hfuel
    obtain ⟨days', y', hin', hstart', hrun⟩ := offtime_eq ht ho hfuel tp
    have hy : y' = y := by
      have hsucc := Gregorian.yearStart_succ y
      have hsucc' := Gregorian.yearStart_succ y'
      unfold InYear at hin hin'
      apply Gregorian.year_unique (n := (t + offset) / 86400)
      all_goals omega
    subst hy
    have hdays : days' = days := by omega
    rw [hrun, hdays]
  exact ⟨d, hd, hstore.imp (.imp_right fun hok fuel hfuel => (hrun fuel hfuel).trans hok)
    (.imp_right fun hok fuel hfuel => (hrun fuel hfuel).trans hok)⟩

theorem isTime_withDate (tp : Tm) {d : Date} (h : IsDay (n / 86400) d) :
    IsTime ((tp.withTime n).withDate d) n :=
  ⟨d, h, rfl, rfl, rfl, rfl, rfl, rfl, rfl, rfl⟩

structure Tm.InRange (tm : Tm) : Prop where
  sec : 0 ≤ tm.sec ∧ tm.sec ≤ 59
  min : 0 ≤ tm.min ∧ tm.min ≤ 59
  hour : 0 ≤ tm.hour ∧ tm.hour ≤ 23
  mday : 1 ≤ tm.mday ∧ tm.mday ≤ 31
  mon : 0 ≤ tm.mon ∧ tm.mon ≤ 11
  wday : 0 ≤ tm.wday ∧ tm.wday ≤ 6
  yday : 0 ≤ tm.yday ∧ tm.yday ≤ 365

theorem monthLength_le (leap : Bool) (m : ℕ) : Gregorian.monthLength leap m ≤ 31 := by
  by_cases h : m < 12
  · revert leap m
    decide
  · unfold Gregorian.monthLength
    rw [List.getD_eq_default _ _ (by simp only [List.length_cons, List.length_nil]; omega)]
    decide

theorem IsTime.inRange {tm : Tm} (h : IsTime tm n) : tm.InRange := by
  obtain ⟨d, -, -, hmon, hmday, hyday, hwday, hhour, hmin, hsec⟩ := h
  have hm := d.month_lt
  have hpos := d.day_pos
  have hle := d.day_le.trans (monthLength_le _ _)
  have hlt := d.dayOfYear_lt
  have hlen := Gregorian.yearLength_bounds d.year
  constructor <;> omega

/-! ### The order of times -/

def Tm.fields (tm : Tm) : List ℤ := [tm.year, tm.mon, tm.mday, tm.hour, tm.min, tm.sec]

theorem date_lt {d e : Date} (h : d.dayNumber < e.dayNumber) :
    d.year < e.year ∨ d.year = e.year ∧ (d.month < e.month ∨ d.month = e.month ∧ d.day < e.day) := by
  have he := e.dayOfYear_lt
  unfold Date.dayNumber at h
  rcases lt_trichotomy d.year e.year with hlt | heq | hgt
  · exact .inl hlt
  · refine .inr ⟨heq, ?_⟩
    have hday : d.dayOfYear < e.dayOfYear := by
      rw [heq] at h
      omega
    have hnot : ¬ e.month < d.month := by
      intro hm
      have hmono := Gregorian.daysBefore_mono (Gregorian.isLeap e.year) hm
      have hlast := e.dayOfYear_lt_succ
      have hfirst : daysBefore (Gregorian.isLeap e.year) d.month ≤ d.dayOfYear := by
        rw [← heq]
        exact Nat.le_add_right _ _
      exact absurd (hlast.trans_le (hmono.trans hfirst)) (not_lt.mpr hday.le)
    rcases lt_or_eq_of_le (not_lt.mp hnot) with hlt | hm
    · exact .inl hlt
    · refine .inr ⟨hm, ?_⟩
      unfold Date.dayOfYear at hday
      rw [heq, hm] at hday
      omega
  · have hmono : yearStart (e.year + 1) ≤ yearStart d.year :=
      Gregorian.yearStart_strictMono.monotone hgt
    have hsucc := Gregorian.yearStart_succ e.year
    omega

theorem IsTime.fields_lt {tm tm' : Tm} {n' : ℤ} (h : IsTime tm n) (h' : IsTime tm' n')
    (hlt : n < n') : tm.fields < tm'.fields := by
  obtain ⟨d, hd, hyear, hmon, hmday, -, -, hhour, hmin, hsec⟩ := h
  obtain ⟨e, he, hyear', hmon', hmday', -, -, hhour', hmin', hsec'⟩ := h'
  rw [Gregorian.isDay_iff] at hd he
  simp only [Tm.fields, List.cons_lt_cons_iff]
  by_cases hday : n / 86400 < n' / 86400
  · have hdate := date_lt (d := d) (e := e) (by omega)
    omega
  · have hde : d = e := Date.dayNumber_injective (by omega)
    subst hde
    omega

/-- For every 64-bit time `__offtime` returns, and no operation overflows. It
reports success exactly when the year of `t + offset` can be stored, and then
stores the date and the time of the day of `t + offset`; the stored times are
in the order of `t`. -/
theorem offtime_gregorian (offset : ℤ) (ho : |offset| ≤ 2 ^ 62) (tp : Tm) :
    (∀ t, -2 ^ 63 ≤ t → t < 2 ^ 63 → ∃ r tm, Returns t offset tp r tm ∧
      (r = true ↔ YearFits (t + offset)) ∧
      (r = true → IsTime tm (t + offset) ∧ tm.InRange ∧ tm.isdst = tp.isdst)) ∧
    ∀ t t' tm tm', -2 ^ 63 ≤ t → t < t' → t' < 2 ^ 63 → Returns t offset tp true tm →
      Returns t' offset tp true tm' → tm.fields < tm'.fields := by
  have stored : ∀ t, -2 ^ 63 ≤ t → t < 2 ^ 63 → ∃ r tm, Returns t offset tp r tm ∧
      (r = true ↔ YearFits (t + offset)) ∧
      (r = true → IsTime tm (t + offset) ∧ tm.InRange ∧ tm.isdst = tp.isdst) := by
    intro t ht ht'
    obtain ⟨d, hd, hcases⟩ := offtime_runs ⟨ht, ht'⟩ ho tp
    cases hcases with
    | inl hfits =>
      have htime := isTime_withDate tp hd
      exact ⟨true, _, ⟨_, hfits.2⟩, ⟨fun _ => ⟨d, hd, hfits.1⟩, fun _ => rfl⟩,
        fun _ => ⟨htime, htime.inRange, rfl⟩⟩
    | inr hfits =>
      refine ⟨false, _, ⟨_, hfits.2⟩, ⟨fun h => absurd h (by decide), ?_⟩,
        fun h => absurd h (by decide)⟩
      rintro ⟨e, he, hfit⟩
      have hde : d = e :=
        Date.dayNumber_injective (hd.dayNumber_eq.trans he.dayNumber_eq.symm)
      exact absurd (hde ▸ hfit) hfits.1
  refine ⟨stored, ?_⟩
  intro t t' tm tm' ht hlt ht' hrun hrun'
  obtain ⟨r, tm₁, hret, -, htime⟩ := stored t ht (hlt.trans ht')
  obtain ⟨r', tm₂, hret', -, htime'⟩ := stored t' (ht.trans hlt.le) ht'
  obtain ⟨rfl, rfl⟩ := hret.unique hrun
  obtain ⟨rfl, rfl⟩ := hret'.unique hrun'
  exact (htime rfl).1.fields_lt (htime' rfl).1 (by omega)

/-- One second before 1970 at UTC. -/
theorem offtime_gregorian_before_epoch :
    |(0 : ℤ)| ≤ 2 ^ 62 ∧ offtime 4 (-1) 0 default = .ok (true, ⟨59, 59, 23, 31, 11, 69, 3, 364, 0⟩) ∧
      ∃ r tm, Returns (-1) 0 default r tm ∧ (r = true ↔ YearFits (-1 + 0)) ∧
        (r = true → IsTime tm (-1 + 0) ∧ tm.InRange ∧ tm.isdst = 0) :=
  ⟨by decide, by decide, (offtime_gregorian 0 (by decide) default).1 (-1) (by decide) (by decide)⟩

end AwaitGlibc.BrokenDown
