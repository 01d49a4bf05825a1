import AwaitGlibc.CheckedArray
import AwaitGlibc.Mktime

/-!
# `timegm` is exact

The difference of two broken-down times is the difference of the seconds they
denote, so that one correction of any guess gives the requested time exactly.
A guess outside the range of `gmtime` is first moved to the nearest time inside,
which the binary search finds. A requested time outside the range is never
matched, and the probes run out.
-/
namespace AwaitGlibc.BrokenDown
open Gregorian (yearStart yearLength leapsThru daysBefore Date IsDay)

/-! ### Differences -/

theorem int32_ok {x : ℤ} (h : -2 ^ 31 ≤ x ∧ x < 2 ^ 31) : int32 x = .ok x := if_pos h

theorem toLong_eq {x : ℤ} (h : -2 ^ 63 ≤ x ∧ x < 2 ^ 63) : toLong x = x := by
  unfold toLong
  rw [Int.bmod_def]
  split_ifs <;> omega

theorem leapyear_eq (year : ℤ) : leapyear year = Gregorian.isLeap (year + 1900) := by
  have h100 : year.tmod 100 = 0 ↔ year % 100 = 0 := by
    rw [← Int.dvd_iff_tmod_eq_zero, ← Int.dvd_iff_emod_eq_zero]
  rw [Bool.eq_iff_iff, Gregorian.isLeap_iff]
  simp only [leapyear, Bool.and_eq_true, Bool.or_eq_true, decide_eq_true_eq, ne_eq, h100]
  by_cases hc : year % 100 = 0
  · have hdiv : year.tdiv 100 = year / 100 := by
      rw [Int.tdiv_eq_ediv, if_pos (.inr (Int.dvd_of_emod_eq_zero hc)), add_zero]
    omega
  · omega

theorem fourths_eq {year : ℤ} (h : |year| ≤ 2 ^ 31 + 2 ^ 28) : fourths year = (year + 1899) / 4 := by
  rw [abs_le] at h
  unfold fourths shr
  have hval : year / 2 ^ 2 + 1900 / 2 ^ 2 - (if year % 4 = 0 then 1 else 0) = (year + 1899) / 4 := by
    split_ifs <;> omega
  rw [hval]
  exact toInt_eq (by omega)

theorem hundredths_ok {n : ℤ} (h : -2 ^ 30 - 2 ^ 10 ≤ n ∧ n ≤ 2 ^ 30 + 2 ^ 10) :
    hundredths n = .ok (n / 25) := by
  unfold hundredths
  by_cases hneg : n < 0
  · simp only [if_pos hneg]
    rw [int32_ok (by omega)]
    change int32 ((n + 1).tdiv 25 - 1) = _
    have hval : (n + 1).tdiv 25 - 1 = n / 25 := by
      rw [Int.tdiv_eq_ediv, Int.sign_eq_one_of_pos (by decide)]
      split_ifs <;> omega
    rw [hval]
    exact int32_ok (by omega)
  · simp only [if_neg hneg, add_zero, sub_zero]
    rw [int32_ok (by omega)]
    change int32 (n.tdiv 25) = _
    rw [Int.tdiv_eq_ediv_of_nonneg (by omega)]
    exact int32_ok (by omega)

theorem interveningLeapDays_ok {y1 y0 : ℤ} (h1 : |y1| ≤ 2 ^ 31 + 2 ^ 28) (h0 : |y0| ≤ 2 ^ 31 + 2 ^ 28) :
    interveningLeapDays y1 y0 = .ok (leapsThru (y1 + 1899) - leapsThru (y0 + 1899)) := by
  unfold interveningLeapDays
  simp only [fourths_eq h1, fourths_eq h0]
  rw [abs_le] at h1 h0
  simp only [hundredths_ok (n := (y1 + 1899) / 4) (by omega),
    hundredths_ok (n := (y0 + 1899) / 4) (by omega), shr,
    int32_ok (x := (y1 + 1899) / 4 - (y0 + 1899) / 4) (by omega),
    int32_ok (x := (y1 + 1899) / 4 / 25 - (y0 + 1899) / 4 / 25) (by omega),
    int32_ok (x := (y1 + 1899) / 4 / 25 / 2 ^ 2 - (y0 + 1899) / 4 / 25 / 2 ^ 2)
      (by omega),
    int32_ok (x := (y1 + 1899) / 4 - (y0 + 1899) / 4 -
      ((y1 + 1899) / 4 / 25 - (y0 + 1899) / 4 / 25)) (by omega), bind, Except.bind]
  rw [int32_ok (by omega)]
  congr 1
  unfold leapsThru
  omega

theorem weigh_ok {factor a b1 b0 : ℤ} (h : -2 ^ 62 ≤ factor * a ∧ factor * a ≤ 2 ^ 62)
    (h1 : -2 ^ 33 ≤ b1 ∧ b1 ≤ 2 ^ 33) (h0 : -2 ^ 33 ≤ b0 ∧ b0 ≤ 2 ^ 33) :
    weigh factor a b1 b0 = .ok (factor * a + b1 - b0) := by
  unfold weigh
  rw [int64_ok (by omega), ok_bind, int64_ok (by omega)]
  exact int64_ok (by omega)

/-- The seconds a time denotes: every field counts with its weight. -/
def Ydhms.seconds (t : Ydhms) : ℤ :=
  86400 * (yearStart (t.year + 1900) + t.yday) + 3600 * t.hour + 60 * t.min + t.sec

structure Ydhms.Bounded (t : Ydhms) : Prop where
  year : |t.year| ≤ 2 ^ 31 + 2 ^ 28
  yday : |t.yday| ≤ 2 ^ 32
  hour : |t.hour| ≤ 2 ^ 32
  min : |t.min| ≤ 2 ^ 32
  sec : |t.sec| ≤ 2 ^ 32

theorem yearStart_le {y : ℤ} (h : |y| ≤ 2 ^ 31 + 2 ^ 28) : |yearStart (y + 1900)| ≤ 2 ^ 41 := by
  rw [abs_le] at h ⊢
  unfold yearStart leapsThru
  omega

theorem Ydhms.Bounded.seconds {t : Ydhms} (h : t.Bounded) : |t.seconds| ≤ 2 ^ 59 := by
  obtain ⟨hyear, hyday, hhour, hmin, hsec⟩ := h
  have hstart := yearStart_le hyear
  unfold Ydhms.seconds
  rw [abs_le] at *
  omega

theorem ydhmsDiff_ok {t1 t0 : Ydhms} (h1 : t1.Bounded) (h0 : t0.Bounded) :
    ydhmsDiff t1 t0 = .ok (t1.seconds - t0.seconds) := by
  have hs1 := yearStart_le h1.year
  have hs0 := yearStart_le h0.year
  have hleaps := interveningLeapDays_ok h1.year h0.year
  have hdiff : 365 * (t1.year - t0.year) + (leapsThru (t1.year + 1899) - leapsThru (t0.year + 1899)) =
      yearStart (t1.year + 1900) - yearStart (t0.year + 1900) := by
    have harg (y : ℤ) : y + 1900 - 1 = y + 1899 := by omega
    rw [yearStart, yearStart, harg, harg]
    ring
  have ⟨hy1, hd1, hh1, hm1, hc1⟩ := h1
  have ⟨hy0, hd0, hh0, hm0, hc0⟩ := h0
  rw [abs_le] at hs1 hs0 hy1 hd1 hh1 hm1 hc1 hy0 hd0 hh0 hm0 hc0
  unfold ydhmsDiff
  rw [hleaps, ok_bind, int64_ok (by omega), ok_bind]
  rw [weigh_ok (by omega) (by omega) (by omega), ok_bind]
  rw [show 365 * (t1.year - t0.year) + t1.yday - t0.yday +
      (leapsThru (t1.year + 1899) - leapsThru (t0.year + 1899)) =
      yearStart (t1.year + 1900) - yearStart (t0.year + 1900) + t1.yday - t0.yday by omega,
    int64_ok (by omega), ok_bind]
  rw [weigh_ok (by omega) (by omega) (by omega), ok_bind, weigh_ok (by omega) (by omega) (by omega)]
  change weigh 60 _ t1.sec t0.sec = _
  rw [weigh_ok (by omega) (by omega) (by omega)]
  congr 1
  unfold Ydhms.seconds
  ring

/-! ### Inverting a conversion -/

/-- A conversion that counts seconds: on an interval around zero it gives fields
that denote the time converted, without daylight saving, and it overflows
elsewhere. -/
structure Clock (convert : Convert) (time : ℤ → Tm) (lo hi : ℤ) : Prop where
  lo_le : lo ≤ -1
  le_hi : 1 < hi
  bounds : -2 ^ 61 ≤ lo ∧ hi ≤ 2 ^ 61
  inside : ∀ t, lo ≤ t → t < hi → convert t = .ok (.ok (time t))
  outside : ∀ t, |t| ≤ 2 ^ 62 → ¬ (lo ≤ t ∧ t < hi) → convert t = .ok .overflow
  isdst : ∀ t, lo ≤ t → t < hi → (time t).isdst = 0
  sec : ∀ t, lo ≤ t → t < hi → (time t).sec = t % 60
  diff : ∀ want : Ydhms, want.Bounded → ∀ t, lo ≤ t → t < hi →
    tmDiff want (time t) = .ok (want.seconds - t)

section Clock
variable {convert : Convert} {time : ℤ → Tm} {lo hi : ℤ} {want : Ydhms}

theorem longIntAvg_eq (a b : ℤ) : longIntAvg a b = (a + b + 1) / 2 := by
  unfold longIntAvg shr
  split_ifs <;> omega

theorem not_oscillating {t t1 t2 dst2 : ℤ} {tm : Tm} (h : tm.isdst = 0) :
    oscillating 0 dst2 t t1 t2 tm = false := by
  simp [oscillating, h]

variable (hc : Clock convert time lo hi)
include hc

/-- The search ends at a time in range that has been converted. -/
theorem narrow_ok (fuel : ℕ) (ok bad : ℤ) (oktm : Option Tm)
    (hok : lo ≤ ok ∧ ok < hi) (hbad : ¬ (lo ≤ bad ∧ bad < hi)) (hb : |bad| ≤ 2 ^ 62)
    (hoktm : oktm = some (time ok) ∨ ok = 0) (hfuel : (bad - ok).natAbs ≤ fuel) :
    ∃ t, narrow convert fuel ok bad oktm = .ok (some (t, time t)) ∧ lo ≤ t ∧ t < hi := by
  induction fuel generalizing ok bad oktm with
  | zero => omega
  | succ fuel ih =>
    have hlo := hc.lo_le
    have hhi := hc.le_hi
    unfold narrow
    simp only [longIntAvg_eq]
    by_cases hend : (ok + bad + 1) / 2 = ok ∨ (ok + bad + 1) / 2 = bad
    · -- `ok` and `bad` are neighbours, so `ok` is not the initial zero.
      rw [if_pos hend]
      refine ⟨ok, ?_, hok⟩
      rw [hoktm.resolve_right (by omega)]
      rfl
    · rw [if_neg hend]
      rw [abs_le] at hb
      by_cases hmid : lo ≤ (ok + bad + 1) / 2 ∧ (ok + bad + 1) / 2 < hi
      · rw [hc.inside _ hmid.1 hmid.2]
        exact ih _ _ _ hmid hbad (abs_le.mpr hb) (.inl rfl) (by omega)
      · have hmid' : |(ok + bad + 1) / 2| ≤ 2 ^ 62 := abs_le.mpr (by omega)
        rw [hc.outside _ hmid' hmid]
        exact ih _ _ _ hok hmid hmid' hoktm (by omega)

variable {t : ℤ}

theorem rangedConvert_ok {fuel : ℕ} (ht : |t| ≤ 2 ^ 62) (hfuel : t.natAbs ≤ fuel) :
    ∃ b, rangedConvert fuel convert t = .ok (some (b, time b)) ∧ (lo ≤ b ∧ b < hi) ∧
      (lo ≤ t ∧ t < hi → b = t) := by
  unfold rangedConvert
  by_cases hin : lo ≤ t ∧ t < hi
  · rw [hc.inside t hin.1 hin.2]
    exact ⟨t, rfl, hin, fun _ => rfl⟩
  · have hlo := hc.lo_le
    have hhi := hc.le_hi
    obtain ⟨b, hrun, hb⟩ := narrow_ok hc fuel 0 t none ⟨by omega, by omega⟩ hin ht
      (.inr rfl) (by rw [sub_zero]; exact hfuel)
    rw [hc.outside t ht hin]
    exact ⟨b, hrun, hb, fun h => absurd h hin⟩

/-- One probe that does not match gives the requested time as the next guess. -/
theorem probe_succ (hw : want.Bounded) {fuel : ℕ} (remaining : ℕ) {t : ℤ} (t1 t2 dst2 : ℤ)
    (ht : |t| ≤ 2 ^ 62) (hfuel : 2 ^ 62 ≤ fuel) :
    ∃ b, (lo ≤ b ∧ b < hi) ∧ (lo ≤ t ∧ t < hi → b = t) ∧
      probe fuel convert want 0 (remaining + 1) t t1 t2 dst2 =
        if want.seconds = b then .ok (.found b (time b))
        else if remaining = 0 then .ok .failed
        else probe fuel convert want 0 remaining want.seconds t2 b 0 := by
  have hmany : t.natAbs ≤ fuel := by
    rw [abs_le] at ht
    omega
  obtain ⟨b, hrun, hb, hsame⟩ := rangedConvert_ok hc ht hmany
  refine ⟨b, hb, hsame, ?_⟩
  have hs := hw.seconds
  rw [abs_le] at hs
  have hdst := hc.isdst b hb.1 hb.2
  rw [probe, hrun, ok_bind]
  dsimp only
  rw [hc.diff want hw b hb.1 hb.2]
  change (if want.seconds - b = 0 then _ else _) = _
  by_cases hmatch : want.seconds = b
  · rw [if_pos hmatch, if_pos (by omega)]
  · rw [if_neg hmatch, if_neg (by omega), not_oscillating hdst]
    by_cases hlast : remaining = 0
    · simp only [hlast, if_true, Bool.false_eq_true, if_false]
    · simp only [hlast, Bool.false_eq_true, if_false, hdst, ne_eq, not_true_eq_false]
      rw [add_sub_cancel, int64_ok (by omega)]
      rfl

section
variable {fuel remaining : ℕ} (hw : want.Bounded) (ht : |t| ≤ 2 ^ 62) (hfuel : 2 ^ 62 ≤ fuel)
include hw ht hfuel

theorem probe_found {t1 t2 dst2 : ℤ} (hin : lo ≤ want.seconds ∧ want.seconds < hi) :
    probe fuel convert want 0 (remaining + 2) t t1 t2 dst2 =
      .ok (.found want.seconds (time want.seconds)) := by
  have hs : |want.seconds| ≤ 2 ^ 62 := hw.seconds.trans (by decide)
  obtain ⟨b, hb, -, hrun⟩ := probe_succ hc hw (remaining + 1) t1 t2 dst2 ht hfuel
  obtain ⟨b', hb', hsame, hrun'⟩ := probe_succ hc hw remaining t2 b 0 hs hfuel
  rw [hrun]
  by_cases hmatch : want.seconds = b
  · rw [if_pos hmatch, hmatch]
  · rw [if_neg hmatch, if_neg (Nat.succ_ne_zero _), hrun', hsame hin, if_pos rfl]

theorem probe_failed {t1 t2 dst2 : ℤ} (hout : ¬ (lo ≤ want.seconds ∧ want.seconds < hi)) :
    probe fuel convert want 0 remaining t t1 t2 dst2 = .ok .failed := by
  induction remaining generalizing t t1 t2 dst2 with
  | zero => rfl
  | succ remaining ih =>
    obtain ⟨b, hb, -, hrun⟩ := probe_succ hc hw remaining t1 t2 dst2 ht hfuel
    have hne : want.seconds ≠ b := fun h => hout (h ▸ hb)
    rw [hrun, if_neg hne]
    by_cases hlast : remaining = 0
    · rw [if_pos hlast]
    · rw [if_neg hlast]
      exact ih (hw.seconds.trans (by decide))

end

/-- From the match on: the seconds that were clamped away are added. -/
theorem offsetFound_ok {secRequested sec : ℤ} (t0 neg : ℤ)
    (ht : lo ≤ t ∧ t < hi) (hsec : sec = t % 60) (hreq : |secRequested| ≤ 2 ^ 32) :
    ∃ offset, offsetFound convert secRequested sec t0 neg t (time t) =
      .ok ⟨if lo ≤ t - sec + secRequested ∧ t - sec + secRequested < hi then
        some (t - sec + secRequested, time (t - sec + secRequested)) else none, offset⟩ := by
  have hrange := hc.bounds
  have htm := hc.sec t ht.1 ht.2
  rw [abs_le] at hreq
  refine ⟨toLong (toLong (t - t0) - neg), ?_⟩
  unfold offsetFound
  rw [htm, ← hsec]
  by_cases hsame : secRequested = sec
  · rw [if_neg (not_not.mpr hsame), hsame, sub_add_cancel, if_pos ht]
  · have hno : ¬ (sec = 0 ∧ sec = 60) := by omega
    rw [if_pos hsame, if_neg hno, zero_sub, int64_ok (by omega), ok_bind, int64_ok (by omega)]
    have hadd : t + (-sec + secRequested) = t - sec + secRequested := by ring
    change (if toLong (t + (-sec + secRequested)) ≠ _ then _ else _) = _
    rw [hadd, toLong_eq (by omega), if_neg (not_not.mpr rfl)]
    by_cases hin : lo ≤ t - sec + secRequested ∧ t - sec + secRequested < hi
    · rw [hc.inside _ hin.1 hin.2, if_pos hin]
      rfl
    · rw [hc.outside _ (abs_le.mpr (by omega)) hin, if_neg hin]
      rfl

end Clock

/-! ### The request -/

structure Tm.Ints (tm : Tm) : Prop where
  sec : -2 ^ 31 ≤ tm.sec ∧ tm.sec < 2 ^ 31
  min : -2 ^ 31 ≤ tm.min ∧ tm.min < 2 ^ 31
  hour : -2 ^ 31 ≤ tm.hour ∧ tm.hour < 2 ^ 31
  mday : -2 ^ 31 ≤ tm.mday ∧ tm.mday < 2 ^ 31
  mon : -2 ^ 31 ≤ tm.mon ∧ tm.mon < 2 ^ 31
  year : -2 ^ 31 ≤ tm.year ∧ tm.year < 2 ^ 31

def Tm.carried (tm : Tm) : ℤ := tm.year + 1900 + tm.mon / 12

/-- The seconds the fields denote: months are carried into the year, and every
other field counts with its weight. -/
def Tm.seconds (tm : Tm) : ℤ :=
  86400 * (yearStart tm.carried + daysBefore (Gregorian.isLeap tm.carried) (tm.mon % 12).toNat +
    (tm.mday - 1)) + 3600 * tm.hour + 60 * tm.min + tm.sec

/-- The same date and minute with the seconds clamped to the minute. -/
def Tm.clamped (tm : Tm) : Tm :=
  { tm with sec := if tm.sec < 0 then 0 else if 59 < tm.sec then 59 else tm.sec }

variable {tm : Tm} {t : ℤ}

theorem requested_ok (h : tm.Ints) :
    ∃ want, requested tm = .ok want ∧ want.Bounded ∧ want.seconds = tm.clamped.seconds ∧
      want.sec = tm.clamped.sec := by
  obtain ⟨hsec, hmin, hhour, hmday, hmon, hyear⟩ := h
  have hcarry : tm.mon.tdiv 12 - (if tm.mon.tmod 12 < 0 then 1 else 0) = tm.mon / 12 :=
    tdiv_sub_eq (by decide)
  have hindex : tm.mon.tmod 12 + 12 * (if tm.mon.tmod 12 < 0 then 1 else 0) = tm.mon % 12 := by
    rw [Int.tmod_eq_emod]
    split_ifs <;> omega
  have hyear' : tm.year + tm.mon / 12 + 1900 = tm.carried := by
    unfold Tm.carried
    ring
  have hm : (tm.mon % 12).toNat ≤ 12 := by omega
  have hbefore : daysBefore (Gregorian.isLeap tm.carried) (tm.mon % 12).toNat ≤ 366 := by
    have hmono := Gregorian.daysBefore_mono (Gregorian.isLeap tm.carried) hm
    have htwelve := Gregorian.daysBefore_twelve tm.carried
    have hlen := Gregorian.yearLength_bounds tm.carried
    omega
  have hclamp : 0 ≤ tm.clamped.sec ∧ tm.clamped.sec ≤ 59 := by
    simp only [Tm.clamped]
    split_ifs <;> omega
  refine ⟨⟨tm.year + tm.mon / 12,
    daysBefore (Gregorian.isLeap tm.carried) (tm.mon % 12).toNat - 1 + tm.mday, tm.hour, tm.min,
    tm.clamped.sec⟩, ?_, ?_, ?_, rfl⟩
  · unfold requested
    simp only [hcarry, hindex]
    rw [int32_ok (by omega)]
    change (int64 (tm.year + tm.mon / 12) >>= _) = _
    rw [int64_ok (by omega)]
    dsimp only [Bind.bind, Except.bind]
    rw [leapyear_eq, hyear', monYday_getElem? hm]
    change (int32 ((daysBefore (Gregorian.isLeap tm.carried) (tm.mon % 12).toNat : ℤ) - 1) >>= _) = _
    rw [int32_ok (by omega)]
    change (int64 ((daysBefore (Gregorian.isLeap tm.carried) (tm.mon % 12).toNat : ℤ) - 1 + tm.mday)
      >>= _) = _
    rw [int64_ok (by omega)]
    rfl
  · constructor <;> rw [abs_le] <;> constructor <;> dsimp only <;> omega
  · simp only [Ydhms.seconds, Tm.seconds, hyear']
    simp only [Tm.clamped, Tm.carried]
    ring

theorem clamped_seconds (tm : Tm) :
    tm.clamped.seconds - tm.clamped.sec + tm.sec = tm.seconds := by
  simp only [Tm.seconds, Tm.clamped, Tm.carried]
  ring

theorem clamped_sec_eq (tm : Tm) : tm.clamped.sec = tm.clamped.seconds % 60 := by
  have hclamp : 0 ≤ tm.clamped.sec ∧ tm.clamped.sec ≤ 59 := by
    simp only [Tm.clamped]
    split_ifs <;> omega
  unfold Tm.seconds
  omega

/-! ### `gmtime` -/

def firstSecond (year : ℤ) : ℤ := 86400 * yearStart (year + 1900)

theorem year_le_iff {d : Date} {n y : ℤ} (h : IsDay (n / 86400) d) :
    y ≤ d.year - 1900 ↔ firstSecond y ≤ n := by
  have hnum := h.dayNumber_eq
  have hlt := d.dayOfYear_lt
  have hsucc := Gregorian.yearStart_succ d.year
  unfold Date.dayNumber at hnum
  unfold firstSecond
  constructor
  · intro hy
    have hmono : yearStart (y + 1900) ≤ yearStart d.year :=
      Gregorian.yearStart_strictMono.monotone (by omega)
    omega
  · intro hn
    have hstart : yearStart (y + 1900) < yearStart (d.year + 1) := by omega
    have hy := Gregorian.yearStart_strictMono.lt_iff_lt.mp hstart
    omega

theorem firstSecond_lo : firstSecond (-2 ^ 31) = -67768040609740800 := by decide

theorem firstSecond_hi : firstSecond (2 ^ 31) = 67768036191676800 := by decide

def InYears (t : ℤ) : Prop := firstSecond (-2 ^ 31) ≤ t ∧ t < firstSecond (2 ^ 31)

theorem tmYear_iff {d : Date} (h : IsDay (t / 86400) d) : TmYear d.year ↔ InYears t := by
  rw [TmYear, year_le_iff h, ← not_le, year_le_iff h, not_le, InYears]

theorem InYears.small (h : InYears t) : |t| ≤ 2 ^ 62 := by
  rw [InYears, firstSecond_lo, firstSecond_hi] at h
  exact abs_le.mpr (by omega)

theorem gmtime_runs (ht : |t| ≤ 2 ^ 62) :
    ∃ d : Date, IsDay (t / 86400) d ∧
      (InYears t → ∀ fuel, 2 ^ 64 ≤ fuel →
        gmtime fuel t = .ok (.ok ((default : Tm).withTime t |>.withDate d))) ∧
      (¬ InYears t → ∀ fuel, 2 ^ 64 ≤ fuel → gmtime fuel t = .ok .overflow) := by
  rw [abs_le] at ht
  have henough : enough t 0 ≤ 2 ^ 64 := by
    unfold enough
    omega
  obtain ⟨d, hd, hcases⟩ := offtime_runs (t := t) ⟨by omega, by omega⟩
    (show |(0 : ℤ)| ≤ 2 ^ 62 by decide) default
  rw [add_zero] at hd hcases
  rw [tmYear_iff hd] at hcases
  refine ⟨d, hd, fun hin fuel hfuel => ?_, fun hout fuel hfuel => ?_⟩
  · rw [gmtime, (hcases.resolve_right fun h => h.1 hin).2 fuel (henough.trans hfuel)]
    rfl
  · rw [gmtime, (hcases.resolve_left fun h => hout h.1).2 fuel (henough.trans hfuel)]
    rfl

theorem yearFits_iff : YearFits t ↔ InYears t := by
  constructor
  · rintro ⟨d, hd, hfits⟩
    exact (tmYear_iff hd).mp hfits
  · intro h
    obtain ⟨d, hd, -⟩ := gmtime_runs h.small
    exact ⟨d, hd, (tmYear_iff hd).mpr h⟩

theorem IsTime.diff (h : IsTime tm t) (hyear : |tm.year| ≤ 2 ^ 31) {want : Ydhms}
    (hw : want.Bounded) : tmDiff want tm = .ok (want.seconds - t) := by
  have hrange := h.inRange
  obtain ⟨hsec, hmin, hhour, -, -, -, hyday⟩ := hrange
  have hbounded : (⟨tm.year, tm.yday, tm.hour, tm.min, tm.sec⟩ : Ydhms).Bounded := by
    rw [abs_le] at hyear
    constructor <;> rw [abs_le] <;> constructor <;> dsimp only <;> omega
  unfold tmDiff
  rw [ydhmsDiff_ok hw hbounded]
  congr 2
  obtain ⟨d, hd, hy, -, -, hdoy, -, hh, hm, hs⟩ := h
  have hnum := hd.dayNumber_eq
  unfold Date.dayNumber at hnum
  simp only [Ydhms.seconds]
  rw [hy, sub_add_cancel]
  omega

theorem gmtime_clock :
    ∃ time : ℤ → Tm, (∀ t, firstSecond (-2 ^ 31) ≤ t → t < firstSecond (2 ^ 31) →
      IsTime (time t) t ∧ (time t).isdst = 0) ∧
      ∀ fuel, 2 ^ 64 ≤ fuel →
        Clock (gmtime fuel) time (firstSecond (-2 ^ 31)) (firstSecond (2 ^ 31)) := by
  have hlo := firstSecond_lo
  have hhi := firstSecond_hi
  have hall : ∀ t, ∃ tm : Tm, |t| ≤ 2 ^ 62 →
      (InYears t → IsTime tm t ∧ tm.isdst = 0 ∧ |tm.year| ≤ 2 ^ 31 ∧
        ∀ fuel, 2 ^ 64 ≤ fuel → gmtime fuel t = .ok (.ok tm)) ∧
      (¬ InYears t → ∀ fuel, 2 ^ 64 ≤ fuel → gmtime fuel t = .ok .overflow) := by
    intro t
    by_cases ht : |t| ≤ 2 ^ 62
    · obtain ⟨d, hd, hin, hout⟩ := gmtime_runs ht
      refine ⟨(default : Tm).withTime t |>.withDate d, fun _ => ⟨fun hrange => ?_, hout⟩⟩
      have hy := (tmYear_iff hd).mpr hrange
      exact ⟨isTime_withDate default hd, rfl, abs_le.mpr ⟨hy.1, hy.2.le⟩, hin hrange⟩
    · exact ⟨default, fun h => absurd h ht⟩
  choose time htime using hall
  have hin (t : ℤ) (h : firstSecond (-2 ^ 31) ≤ t) (h' : t < firstSecond (2 ^ 31)) :=
    (htime t (InYears.small ⟨h, h'⟩)).1 ⟨h, h'⟩
  refine ⟨time, fun t h h' => ⟨(hin t h h').1, (hin t h h').2.1⟩, fun fuel hfuel => ?_⟩
  refine ⟨by omega, by omega, by omega, fun t h h' => (hin t h h').2.2.2 fuel hfuel,
    fun t ht hout => (htime t ht).2 hout fuel hfuel, fun t h h' => (hin t h h').2.1, ?_, ?_⟩
  · intro t h h'
    obtain ⟨d, -, -, -, -, -, -, -, -, hsec⟩ := (hin t h h').1
    exact hsec
  · intro want hw t h h'
    exact (hin t h h').1.diff (hin t h h').2.2.1 hw

/-! ### `timegm` -/

theorem toInt_bounds (x : ℤ) : |toInt x| ≤ 2 ^ 31 := by
  unfold toInt
  rw [abs_le, Int.bmod_def]
  split_ifs <;> omega

theorem firstGuess_ok {want : Ydhms} (hw : want.Bounded) (offset : ℤ) :
    firstGuess want (toInt (0 - offset)) = .ok (want.seconds - toInt (0 - offset)) := by
  have hneg := toInt_bounds (0 - offset)
  unfold firstGuess
  rw [ydhmsDiff_ok hw]
  · congr 2
    simp only [Ydhms.seconds, show yearStart (70 + 1900) = 0 from by decide]
    ring
  · rw [abs_le] at hneg
    constructor <;> rw [abs_le] <;> constructor <;> dsimp only <;> omega

/-- The instant the fields denote and the one with the seconds clamped are both
representable. -/
def Representable (tm : Tm) : Prop := YearFits tm.seconds ∧ YearFits tm.clamped.seconds

theorem mktimeInternal_ok {convert : Convert} {time : ℤ → Tm} {lo hi : ℤ} {fuel : ℕ}
    (hc : Clock convert time lo hi) (hfuel : 2 ^ 62 ≤ fuel) (h : tm.Ints) (hdst : tm.isdst = 0)
    (offset : ℤ) :
    ∃ offset', mktimeInternal fuel convert tm offset = .ok ⟨
      if (lo ≤ tm.clamped.seconds ∧ tm.clamped.seconds < hi) ∧ lo ≤ tm.seconds ∧ tm.seconds < hi then
        some (tm.seconds, time tm.seconds) else none, offset'⟩ := by
  obtain ⟨want, hreq, hw, hseconds, hsec⟩ := requested_ok h
  have hs := hw.seconds
  have hneg := toInt_bounds (0 - offset)
  have hguess := firstGuess_ok hw offset
  unfold mktimeInternal
  rw [hreq, ok_bind]
  dsimp only
  rw [hguess]
  generalize toInt (0 - offset) = neg at *
  -- What is left are the probes.
  have ht0 : |want.seconds - neg| ≤ 2 ^ 62 := by
    rw [abs_le] at hs hneg ⊢
    omega
  change ∃ _, (probe fuel convert want tm.isdst 6 _ _ _ 0 >>=
    conclude fuel convert tm want (want.seconds - neg) neg offset) = _
  rw [hdst]
  by_cases hin : lo ≤ want.seconds ∧ want.seconds < hi
  · have hreqsec : |tm.sec| ≤ 2 ^ 32 := by
      have hint := h.sec
      rw [abs_le]
      omega
    obtain ⟨offset', hfound⟩ := offsetFound_ok hc (want.seconds - neg) neg hin
      (hsec.trans (hseconds ▸ clamped_sec_eq tm)) hreqsec
    refine ⟨offset', ?_⟩
    rw [probe_found hc hw ht0 hfuel hin]
    change (if isdstDiffer tm.isdst (time want.seconds).isdst then _ else _) = _
    rw [hdst, hc.isdst _ hin.1 hin.2]
    change offsetFound convert tm.sec want.sec _ _ want.seconds (time want.seconds) = _
    rw [hfound, hsec, hseconds, clamped_seconds]
    rw [hseconds] at hin
    simp only [hin, true_and]
  · refine ⟨offset, ?_⟩
    rw [probe_failed hc hw ht0 hfuel hin]
    rw [hseconds] at hin
    rw [if_neg fun h => hin h.1]
    rfl

/-- The outcome of `timegm`, the same for every offset that is remembered. -/
theorem timegm_runs (h : tm.Ints) :
    ∃ tm', (Representable tm → IsTime tm' tm.seconds ∧ tm'.isdst = 0) ∧
      ∀ fuel, 2 ^ 64 ≤ fuel → ∀ offset, ∃ offset',
        (Representable tm → timegm fuel tm offset = .ok ⟨some tm.seconds, tm', offset'⟩) ∧
        (¬ Representable tm →
          timegm fuel tm offset = .ok ⟨none, { tm with isdst := 0 }, offset'⟩) := by
  obtain ⟨time, htime, hclock⟩ := gmtime_clock
  have hfits : Representable tm ↔ InYears tm.clamped.seconds ∧ InYears tm.seconds := by
    rw [Representable, yearFits_iff, yearFits_iff, and_comm]
  unfold InYears at hfits
  refine ⟨time tm.seconds, fun hrep => ?_, fun fuel hfuel offset => ?_⟩
  · have hin := (hfits.mp hrep).2
    exact htime _ hin.1 hin.2
  have hints : ({ tm with isdst := 0 } : Tm).Ints := { h with }
  obtain ⟨offset', hmade⟩ := mktimeInternal_ok (hclock fuel hfuel)
    ((Nat.pow_le_pow_right (by decide) (by decide)).trans hfuel) hints rfl offset
  have hclamped : ({ tm with isdst := 0 } : Tm).clamped.seconds = tm.clamped.seconds := rfl
  have hseconds : ({ tm with isdst := 0 } : Tm).seconds = tm.seconds := rfl
  rw [hclamped, hseconds] at hmade
  have hrun : timegm fuel tm offset =
      (mktimeInternal fuel (gmtime fuel) { tm with isdst := 0 } offset >>= _) := rfl
  rw [hrun, hmade]
  refine ⟨offset', fun hrep => ?_, fun hrep => ?_⟩
  · rw [if_pos (hfits.mp hrep)]
    rfl
  · rw [if_neg (mt hfits.mpr hrep)]
    rfl

/-- Fields that `gmtime` made denote the time they were made from. -/
theorem IsTime.seconds (h : IsTime tm t) : tm.seconds = t ∧ tm.clamped = tm := by
  obtain ⟨d, hd, hy, hm, hday, -, -, hhour, hmin, hsec⟩ := h
  have hpos := d.day_pos
  have hlt := d.month_lt
  have hcarry : tm.carried = d.year := by
    unfold Tm.carried
    omega
  have hindex : (tm.mon % 12).toNat = d.month := by omega
  have hnum := hd.dayNumber_eq
  unfold Date.dayNumber Date.dayOfYear at hnum
  constructor
  · unfold Tm.seconds
    rw [hcarry, hindex]
    omega
  · ext
    all_goals simp only [Tm.clamped]
    rw [if_neg (by omega), if_neg (by omega)]

theorem IsTime.unique {tm' : Tm} (h : IsTime tm t) (h' : IsTime tm' t)
    (hdst : tm.isdst = tm'.isdst) : tm = tm' := by
  obtain ⟨d, hd, hy, hm, hday, hyday, hwday, hhour, hmin, hsec⟩ := h
  obtain ⟨e, he, hy', hm', hday', hyday', hwday', hhour', hmin', hsec'⟩ := h'
  have hde : d = e := Date.dayNumber_injective (hd.dayNumber_eq.trans he.dayNumber_eq.symm)
  subst hde
  ext <;> omega

/-- `timegm` on any fields: if the instant they denote and the one with the
seconds clamped are representable, the result is the seconds they denote, with
the fields normalized; otherwise it fails and changes no field but `tm_isdst`,
which is zero either way. No outcome depends on the remembered offset. On the
fields `gmtime` gives for a time the result is that time. -/
theorem timegm_exact :
    (∀ tm : Tm, tm.Ints → ∃ n result tm', ∀ fuel, n ≤ fuel → ∀ offset, ∃ offset',
      timegm fuel tm offset = .ok ⟨result, tm', offset'⟩ ∧
      (Representable tm → result = some tm.seconds ∧ IsTime tm' tm.seconds ∧ tm'.isdst = 0) ∧
      (¬ Representable tm → result = none ∧ tm' = { tm with isdst := 0 })) ∧
    ∀ t, YearFits t → ∃ n tm, ∀ fuel, n ≤ fuel →
      gmtime fuel t = .ok (.ok tm) ∧
      ∀ offset, ∃ offset', timegm fuel tm offset = .ok ⟨some t, tm, offset'⟩ := by
  constructor
  · intro tm h
    obtain ⟨tm', htime, hrun⟩ := timegm_runs h
    by_cases hrep : Representable tm
    · refine ⟨2 ^ 64, some tm.seconds, tm', ?_⟩
      intro fuel hfuel offset
      obtain ⟨offset', hok, -⟩ := hrun fuel hfuel offset
      exact ⟨offset', hok hrep, fun _ => ⟨rfl, htime hrep⟩, fun hn => absurd hrep hn⟩
    · refine ⟨2 ^ 64, none, { tm with isdst := 0 }, ?_⟩
      intro fuel hfuel offset
      obtain ⟨offset', -, hfail⟩ := hrun fuel hfuel offset
      exact ⟨offset', hfail hrep, fun hr => absurd hr hrep, fun _ => ⟨rfl, rfl⟩⟩
  · intro t hfits
    have hin := yearFits_iff.mp hfits
    obtain ⟨d, hd, hgm, -⟩ := gmtime_runs hin.small
    obtain ⟨tm, htm⟩ : ∃ tm, tm = ((default : Tm).withTime t).withDate d := ⟨_, rfl⟩
    have hdst : tm.isdst = 0 := by rw [htm]; rfl
    have htime : IsTime tm t := htm ▸ isTime_withDate default hd
    have hyear : -2 ^ 31 ≤ tm.year ∧ tm.year < 2 ^ 31 := htm ▸ (tmYear_iff hd).mpr hin
    rw [← htm] at hgm
    obtain ⟨hseconds, hclamped⟩ := htime.seconds
    have hints : tm.Ints := by
      obtain ⟨h1, h2, h3, h4, h5, -, -⟩ := htime.inRange
      refine ⟨?_, ?_, ?_, ?_, ?_, hyear⟩ <;> omega
    have hrep : Representable tm := by
      rw [Representable, hclamped, hseconds]
      exact ⟨hfits, hfits⟩
    obtain ⟨tm', htime', hrun⟩ := timegm_runs hints
    obtain ⟨hsame, hdst'⟩ := htime' hrep
    rw [hseconds] at hsame
    refine ⟨2 ^ 64, tm, fun fuel hfuel => ⟨hgm hin fuel hfuel, fun offset => ?_⟩⟩
    obtain ⟨offset', hok, -⟩ := hrun fuel hfuel offset
    refine ⟨offset', ?_⟩
    rw [hok hrep, hseconds, hsame.unique htime (hdst'.trans hdst.symm)]

/-- The fourteenth month of 1999, its 30th day, 25:61 and one second less, which is
2000-03-02 02:00:59. -/
def carriedTm : Tm := ⟨-1, 61, 25, 30, 13, 99, 0, 0, 1⟩

theorem timegm_exact_carried :
    carriedTm.Ints ∧ YearFits 951962459 ∧
      (∃ n tm', ∀ fuel, n ≤ fuel → ∀ offset, ∃ offset',
        timegm fuel carriedTm offset = .ok ⟨some 951962459, tm', offset'⟩ ∧
        IsTime tm' 951962459 ∧ tm'.isdst = 0) ∧
      ∃ n tm, ∀ fuel, n ≤ fuel → gmtime fuel 951962459 = .ok (.ok tm) ∧
        ∀ offset, ∃ offset', timegm fuel tm offset = .ok ⟨some 951962459, tm, offset'⟩ := by
  have hints : carriedTm.Ints := by constructor <;> decide
  have hin (t : ℤ) (hlo : -67768040609740800 ≤ t) (hhi : t < 67768036191676800) : YearFits t := by
    rw [yearFits_iff, InYears, firstSecond_lo, firstSecond_hi]
    exact ⟨hlo, hhi⟩
  have hseconds : carriedTm.seconds = 951962459 := by decide
  have hrep : Representable carriedTm :=
    ⟨hin _ (by decide) (by decide), hin _ (by decide) (by decide)⟩
  have hfits : YearFits 951962459 := hin _ (by decide) (by decide)
  refine ⟨hints, hfits, ?_, timegm_exact.2 _ hfits⟩
  obtain ⟨n, result, tm', h⟩ := timegm_exact.1 carriedTm hints
  rw [hseconds] at h
  refine ⟨n, tm', fun fuel hfuel offset => ?_⟩
  obtain ⟨offset', hok, hrepresented, -⟩ := h fuel hfuel offset
  obtain ⟨rfl, htime⟩ := hrepresented hrep
  exact ⟨offset', hok, htime⟩

/-- A year past the range in daylight saving time: `timegm` fails, and
`tm_isdst` has become zero. -/
theorem timegm_clears_isdst :
    ∃ tm : Tm, tm.Ints ∧ tm.isdst = 1 ∧ ∃ n, ∀ fuel, n ≤ fuel → ∀ offset, ∃ offset',
      timegm fuel tm offset = .ok ⟨none, { tm with isdst := 0 }, offset'⟩ ∧
      ({ tm with isdst := 0 } : Tm) ≠ tm := by
  obtain ⟨tm, htm⟩ : ∃ tm : Tm, tm = ⟨0, 0, 0, 1, 12, 2 ^ 31 - 1, 0, 0, 1⟩ := ⟨_, rfl⟩
  have hints : tm.Ints := by
    rw [htm]
    constructor <;> decide
  have hrep : ¬ Representable tm := by
    rw [Representable, yearFits_iff, InYears, firstSecond_hi]
    rintro ⟨⟨-, hlt⟩, -⟩
    rw [htm] at hlt
    revert hlt
    decide
  obtain ⟨tm', -, hrun⟩ := timegm_runs hints
  refine ⟨tm, hints, by rw [htm], 2 ^ 64, ?_⟩
  intro fuel hfuel offset
  obtain ⟨offset', -, hfail⟩ := hrun fuel hfuel offset
  refine ⟨offset', hfail hrep, ?_⟩
  rw [htm]
  decide

end AwaitGlibc.BrokenDown
