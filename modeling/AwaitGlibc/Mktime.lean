import AwaitGlibc.Offtime

/-!
# From broken-down time to seconds

`__mktime_internal` of `time/mktime.c`, which inverts a conversion from seconds
to `struct tm` by probing it, and `timegm`, which uses it with the conversion
`gmtime`. `long_int` is `long int`, as wide as `__time64_t`, so that clamping a
time to the range of both changes nothing. Operations on `int` and `long int`
are checked; the ones the source marks as wrapping wrap.

`gmtime` is `__offtime` at UTC. Its leap second corrections come from a time
zone file and are empty here.
-/
namespace AwaitGlibc.BrokenDown

def int32 (x : ℤ) : Except Fault ℤ :=
  if -2 ^ 31 ≤ x ∧ x < 2 ^ 31 then .ok x else .error .overflow

/-- The value `INT_ADD_WRAPV` and `INT_SUBTRACT_WRAPV` store in a `long int`. -/
def toLong (x : ℤ) : ℤ := x.bmod (2 ^ 64)

/-- How a conversion ends: with the fields, with `EOVERFLOW` or with another
error. -/
inductive Converted where
  | ok (tm : Tm)
  | overflow
  | error
deriving DecidableEq, Repr

/-- `struct tm *(*convert) (const __time64_t *, struct tm *)` -/
abbrev Convert := ℤ → Except Fault Converted

/-! ### Differences of broken-down times -/

def shr (a : ℤ) (b : ℕ) : ℤ := a / 2 ^ b

def leapyear (year : ℤ) : Bool :=
  year % 4 = 0 && (year.tmod 100 ≠ 0 || year.tdiv 100 % 4 = -(1900 / 100) % 4)

/-- One of the counts `a4` and `b4`: leap years of the Julian calendar before a
year. -/
def fourths (year : ℤ) : ℤ :=
  toInt (shr year 2 + shr 1900 2 - if year % 4 = 0 then 1 else 0)

/-- One of the counts `a100` and `b100`. -/
def hundredths (n4 : ℤ) : Except Fault ℤ := do
  let sign := if n4 < 0 then 1 else 0
  let a ← int32 (n4 + sign)
  int32 (a.tdiv 25 - sign)

def interveningLeapDays (year1 year0 : ℤ) : Except Fault ℤ := do
  let a4 := fourths year1
  let b4 := fourths year0
  let a100 ← hundredths a4
  let b100 ← hundredths b4
  let a400 := shr a100 2
  let b400 := shr b100 2
  let d4 ← int32 (a4 - b4)
  let d100 ← int32 (a100 - b100)
  let d400 ← int32 (a400 - b400)
  let d ← int32 (d4 - d100)
  int32 (d + d400)

/-- A time given by its year, the day of the year and the time of the day; the
values need not be in their usual ranges. -/
structure Ydhms where
  year : ℤ
  yday : ℤ
  hour : ℤ
  min : ℤ
  sec : ℤ
deriving DecidableEq, Repr

/-- `factor * a + b1 - b0` in `long int`. -/
def weigh (factor a b1 b0 : ℤ) : Except Fault ℤ := do
  let p ← int64 (factor * a)
  let s ← int64 (p + b1)
  int64 (s - b0)

def ydhmsDiff (t1 t0 : Ydhms) : Except Fault ℤ := do
  let leaps ← interveningLeapDays t1.year t0.year
  let years ← int64 (t1.year - t0.year)
  let days ← weigh 365 years t1.yday t0.yday
  let days ← int64 (days + leaps)
  let hours ← weigh 24 days t1.hour t0.hour
  let minutes ← weigh 60 hours t1.min t0.min
  weigh 60 minutes t1.sec t0.sec

def tmDiff (t1 : Ydhms) (tp : Tm) : Except Fault ℤ :=
  ydhmsDiff t1 ⟨tp.year, tp.yday, tp.hour, tp.min, tp.sec⟩

/-! ### Conversions near the ends of the range -/

def longIntAvg (a b : ℤ) : ℤ := shr a 1 + shr b 1 + if a % 2 = 1 ∨ b % 2 = 1 then 1 else 0

/-- The binary search of `ranged_convert`: `bad` is known to be out of range and
`ok` to be in range; `oktm` belongs to `ok` once it has been converted. -/
def narrow (convert : Convert) : ℕ → ℤ → ℤ → Option Tm → Except Fault (Option (ℤ × Tm))
  | 0, _, _, _ => .error .outOfFuel
  | fuel + 1, ok, bad, oktm =>
    let mid := longIntAvg ok bad
    if mid = ok ∨ mid = bad then .ok (oktm.map (ok, ·))
    else do
      match ← convert mid with
      | .ok tm => narrow convert fuel mid bad (some tm)
      | .overflow => narrow convert fuel ok mid oktm
      | .error => .ok none

/-- `ranged_convert`; the time that was converted and its fields. -/
def rangedConvert (fuel : ℕ) (convert : Convert) (t : ℤ) : Except Fault (Option (ℤ × Tm)) := do
  match ← convert t with
  | .ok tm => .ok (some (t, tm))
  | .overflow => narrow convert fuel 0 t none
  | .error => .ok none

/-! ### Probing -/

def isdstDiffer (a b : ℤ) : Bool := (a = 0) ≠ (b = 0) && 0 ≤ a && 0 ≤ b

/-- How the loop of probes ends: with a match, by giving up between two values
that alternate, or with `-1`. -/
inductive Probed where
  | found (t : ℤ) (tm : Tm)
  | gap (t : ℤ) (tm : Tm)
  | failed
deriving DecidableEq, Repr

def oscillating (isdst dst2 t t1 t2 : ℤ) (tm : Tm) : Bool :=
  t = t1 && t ≠ t2 && (tm.isdst < 0 ||
    if isdst < 0 then dst2 ≤ (if tm.isdst ≠ 0 then 1 else 0)
    else (isdst ≠ 0) ≠ (tm.isdst ≠ 0))

/-- `while (true)`: the error improves the guess until it is zero. The number of
probes that remain decreases. -/
def probe (fuel : ℕ) (convert : Convert) (want : Ydhms) (isdst : ℤ) :
    ℕ → ℤ → ℤ → ℤ → ℤ → Except Fault Probed
  | 0, _, _, _, _ => .ok .failed
  | remaining + 1, t, t1, t2, dst2 => do
    match ← rangedConvert fuel convert t with
    | none => .ok .failed
    | some (t, tm) =>
      let dt ← tmDiff want tm
      if dt = 0 then .ok (.found t tm)
      else if oscillating isdst dst2 t t1 t2 tm then .ok (.gap t tm)
      else if remaining = 0 then .ok .failed
      else
        let next ← int64 (t + dt)
        probe fuel convert want isdst remaining next t2 t (if tm.isdst ≠ 0 then 1 else 0)

/-- How one look for another daylight saving state ends. -/
inductive Looked where
  | found (t : ℤ) (tm : Tm)
  | failed
  | nothing
deriving DecidableEq, Repr

/-- The body of the loops over `delta` and `direction`. -/
def lookAt (fuel : ℕ) (convert : Convert) (want : Ydhms) (isdst t distance : ℤ) :
    Except Fault Looked := do
  if toLong (t + distance) ≠ t + distance then .ok .nothing
  else
    match ← rangedConvert fuel convert (t + distance) with
    | none => .ok .failed
    | some (ot, otm) =>
      if isdstDiffer isdst otm.isdst then .ok .nothing
      else
        let diff ← tmDiff want otm
        let gt ← int64 (ot + diff)
        match ← convert gt with
        | .ok tm => .ok (.found gt tm)
        | .overflow => .ok .nothing
        | .error => .ok .failed

def stride : ℤ := 601200

def deltaBound : ℤ := Int.tdiv 536454000 2 + stride

/-- The loops that look in both directions for a time with the right
`tm_isdst`. -/
def searchDst (fuel : ℕ) (convert : Convert) (want : Ydhms) (isdst t : ℤ) :
    ℕ → ℤ → Except Fault Probed
  | 0, _ => .error .outOfFuel
  | steps + 1, delta =>
    if delta < deltaBound then do
      match ← lookAt fuel convert want isdst t (delta * -1) with
      | .found t tm => .ok (.found t tm)
      | .failed => .ok .failed
      | .nothing =>
        match ← lookAt fuel convert want isdst t (delta * 1) with
        | .found t tm => .ok (.found t tm)
        | .failed => .ok .failed
        | .nothing => searchDst fuel convert want isdst t steps (delta + stride)
    else .ok .failed

/-! ### `__mktime_internal` -/

/-- What is requested, with the month brought into range and the seconds clamped
to a minute. -/
def requested (tp : Tm) : Except Fault Ydhms := do
  let monRemainder := tp.mon.tmod 12
  let negative := if monRemainder < 0 then 1 else 0
  let monYears ← int32 (tp.mon.tdiv 12 - negative)
  let year ← int64 (tp.year + monYears)
  match (monYday (leapyear year))[(monRemainder + 12 * negative).toNat]? with
  | none => .error .outside
  | some before =>
    let monYday ← int32 (before - 1)
    let yday ← int64 (monYday + tp.mday)
    .ok ⟨year, yday, tp.hour, tp.min, if tp.sec < 0 then 0 else if 59 < tp.sec then 59 else tp.sec⟩

/-- The result: the time with the normalized fields, or a failure; and the new
offset. -/
structure Made where
  time : Option (ℤ × Tm)
  offset : ℤ
deriving DecidableEq, Repr

def offsetFound (convert : Convert) (secRequested sec t0 negativeOffsetGuess t : ℤ) (tm : Tm) :
    Except Fault Made := do
  let offset := toLong (toLong (t - t0) - negativeOffsetGuess)
  if secRequested ≠ tm.sec then
    let adjustment ← int64 ((if sec = 0 ∧ tm.sec = 60 then 1 else 0) - sec)
    let adjustment ← int64 (adjustment + secRequested)
    if toLong (t + adjustment) ≠ t + adjustment then .ok ⟨none, offset⟩
    else
      match ← convert (t + adjustment) with
      | .ok tm => .ok ⟨some (t + adjustment, tm), offset⟩
      | _ => .ok ⟨none, offset⟩
  else .ok ⟨some (t, tm), offset⟩

/-- The first guess: the requested time as if it were given at the remembered
offset. -/
def firstGuess (want : Ydhms) (negativeOffsetGuess : ℤ) : Except Fault ℤ :=
  ydhmsDiff want ⟨70, 0, 0, 0, negativeOffsetGuess⟩

/-- What follows the probes: a match with the wrong `tm_isdst` leads to a search
for a neighbouring time with the right one. -/
def conclude (fuel : ℕ) (convert : Convert) (tp : Tm) (want : Ydhms)
    (t0 negativeOffsetGuess offset : ℤ) : Probed → Except Fault Made
  | .failed => .ok ⟨none, offset⟩
  | .gap t tm => offsetFound convert tp.sec want.sec t0 negativeOffsetGuess t tm
  | .found t tm =>
    if isdstDiffer tp.isdst tm.isdst then do
      match ← searchDst fuel convert want tp.isdst t fuel stride with
      | .found t tm => offsetFound convert tp.sec want.sec t0 negativeOffsetGuess t tm
      | _ => .ok ⟨none, offset⟩
    else offsetFound convert tp.sec want.sec t0 negativeOffsetGuess t tm

def mktimeInternal (fuel : ℕ) (convert : Convert) (tp : Tm) (offset : ℤ) : Except Fault Made := do
  let want ← requested tp
  let negativeOffsetGuess := toInt (0 - offset)
  let t0 ← firstGuess want negativeOffsetGuess
  let probed ← probe fuel convert want tp.isdst 6 t0 t0 t0 0
  conclude fuel convert tp want t0 negativeOffsetGuess offset probed

/-! ### `timegm` -/

/-- `__gmtime64_r` -/
def gmtime (fuel : ℕ) : Convert := fun t => do
  match ← offtime fuel t 0 default with
  | (true, tm) => .ok (.ok tm)
  | (false, _) => .ok .overflow

/-- What a call of `timegm` leaves: the result, `*tmp` and the static
`gmtime_offset`. -/
structure Timegm where
  result : Option ℤ
  tm : Tm
  offset : ℤ
deriving DecidableEq, Repr

def timegm (fuel : ℕ) (tmp : Tm) (offset : ℤ) : Except Fault Timegm := do
  let tmp := { tmp with isdst := 0 }
  let made ← mktimeInternal fuel (gmtime fuel) tmp offset
  match made.time with
  | some (t, tm) => .ok ⟨some t, tm, made.offset⟩
  | none => .ok ⟨none, tmp, made.offset⟩

end AwaitGlibc.BrokenDown
