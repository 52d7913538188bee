import Mathlib.Tactic.IntervalCases
import Mathlib.Tactic.Ring

/-!
# The real-time clock

Model of `rtc_get_time` (`devices/rtc.c:42-91`). The CMOS is what its reads return, the `t`-th read
and the register it is of; the loop that waits for a stable read takes a bound on its turns. `int`
is `Int`, whose values here stay below `2 ^ 31`; `time_t` is an unsigned 32-bit number.

`DateTime` is a date of the Gregorian calendar from 1970 to 2037 with a time of day, and
`DateTime.epochSeconds` the seconds since 1970-01-01 00:00:00.

* `rtcGetTime_eq`: the result is late by the length of the current month, less the leap days of past
  years that `(year - 1) / 4` does not count, and a day more or less where the current year is
  mistaken for a leap year or not taken for one.
* `rtc_never_exact`: it is off for every date.
-/

namespace SystemProg.Pintos.Rtc

/-! ## The source -/

/-- `bcd_to_bin`. -/
def bcdToBin (x : UInt8) : Int := (x &&& 0x0f).toNat + (x >>> 4).toNat * 10

/-- `RTC_REG_SEC`. -/
def rtcRegSec : Nat := 0
/-- `RTC_REG_MIN`. -/
def rtcRegMin : Nat := 2
/-- `RTC_REG_HOUR`. -/
def rtcRegHour : Nat := 4
/-- `RTC_REG_MDAY`. -/
def rtcRegMday : Nat := 7
/-- `RTC_REG_MON`. -/
def rtcRegMon : Nat := 8
/-- `RTC_REG_YEAR`. -/
def rtcRegYear : Nat := 9

/-- The time components, as they are read. -/
structure Components where
  sec : Int
  min : Int
  hour : Int
  mday : Int
  mon : Int
  year : Int

/-- The loop that reads the components until the seconds are the same at its end. `cmos t index` is
what the `t`-th `cmos_read(index)` returns. -/
def readComponents (cmos : Nat → Nat → UInt8) : (turns t : Nat) → Option Components
  | 0, _ => none
  | turns + 1, t =>
    let sec := bcdToBin (cmos t rtcRegSec)
    let min := bcdToBin (cmos (t + 1) rtcRegMin)
    let hour := bcdToBin (cmos (t + 2) rtcRegHour)
    let mday := bcdToBin (cmos (t + 3) rtcRegMday)
    let mon := bcdToBin (cmos (t + 4) rtcRegMon)
    let year := bcdToBin (cmos (t + 5) rtcRegYear)
    if sec ≠ bcdToBin (cmos (t + 6) rtcRegSec) then readComponents cmos turns (t + 7)
    else some ⟨sec, min, hour, mday, mon, year⟩

/-- `days_per_month`. -/
def daysPerMonth : List Int := [31, 28, 31, 30, 31, 30, 31, 31, 30, 31, 30, 31]

/-- What follows the loop. -/
def breakDown (c : Components) : Nat :=
  let year := (if c.year < 70 then c.year + 100 else c.year) - 70
  let time := (year * 365 + (year - 1).tdiv 4) * 24 * 60 * 60
  let time := (List.range c.mon.toNat).foldl
    (fun time i => time + daysPerMonth.getD i 0 * 24 * 60 * 60) time
  let time := if c.mon > 2 ∧ year.tmod 4 = 0 then time + 24 * 60 * 60 else time
  let time := time + (c.mday - 1) * 24 * 60 * 60
  let time := time + c.hour * 60 * 60
  let time := time + c.min * 60
  let time := time + c.sec
  (time % 2 ^ 32).toNat

/-- `rtc_get_time`. -/
def rtcGetTime (cmos : Nat → Nat → UInt8) (turns : Nat) : Option Nat :=
  (readComponents cmos turns 0).map breakDown

/-! ## The calendar -/

/-- A leap year. -/
def isLeap (year : Nat) : Bool := year % 4 = 0 ∧ (year % 100 ≠ 0 ∨ year % 400 = 0)

/-- The days of a month. -/
def daysInMonth (year mon : Nat) : Nat :=
  if mon = 2 then if isLeap year then 29 else 28
  else if mon = 4 ∨ mon = 6 ∨ mon = 9 ∨ mon = 11 then 30 else 31

/-- The days of a year. -/
def daysInYear (year : Nat) : Nat := if isLeap year then 366 else 365

/-- A date and a time of day. -/
structure DateTime where
  year : Nat
  mon : Nat
  mday : Nat
  hour : Nat
  min : Nat
  sec : Nat
  year_ge : 1970 ≤ year
  year_le : year ≤ 2037
  mon_ge : 1 ≤ mon
  mon_le : mon ≤ 12
  mday_ge : 1 ≤ mday
  mday_le : mday ≤ daysInMonth year mon
  hour_lt : hour < 24
  min_lt : min < 60
  sec_lt : sec < 60

/-- The days of `years` years from 1970 on. -/
def daysOfYears : (years : Nat) → Nat
  | 0 => 0
  | years + 1 => daysOfYears years + daysInYear (1970 + years)

/-- The days of the first `mons` months of a year. -/
def daysOfMonths (year : Nat) : (mons : Nat) → Nat
  | 0 => 0
  | mons + 1 => daysOfMonths year mons + daysInMonth year (mons + 1)

variable (dt : DateTime)

/-- The days since 1970-01-01. -/
def DateTime.epochDays : Nat :=
  daysOfYears (dt.year - 1970) + daysOfMonths dt.year (dt.mon - 1) + (dt.mday - 1)

/-- The seconds since 1970-01-01 00:00:00. -/
def DateTime.epochSeconds : Nat := ((dt.epochDays * 24 + dt.hour) * 60 + dt.min) * 60 + dt.sec

/-- A number of two digits in BCD. -/
def toBcd (n : Nat) : UInt8 := UInt8.ofNat (n / 10 * 16 + n % 10)

/-- The registers while they hold a date. -/
def DateTime.cmos (index : Nat) : UInt8 :=
  if index = rtcRegSec then toBcd dt.sec
  else if index = rtcRegMin then toBcd dt.min
  else if index = rtcRegHour then toBcd dt.hour
  else if index = rtcRegMday then toBcd dt.mday
  else if index = rtcRegMon then toBcd dt.mon
  else if index = rtcRegYear then toBcd (dt.year % 100)
  else 0

/-! ## How late it is -/

theorem bcdToBin_toBcd : ∀ n < 100, bcdToBin (toBcd n) = n := by decide

/-- Past years have a leap day every fourth year. -/
theorem daysOfYears_eq : ∀ y < 68, daysOfYears y = y * 365 + (y + 1) / 4 := by decide

theorem isLeap_iff : ∀ y < 68, isLeap (1970 + y) = true ↔ (y + 2) % 4 = 0 := by decide

theorem tdiv_bounds :
    ∀ y : Nat, y < 68 → 0 ≤ ((y : Int) - 1).tdiv 4 ∧ ((y : Int) - 1).tdiv 4 ≤ 16 := by
  decide

/-- The days by which `rtc_get_time` is late. -/
def excess (year mon : Nat) : Int :=
  let y := year - 1970
  daysPerMonth.getD (mon - 1) 0 + ((y : Int) - 1).tdiv 4 - ((y + 1) / 4 : Nat) +
    (if 2 < mon ∧ y % 4 = 0 then 1 else 0) - (if 2 < mon ∧ (y + 2) % 4 = 0 then 1 else 0)

theorem daysInMonth_le (year mon : Nat) : daysInMonth year mon ≤ 31 := by
  unfold daysInMonth
  split_ifs <;> omega

theorem readComponents_stable (turns t : Nat) :
    readComponents (fun _ => dt.cmos) (turns + 1) t =
      some ⟨dt.sec, dt.min, dt.hour, dt.mday, dt.mon, (dt.year % 100 : Nat)⟩ := by
  have hmday := dt.mday_le.trans (daysInMonth_le _ _)
  have hsec : bcdToBin (dt.cmos rtcRegSec) = dt.sec :=
    bcdToBin_toBcd _ (by have := dt.sec_lt; omega)
  have hmin : bcdToBin (dt.cmos rtcRegMin) = dt.min :=
    bcdToBin_toBcd _ (by have := dt.min_lt; omega)
  have hhour : bcdToBin (dt.cmos rtcRegHour) = dt.hour :=
    bcdToBin_toBcd _ (by have := dt.hour_lt; omega)
  have hmday : bcdToBin (dt.cmos rtcRegMday) = dt.mday := bcdToBin_toBcd _ (by omega)
  have hmon : bcdToBin (dt.cmos rtcRegMon) = dt.mon :=
    bcdToBin_toBcd _ (by have := dt.mon_le; omega)
  have hyear : bcdToBin (dt.cmos rtcRegYear) = (dt.year % 100 : Nat) :=
    bcdToBin_toBcd _ (Nat.mod_lt _ (by decide))
  simp only [readComponents, hsec, hmin, hhour, hmday, hmon, hyear, ne_eq, not_true_eq_false,
    if_false]

theorem months_foldl {mon : Nat} (h : mon ≤ 12) (time : Int) :
    (List.range mon).foldl (fun time i => time + daysPerMonth.getD i 0 * 24 * 60 * 60) time =
      time + (daysPerMonth.take mon).sum * 86400 := by
  interval_cases mon <;> simp [daysPerMonth, List.range_succ] <;> omega

theorem daysOfMonths_eq (year : Nat) {mon : Nat} (hlo : 1 ≤ mon) (hhi : mon ≤ 12) :
    (daysOfMonths year (mon - 1) : Int) + daysPerMonth.getD (mon - 1) 0 =
      (daysPerMonth.take mon).sum + if 2 < mon ∧ isLeap year = true then 1 else 0 := by
  cases hleap : isLeap year <;> interval_cases mon <;>
    simp [daysOfMonths, daysInMonth, daysPerMonth, hleap]

/-- The leap day that is added for the current year. -/
theorem leapDay_eq (mon y : Nat) (time : Int) :
    (if (mon : Int) > 2 ∧ (y : Int).tmod 4 = 0 then time + 24 * 60 * 60 else time) =
      time + (if 2 < mon ∧ y % 4 = 0 then 1 else 0) * 86400 := by
  have hmod : (y : Int).tmod 4 = ((y % 4 : Nat) : Int) := rfl
  have hiff : ((mon : Int) > 2 ∧ (y : Int).tmod 4 = 0) ↔ (2 < mon ∧ y % 4 = 0) := by
    rw [hmod]
    omega
  simp only [hiff]
  split <;> omega

/-- The seconds before they are cut off after 32 bits. -/
theorem breakDown_eq {c : Components} {y mon mday hour min sec : Nat} (hmon : mon ≤ 12)
    (hyear : (if c.year < 70 then c.year + 100 else c.year) - 70 = y) (hc : c.mon = mon)
    (hmday : c.mday = mday) (hhour : c.hour = hour) (hmin : c.min = min) (hsec : c.sec = sec) :
    breakDown c = ((((y : Int) * 365 + ((y : Int) - 1).tdiv 4 + (daysPerMonth.take mon).sum +
      (if 2 < mon ∧ y % 4 = 0 then 1 else 0) + (mday - 1)) * 86400 + hour * 3600 + min * 60 +
      sec) % 2 ^ 32).toNat := by
  rw [breakDown]
  simp only [hyear, hc, hmday, hhour, hmin, hsec, Int.toNat_natCast, months_foldl hmon, leapDay_eq]
  congr 2
  ring

/-- **How late `rtc_get_time` is**, in seconds of whole days. -/
theorem rtcGetTime_eq (turns : Nat) :
    ∃ t, rtcGetTime (fun _ => dt.cmos) (turns + 1) = some t ∧
      (t : Int) = dt.epochSeconds + excess dt.year dt.mon * 86400 := by
  refine ⟨_, by rw [rtcGetTime, readComponents_stable]; rfl, ?_⟩
  obtain ⟨y, hy⟩ : ∃ y, dt.year = 1970 + y := ⟨dt.year - 1970, by have := dt.year_ge; omega⟩
  have hylt : y < 68 := by have := dt.year_le; omega
  have hyear : (if ((dt.year % 100 : Nat) : Int) < 70 then ((dt.year % 100 : Nat) : Int) + 100
      else ((dt.year % 100 : Nat) : Int)) - 70 = y := by
    split <;> omega
  rw [breakDown_eq dt.mon_le hyear rfl rfl rfl rfl rfl]
  have hdays : ((y : Int) * 365 + ((y : Int) - 1).tdiv 4 + (daysPerMonth.take dt.mon).sum +
      (if 2 < dt.mon ∧ y % 4 = 0 then 1 else 0) + (dt.mday - 1)) =
      dt.epochDays + excess dt.year dt.mon := by
    have hmonths := daysOfMonths_eq (1970 + y) dt.mon_ge dt.mon_le
    have hmday := dt.mday_ge
    simp only [isLeap_iff y hylt] at hmonths
    rw [DateTime.epochDays, excess, hy, Nat.add_sub_cancel_left, daysOfYears_eq y hylt]
    omega
  have hbound : 0 ≤ (dt.epochDays : Int) + excess dt.year dt.mon ∧
      (dt.epochDays : Int) + excess dt.year dt.mon < 25000 := by
    obtain ⟨hlo, hhi⟩ := tdiv_bounds y hylt
    have hsum : ∀ m ≤ 12, 0 ≤ (daysPerMonth.take m).sum ∧ (daysPerMonth.take m).sum ≤ 365 := by
      decide
    have hmday := dt.mday_ge
    have hmday' := dt.mday_le.trans (daysInMonth_le _ _)
    have := hsum dt.mon dt.mon_le
    rw [← hdays]
    split <;> omega
  have hsec := dt.sec_lt
  have hmin := dt.min_lt
  have hhour := dt.hour_lt
  rw [hdays, DateTime.epochSeconds]
  omega

/-- The current month makes up for everything else that is wrong. -/
theorem excess_pos {year mon : Nat} (hyear : year ≤ 2037) (hlo : 1 ≤ mon) (hhi : mon ≤ 12) :
    0 < excess year mon := by
  have hy : year - 1970 < 68 := by omega
  have hdiv : ∀ y < 68, (((y + 1) / 4 : Nat) : Int) ≤ ((y : Int) - 1).tdiv 4 + 1 := by decide
  have hmonth : ∀ m < 12, 28 ≤ daysPerMonth.getD m 0 := by decide
  have h1 := hdiv _ hy
  have h2 := hmonth (mon - 1) (by omega)
  unfold excess
  dsimp only
  split_ifs <;> omega

/-- **`rtc_get_time` is off for every date** from 1970 to 2037: with the registers stable it
returns, and never the seconds since the epoch. -/
theorem rtc_never_exact (turns : Nat) :
    ∃ t, rtcGetTime (fun _ => dt.cmos) (turns + 1) = some t ∧ (t = dt.epochSeconds ↔ False) := by
  obtain ⟨t, ht, heq⟩ := rtcGetTime_eq dt turns
  have := excess_pos dt.year_le dt.mon_ge dt.mon_le
  exact ⟨t, ht, iff_of_false (by omega) id⟩

/-- Midnight on a day of 1970. -/
def midnight1970 (mon mday : Nat) (hlo : 1 ≤ mon) (hhi : mon ≤ 12) (hday : 1 ≤ mday)
    (hday' : mday ≤ daysInMonth 1970 mon) : DateTime :=
  ⟨1970, mon, mday, 0, 0, 0, by decide, by decide, hlo, hhi, hday, hday', by decide, by decide,
    by decide⟩

/-- The epoch is taken for the first of February, and the first of February for a time before the
last of January. -/
theorem rtc_january :
    rtcGetTime (fun _ => (midnight1970 1 1 (by decide) (by decide) (by decide) (by decide)).cmos)
      1 = some 2678400 ∧
    rtcGetTime (fun _ => (midnight1970 1 31 (by decide) (by decide) (by decide) (by decide)).cmos)
      1 = some 5270400 ∧
    rtcGetTime (fun _ => (midnight1970 2 1 (by decide) (by decide) (by decide) (by decide)).cmos)
      1 = some 5097600 := by
  decide +kernel

end SystemProg.Pintos.Rtc
