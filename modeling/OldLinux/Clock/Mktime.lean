import OldLinux.Lib.Calendar
import OldLinux.Lib.Overflow
import Mathlib.Tactic.IntervalCases
import Mathlib.Tactic.Linarith

/-!
# `kernel_mktime`

The seconds since the beginning of 1970 from a broken-down time.  The table of the months is that of a leap
year, and two offsets of the year say how many leap days lie before it and whether one has to be taken back.
`count` is the number that the expression stands for; it is that of the calendar from 1970 on.
From boot on, `CURRENT_TIME` follows a watch that the timer interrupt drives.
-/

namespace OldLinux.Clock

open Lib Lib.Calendar Lib.CInt

def MINUTE : ℤ := 60
def HOUR : ℤ := 60 * MINUTE
def DAY : ℤ := 24 * HOUR
def YEAR : ℤ := 365 * DAY

/-- The fields of `struct tm` that `kernel_mktime` reads. -/
structure Tm where
  tm_sec : ℤ
  tm_min : ℤ
  tm_hour : ℤ
  tm_mday : ℤ
  tm_mon : ℤ
  tm_year : ℤ

/-- The table, and what lies around it. -/
def month (beyond : ℤ → ℤ) (i : ℤ) : ℤ :=
  if 0 ≤ i ∧ i < 12 then
    [0, DAY * 31, DAY * (31 + 29), DAY * (31 + 29 + 31), DAY * (31 + 29 + 31 + 30),
      DAY * (31 + 29 + 31 + 30 + 31),
     DAY * (31 + 29 + 31 + 30 + 31 + 30),
     DAY * (31 + 29 + 31 + 30 + 31 + 30 + 31),
     DAY * (31 + 29 + 31 + 30 + 31 + 30 + 31 + 31),
     DAY * (31 + 29 + 31 + 30 + 31 + 30 + 31 + 31 + 30),
     DAY * (31 + 29 + 31 + 30 + 31 + 30 + 31 + 31 + 30 + 31),
     DAY * (31 + 29 + 31 + 30 + 31 + 30 + 31 + 31 + 30 + 31 + 30)].getD i.toNat 0
  else beyond i

def kernel_mktime (beyond : ℤ → ℤ) (tm : Tm) : CInt :=
  let year : CInt := tm.tm_year - 70
  let res : CInt := YEAR * year + DAY * ((year + 1) / 4)
  let res := res + month beyond tm.tm_mon
  let res := if 1 < tm.tm_mon ∧ ((year + 2) % 4).val ≠ 0 then res - DAY else res
  let res := res + DAY * (tm.tm_mday - 1)
  let res := res + HOUR * tm.tm_hour
  let res := res + MINUTE * tm.tm_min
  res + tm.tm_sec

/-! ### What the expression stands for -/

variable {beyond : ℤ → ℤ} {tm : Tm} {a b : Moment} {y : ℤ}

/-- The same sum of numbers that have no bound. -/
def count (beyond : ℤ → ℤ) (tm : Tm) : ℤ :=
  YEAR * (tm.tm_year - 70) + DAY * (tm.tm_year - 70 + 1).tdiv 4 + month beyond tm.tm_mon
    - (if 1 < tm.tm_mon ∧ (tm.tm_year - 70 + 2).tmod 4 ≠ 0 then DAY else 0)
    + DAY * (tm.tm_mday - 1) + HOUR * tm.tm_hour + MINUTE * tm.tm_min + tm.tm_sec

/-- The fields of the time, for a number of the year. -/
def fields_of (a : Moment) (y : ℤ) : Tm := ⟨a.second, a.minute, a.hour, a.day, a.month - 1, y⟩

/-- What the table holds is not much, and not negative. -/
theorem month_bounds (hlo : 0 ≤ tm.tm_mon) (hhi : tm.tm_mon ≤ 11) :
    (0 ≤ month beyond tm.tm_mon ∧ month beyond tm.tm_mon ≤ 335 * 86400) ∧
      (1 < tm.tm_mon → 86400 ≤ month beyond tm.tm_mon) := by
  rw [month, if_pos ⟨hlo, by omega⟩]
  generalize tm.tm_mon = m at hlo hhi
  interval_cases m <;> decide

theorem exact_year (hlo : 0 ≤ tm.tm_year) (hhi : tm.tm_year ≤ 138) :
    Exact (tm.tm_year - 70 : CInt) (tm.tm_year - 70) :=
  (exact_of ⟨by omega, by omega⟩).sub (exact_of (x := 70) (by decide)) ⟨by omega, by omega⟩

theorem exact_leap_days (hlo : 0 ≤ tm.tm_year) (hhi : tm.tm_year ≤ 138) :
    Exact (((tm.tm_year - 70 : CInt) + 1) / 4) ((tm.tm_year - 70 + 1).tdiv 4) :=
  ((exact_year hlo hhi).add (exact_of (x := 1) (by decide)) ⟨by omega, by omega⟩).div
    (exact_of (x := 4) (by decide)) (by omega)

theorem test_leap (hlo : 0 ≤ tm.tm_year) (hhi : tm.tm_year ≤ 138) :
    (((tm.tm_year - 70 : CInt) + 2) % 4).val = (tm.tm_year - 70 + 2).tmod 4 :=
  (((exact_year hlo hhi).add (exact_of (x := 2) (by decide)) ⟨by omega, by omega⟩).mod
    (exact_of (x := 4) (by decide)) (by omega)).val

/-- **Whether or not a step overflows**, the result is the count but for a multiple of `2^32`. -/
theorem kernel_mktime_wrapped (hlo : 0 ≤ tm.tm_year) (hhi : tm.tm_year ≤ 138) :
    Wrapped (kernel_mktime beyond tm) (count beyond tm) := by
  have hyear := (exact_year hlo hhi).wrapped
  have hdays := (exact_leap_days hlo hhi).wrapped
  rw [kernel_mktime, count, test_leap hlo hhi]
  have hres := (((wrapped_of YEAR).mul hyear).add ((wrapped_of DAY).mul hdays)).add
    (wrapped_of (month beyond tm.tm_mon))
  have hmday := (wrapped_of tm.tm_mday).sub (exact_of (x := 1) (by decide)).wrapped
  exact (((hres.sub_if (wrapped_of DAY)).add ((wrapped_of DAY).mul hmday)).add
    ((wrapped_of HOUR).mul (wrapped_of _)) |>.add ((wrapped_of MINUTE).mul (wrapped_of _))).add (wrapped_of _)

/-- From 1970 on the sums grow from step to step, so that none overflows if the count does not; the day that is
taken back makes no difference, since there is none in January 2038. -/
theorem kernel_mktime_exact (hlo : 70 ≤ tm.tm_year) (hhi : tm.tm_year ≤ 138) (hmon : 0 ≤ tm.tm_mon)
    (hmon' : tm.tm_mon ≤ 11) (hmday : 1 ≤ tm.tm_mday) (hhour : 0 ≤ tm.tm_hour) (hmin : 0 ≤ tm.tm_min)
    (hsec : 0 ≤ tm.tm_sec) (hlast : 1 < tm.tm_mon → tm.tm_year ≤ 137) (hcount : count beyond tm < 2 ^ 31) :
    Exact (kernel_mktime beyond tm) (count beyond tm) := by
  obtain ⟨hmonth, hmarch⟩ := @month_bounds beyond tm hmon hmon'
  have hyear := exact_year (by omega) hhi
  have hdays := @exact_leap_days tm (by omega) hhi
  have hdiv : (tm.tm_year - 70 + 1).tdiv 4 = (tm.tm_year - 70 + 1) / 4 :=
    Int.tdiv_eq_ediv_of_nonneg (by omega)
  have hday : DAY = 86400 := rfl
  have hhours : HOUR = 3600 := rfl
  have hyears : YEAR = 31536000 := rfl
  have hminutes : MINUTE = 60 := rfl
  rw [count, hdiv, hyears, hday, hhours, hminutes] at hcount
  rw [kernel_mktime, count, test_leap (by omega) hhi, hdiv, hyears, hday, hhours, hminutes]
  rw [hdiv] at hdays
  have hone : Exact (CInt.of 86400) 86400 := exact_of (by decide)
  -- the sums up to the day of the month, with the month that is looked up and with the day that is taken back
  have hsum := ((exact_of (x := 31536000) (by decide)).mul hyear ⟨by omega, by omega⟩).add
    (hone.mul hdays ⟨by omega, by omega⟩) ⟨by omega, by omega⟩
  have hres := hsum.add (exact_of (x := month beyond tm.tm_mon) ⟨by omega, by omega⟩) (by
    by_cases h : 1 < tm.tm_mon
    · have hyear' := hlast h
      constructor <;> omega
    · rw [if_neg fun hc => h hc.1] at hcount
      constructor <;> omega)
  have hleap := hres.sub_if hone (p := 1 < tm.tm_mon ∧ (tm.tm_year - 70 + 2).tmod 4 ≠ 0)
    fun _ => ⟨by omega, by have := hres.fits.2; omega⟩
  have hlow : 0 ≤ 31536000 * (tm.tm_year - 70) + 86400 * ((tm.tm_year - 70 + 1) / 4) + month beyond tm.tm_mon -
      if 1 < tm.tm_mon ∧ (tm.tm_year - 70 + 2).tmod 4 ≠ 0 then 86400 else 0 := by
    split
    · rename_i h
      have htable := hmarch h.1
      omega
    · omega
  generalize (31536000 * (tm.tm_year - 70) + 86400 * ((tm.tm_year - 70 + 1) / 4) + month beyond tm.tm_mon -
    if 1 < tm.tm_mon ∧ (tm.tm_year - 70 + 2).tmod 4 ≠ 0 then 86400 else 0) = sum at *
  have hmdays := (exact_of (x := tm.tm_mday) ⟨by omega, by omega⟩).sub (exact_of (x := 1) (by decide))
    ⟨by omega, by omega⟩
  have hdate := hleap.add (hone.mul hmdays ⟨by omega, by omega⟩) ⟨by omega, by omega⟩
  have hhour' := hdate.add ((exact_of (x := 3600) (by decide)).mul
    (exact_of (x := tm.tm_hour) ⟨by omega, by omega⟩) ⟨by omega, by omega⟩) ⟨by omega, by omega⟩
  have hmin' := hhour'.add ((exact_of (x := 60) (by decide)).mul
    (exact_of (x := tm.tm_min) ⟨by omega, by omega⟩) ⟨by omega, by omega⟩) ⟨by omega, by omega⟩
  exact hmin'.add (exact_of (x := tm.tm_sec) ⟨by omega, by omega⟩) ⟨by omega, by omega⟩

/-! ### The calendar -/

/-- The table and the two offsets give the days of the calendar, for a number of the year with the same
remainder modulo four. -/
theorem month_table (hyear : a.year < 2100) (hy : (y - a.year) % 4 = 0) : (month beyond (fields_of a y).tm_mon -
      if 1 < (fields_of a y).tm_mon ∧ ((fields_of a y).tm_year - 70 + 2).tmod 4 ≠ 0 then DAY else 0) =
        DAY * monthStart a.year a.month := by
  have hleap : (y - 70 + 2).tmod 4 = 0 ↔ IsLeap a.year := by
    have hge := a.year_ge
    rw [← Int.dvd_iff_tmod_eq_zero, IsLeap]
    omega
  have hpos := a.month_pos
  have hle := a.month_le
  have hin : 0 ≤ (fields_of a y).tm_mon ∧ (fields_of a y).tm_mon < 12 := by
    simp only [fields_of]
    omega
  rw [month, if_pos hin]
  simp only [fields_of, ne_eq, hleap]
  generalize a.month = m at hpos hle
  by_cases h : IsLeap a.year <;> interval_cases m <;>
    simp [h, DAY, HOUR, MINUTE, monthStart, Finset.sum_Ico_eq_sum_range, Finset.sum_range_succ, monthLength]

/-- The count for the fields of a time. -/
theorem count_fields (hyear : a.year < 2100) (hy : (y - a.year) % 4 = 0) : count beyond (fields_of a y) =
    YEAR * (y - 70) + DAY * (y - 70 + 1).tdiv 4 +
      (DAY * (monthStart a.year a.month + (a.day - 1 : ℕ)) + a.timeOfDay) := by
  have hday := a.day_pos
  rw [count, Int.add_sub_assoc, month_table hyear hy]
  simp only [fields_of, Moment.timeOfDay, HOUR, MINUTE]
  push_cast [hday]
  linarith

theorem seconds_eq (hyear : a.year < 2100) :
      (a.seconds : ℤ) = 86400 * (365 * (a.year - 1970) + (a.year - 1969) / 4) +
      (86400 * (monthStart a.year a.month + (a.day - 1 : ℕ)) + a.timeOfDay) := by
  obtain ⟨n, hn⟩ := Nat.exists_eq_add_of_le a.year_ge
  rw [Moment.seconds, Moment.days, hn, yearStart_eq n (by omega)]
  push_cast
  omega

/-- The number of the year in `tm_year` is that of the century. -/
def tm_of (a : Moment) : Tm := fields_of a (a.year - 1900)

theorem count_eq (hyear : a.year < 2100) : count beyond (tm_of a) = a.seconds := by
  have hge := a.year_ge
  rw [tm_of, count_fields hyear (by omega), seconds_eq hyear,
    Int.tdiv_eq_ediv_of_nonneg (by omega), YEAR, DAY, HOUR,
    MINUTE]
  omega

/-- The last second that a `long` can hold. -/
def last : Moment := ⟨2038, 1, 19, 3, 14, 7, by decide, Moment.epoch.month_pos,
  Moment.epoch.month_le, by decide,
  by decide, by decide, by decide, by decide⟩

/-- The time is not after the last one. -/
def InRange (a : Moment) : Prop := ¬last.Before a

instance (a : Moment) : Decidable (InRange a) := inferInstanceAs (Decidable (¬_))

theorem InRange.seconds_lt (h : InRange a) : a.seconds < 2 ^ 31 := by
  have hle := Moment.seconds_le h
  have hlast : last.seconds = 86400 * (yearStart (1970 + 68) + 18) + 11647 := rfl
  rw [hlast, yearStart_eq 68 (by decide)] at hle
  omega

/-- In 2038 the month is January. -/
theorem InRange.year (h : InRange a) : a.year < 2038 ∨ a.year = 2038 ∧ a.month = 1 := by
  rw [InRange, Moment.before_iff] at h
  have hpos := a.month_pos
  have hyear : last.year = 2038 := rfl
  have hmonth : last.month = 1 := rfl
  rw [hyear, hmonth] at h
  omega

theorem kernel_mktime_eq (h : InRange a) : kernel_mktime beyond (tm_of a) = ⟨a.seconds, false⟩ := by
  have hyear := h.year
  have hge := a.year_ge
  have hpos := a.month_pos
  have hle := a.month_le
  have hday := a.day_pos
  have hlt := h.seconds_lt
  have hcount : count beyond (tm_of a) = a.seconds := count_eq (by omega)
  have hfits : count beyond (tm_of a) < 2 ^ 31 := by omega
  rw [← hcount]
  refine (kernel_mktime_exact ?_ ?_ ?_ ?_ ?_ ?_ ?_ ?_ ?_ hfits).eq <;> simp only [tm_of, fields_of] <;> omega

/-- **`kernel_mktime` is the calendar**: no step overflows, the result is the number of seconds, and a later
time has a greater one. -/
theorem kernel_mktime_counts_seconds (ha : InRange a) (hb : InRange b) :
    kernel_mktime beyond (tm_of a) = ⟨a.seconds, false⟩ ∧
      (a.Before b → (kernel_mktime beyond (tm_of a)).val < (kernel_mktime beyond (tm_of b)).val) := by
  refine ⟨kernel_mktime_eq ha, fun h => ?_⟩
  rw [kernel_mktime_eq ha, kernel_mktime_eq hb]
  exact Int.ofNat_lt.2 (Moment.seconds_lt h)

theorem kernel_mktime_counts_seconds_leap_day :
    let a : Moment := ⟨2000, 2, 29, 23, 59, 59, by decide, by decide, by decide, by decide,
      by decide, by decide, by decide, by decide⟩
    let b : Moment := ⟨2000, 3, 1, 0, 0, 0, by decide, by decide, by decide, by decide, by decide, by decide,
      by decide, by decide⟩
    kernel_mktime id (tm_of a) = ⟨a.seconds, false⟩ ∧
      (kernel_mktime id (tm_of a)).val < (kernel_mktime id (tm_of b)).val := by
  intro a b
  have h := @kernel_mktime_counts_seconds id a b (by decide) (by decide)
  exact ⟨h.1, h.2 (by decide)⟩

/-! ### The clock at boot -/

def BCD_TO_BIN (val : ℕ) : ℕ := (val &&& 15) + (val >>> 4) * 10

/-- `cmos n` is what the `n`-th read finds in the registers.  The result is `startup_time`; each round reads
seven times. -/
def time_init (beyond : ℤ → ℤ) (cmos : ℕ → ℕ → BitVec 8) : ℕ → ℕ → Option CInt
  | 0, _ => none
  | rounds + 1, n =>
    let tm_sec := (cmos n 0).toNat
    let tm_min := (cmos (n + 1) 2).toNat
    let tm_hour := (cmos (n + 2) 4).toNat
    let tm_mday := (cmos (n + 3) 7).toNat
    let tm_mon := (cmos (n + 4) 8).toNat
    let tm_year := (cmos (n + 5) 9).toNat
    if tm_sec ≠ (cmos (n + 6) 0).toNat then time_init beyond cmos rounds (n + 7)
    else some (kernel_mktime beyond ⟨BCD_TO_BIN tm_sec, BCD_TO_BIN tm_min, BCD_TO_BIN tm_hour,
      BCD_TO_BIN tm_mday, BCD_TO_BIN tm_mon - 1, BCD_TO_BIN tm_year⟩)

def bcd (n : ℕ) : BitVec 8 := BitVec.ofNat 8 (n / 10 * 16 + n % 10)

/-- The registers hold the time as long as they are read. -/
def Holds (cmos : ℕ → ℕ → BitVec 8) (a : Moment) : Prop := ∀ n, cmos n 0 = bcd a.second ∧
  cmos n 2 = bcd a.minute ∧ cmos n 4 = bcd a.hour ∧ cmos n 7 = bcd a.day ∧ cmos n 8 = bcd a.month ∧
    cmos n 9 = bcd (a.year % 100)

theorem bcd_to_bin_bcd : ∀ n < 100, BCD_TO_BIN (bcd n).toNat = n := by decide

theorem time_init_eq {cmos : ℕ → ℕ → BitVec 8} (h : Holds cmos a) (rounds n : ℕ) :
    time_init beyond cmos (rounds + 1) n = some (kernel_mktime beyond (fields_of a (a.year % 100 : ℕ))) := by
  have hday : a.day ≤ 31 := by
    have hle := a.day_le
    rw [monthLength] at hle
    split_ifs at hle <;> omega
  have hsecond := a.second_lt
  have hminute := a.minute_lt
  have hhour := a.hour_lt
  have hmonth := a.month_le
  rw [time_init]
  simp only [(h _).1, (h _).2.1, (h _).2.2.1, (h _).2.2.2.1, (h _).2.2.2.2.1, (h _).2.2.2.2.2]
  rw [if_neg (fun h => h rfl), bcd_to_bin_bcd _ (by omega), bcd_to_bin_bcd _ (by omega),
    bcd_to_bin_bcd _ (by omega), bcd_to_bin_bcd _ (by omega), bcd_to_bin_bcd _ (by omega),
    bcd_to_bin_bcd _ (by omega)]
  rfl

theorem two_digits_tdiv (hge : 2000 ≤ a.year) (hyear : a.year ≤ 2038) :
    (((a.year % 100 : ℕ) : ℤ) - 70 + 1).tdiv 4 = -((2069 - a.year) / 4) := by
  have hdigits : ((a.year % 100 : ℕ) : ℤ) - 70 + 1 = -(2069 - a.year) := by omega
  rw [hdigits, Int.neg_tdiv, Int.tdiv_eq_ediv_of_nonneg (by omega)]

/-- With the number of the century left out the count is that of a hundred years before, and the difference is
no multiple of `2^32`. -/
theorem count_two_digits (hge : 2000 ≤ a.year) (hr : InRange a) :
    ¬(2 : ℤ) ^ 32 ∣ count beyond (fields_of a (a.year % 100 : ℕ)) - a.seconds := by
  have hyear := hr.year
  have hdigits : ((a.year % 100 : ℕ) : ℤ) = a.year - 2000 := by omega
  have hlast : (a.year : ℤ) ≤ 2038 := by omega
  have hfirst : (2000 : ℤ) ≤ a.year := by omega
  rw [count_fields (by omega) (by omega), seconds_eq (by omega), two_digits_tdiv hge (by omega),
    hdigits, YEAR, DAY,
    HOUR, MINUTE]
  generalize (a.year : ℤ) = year at hlast hfirst
  rintro ⟨c, hc⟩
  have hdays : 86400 * ((2069 - year) / 4 + (year - 1969) / 4 + 36500) = -4294967296 * c := by linarith
  omega

/-- **The clock is right at boot up to the end of 1999**, and in no later year. -/
theorem boot_clock_right_iff {cmos : ℕ → ℕ → BitVec 8} {rounds : ℕ} (hr : InRange a) (h : Holds cmos a)
    (hrounds : 0 < rounds) :
    (time_init beyond cmos rounds 0).map CInt.val = some (a.seconds : ℤ) ↔ a.year < 2000 := by
  obtain ⟨rounds, rfl⟩ := Nat.exists_eq_succ_of_ne_zero hrounds.ne'
  have hge := a.year_ge
  rw [time_init_eq h, Option.map_some, Option.some_inj]
  constructor
  · intro hval
    by_contra hlate
    exact @count_two_digits beyond a (by omega) hr
      ((kernel_mktime_wrapped (by simp only [fields_of]; omega) (by simp only [fields_of]; omega)).dvd hval)
  · intro hyear
    have htm : fields_of a (a.year % 100 : ℕ) = tm_of a := by
      rw [tm_of]
      congr 1
      omega
    rw [htm, kernel_mktime_eq hr]

/-- The registers when they hold a time. -/
def showing (a : Moment) : ℕ → ℕ → BitVec 8 := fun _ addr =>
  bcd (match addr with
    | 0 => a.second
    | 2 => a.minute
    | 4 => a.hour
    | 7 => a.day
    | 8 => a.month
    | _ => a.year % 100)

theorem boot_clock_right_iff_1999 :
    let a : Moment := ⟨1999, 12, 31, 23, 59, 59, by decide, by decide, by decide, by decide,
      by decide, by decide, by decide, by decide⟩
    (time_init id (showing a) 1 0).map CInt.val = some (a.seconds : ℤ) := by
  intro a
  exact (@boot_clock_right_iff id a (showing a) 1 (by decide)
    (fun _ => ⟨rfl, rfl, rfl, rfl, rfl, rfl⟩) (by decide)).2 (by decide)

/-- In 2010 the clock is set to a time before 1970. -/
theorem boot_clock_wrong_in_2010 : ¬∀ a : Moment, InRange a → ∀ cmos, Holds cmos a → ∀ rounds, 0 < rounds →
    (time_init id cmos rounds 0).map CInt.val = some (a.seconds : ℤ) := by
  intro hall
  let a : Moment := ⟨2010, 5, 17, 12, 0, 0, by decide, by decide, by decide, by decide, by decide, by decide,
    by decide, by decide⟩
  have h := hall a (by decide) (showing a) (fun _ => ⟨rfl, rfl, rfl, rfl, rfl, rfl⟩) 1 (by decide)
  have hval : (time_init id (showing a) 1 0).map CInt.val = some (-1881576000) := by decide
  rw [hval, Option.some_inj] at h
  exact absurd h (by omega)

/-! ### The time of day -/

def HZ : CInt := 100

def EPERM : ℤ := 1

/-- The variables that `CURRENT_TIME` reads. -/
structure Timekeeper where
  startup_time : CInt
  jiffies : CInt

/-- What `sys_time` returns. -/
def Timekeeper.CURRENT_TIME (s : Timekeeper) : CInt := s.startup_time + s.jiffies / HZ

def Timekeeper.timer_interrupt (s : Timekeeper) : Timekeeper := { s with jiffies := s.jiffies + 1 }

def Timekeeper.sys_stime (suser : Bool) (t : CInt) (s : Timekeeper) : ℤ × Timekeeper :=
  if ¬suser then (-EPERM, s) else (0, { s with startup_time := t - s.jiffies / HZ })

inductive Event where
  | timer_interrupt
  | sys_stime (suser : Bool) (a : Moment)

def Timekeeper.step (s : Timekeeper) : Event → Timekeeper
  | .timer_interrupt => s.timer_interrupt
  | .sys_stime suser a => (s.sys_stime suser (a.seconds : ℤ)).2

/-- A watch that goes on to the next second with every hundredth tick. -/
structure Watch where
  time : Moment
  ticks : ℕ

def Watch.step (w : Watch) : Event → Watch
  | .timer_interrupt => ⟨if (w.ticks + 1) % 100 = 0 then w.time.next else w.time, w.ticks + 1⟩
  | .sys_stime suser a => if suser then { w with time := a } else w

/-- The kernel keeps the time of the watch, until `jiffies` overflows. -/
def Keeps (s : Timekeeper) (w : Watch) : Prop := w.ticks < 2 ^ 31 →
  Exact s.jiffies w.ticks ∧ Exact s.startup_time (w.time.seconds - w.ticks / 100)

theorem exact_seconds {s : Timekeeper} {n : ℕ} (h : Exact s.jiffies n) : Exact (s.jiffies / HZ) (n / 100) := by
  have hdiv := h.div (exact_of (show Fits 100 by decide)) (by omega)
  rwa [Int.tdiv_eq_ediv_of_nonneg (by omega)] at hdiv

theorem keeps_of {j c : CInt} {n : ℕ} (h : n < 2 ^ 31 → Exact j n ∧ Exact c (a.seconds - n / 100)) :
    Keeps ⟨c, j⟩ ⟨a, n⟩ := h

theorem Keeps.step {s : Timekeeper} {w : Watch} {e : Event} (h : Keeps s w)
    (he : ∀ b, e = .sys_stime true b → InRange b) : Keeps (s.step e) (w.step e) := by
  cases e with
  | timer_interrupt =>
    refine keeps_of fun hn => ?_
    obtain ⟨hj, hs⟩ := h (by omega)
    have hj' := hj.add (exact_of (show Fits 1 by decide)) ⟨by omega, by omega⟩
    have hnext : (((if (w.ticks + 1) % 100 = 0 then w.time.next else w.time).seconds : ℕ) : ℤ) -
        ((w.ticks + 1 : ℕ) : ℤ) / 100 = w.time.seconds - w.ticks / 100 := by
      split
      · rw [Moment.seconds_next]
        omega
      · omega
    rw [hnext, Nat.cast_succ]
    exact ⟨hj', hs⟩
  | sys_stime suser a =>
    cases suser with
    | false => exact h
    | true =>
      have ha := (he a rfl).seconds_lt
      refine keeps_of fun hn => ?_
      obtain ⟨hj, -⟩ := h hn
      exact ⟨hj, (exact_of ⟨by omega, by omega⟩).sub (exact_seconds hj) ⟨by omega, by omega⟩⟩

/-- **The kernel's time is that of a watch** set at boot and by the super-user, as long as neither `jiffies`
nor the time is more than a `long` can hold. -/
theorem clock_keeps_time {es : List Event} (ha : InRange a) (hset : ∀ b, .sys_stime true b ∈ es → InRange b)
    (hticks : (es.foldl Watch.step ⟨a, 0⟩).ticks < 2 ^ 31) (hr : InRange (es.foldl Watch.step ⟨a, 0⟩).time) :
    (es.foldl Timekeeper.step ⟨kernel_mktime beyond (tm_of a), 0⟩).CURRENT_TIME =
      ⟨(es.foldl Watch.step ⟨a, 0⟩).time.seconds, false⟩ := by
  have hlt := ha.seconds_lt
  have hboot : Keeps ⟨kernel_mktime beyond (tm_of a), 0⟩ ⟨a, 0⟩ := fun _ =>
    ⟨exact_of (by decide), ⟨by simp [kernel_mktime_eq ha], by rw [kernel_mktime_eq ha],
      by simp [Fits]; omega⟩⟩
  have hrun : Keeps (es.foldl Timekeeper.step ⟨kernel_mktime beyond (tm_of a), 0⟩)
    (es.foldl Watch.step ⟨a, 0⟩) :=
    List.foldl_rel hboot fun e he _ _ h => h.step fun b hb => hset b (hb ▸ he)
  obtain ⟨hj, hs⟩ := hrun hticks
  have hnow := hr.seconds_lt
  have hsum := hs.add (exact_seconds hj) ⟨by omega, by omega⟩
  rw [Int.sub_add_cancel] at hsum
  exact hsum.eq

/-- A second goes by before the super-user sets the time, and somebody else tries to. -/
def setLate : List Event :=
  List.replicate 100 .timer_interrupt ++ [.sys_stime true last, .timer_interrupt, .sys_stime false Moment.epoch]

theorem clock_keeps_time_last :
    (setLate.foldl Timekeeper.step ⟨kernel_mktime id (tm_of Moment.epoch), 0⟩).CURRENT_TIME =
    ⟨(setLate.foldl Watch.step ⟨Moment.epoch, 0⟩).time.seconds, false⟩ := by
  refine clock_keeps_time (by decide) (fun b hb => ?_) (by decide) (by decide)
  simp [setLate] at hb
  subst hb
  decide

end OldLinux.Clock
