import OldLinux.Lib.Numerals
import Mathlib.Algebra.BigOperators.Intervals
import Mathlib.Algebra.Order.BigOperators.Group.Finset

/-!
# The Gregorian calendar

Dates and times from 1970 on, without leap seconds.  `Moment.seconds` counts the seconds since the
beginning of 1970; it starts with 0 (`seconds_epoch`), each second adds one (`seconds_next`), and so it is
strictly increasing (`seconds_lt`).
-/

namespace OldLinux.Lib.Calendar

variable {y z m n : ℕ}

/-! ### Years and months -/

def IsLeap (year : ℕ) : Prop := year % 4 = 0 ∧ (year % 100 ≠ 0 ∨ year % 400 = 0)

instance (year : ℕ) : Decidable (IsLeap year) := inferInstanceAs (Decidable (_ ∧ _))

def yearLength (year : ℕ) : ℕ := if IsLeap year then 366 else 365

/-- January is month 1. -/
def monthLength (year month : ℕ) : ℕ :=
  if month = 2 then (if IsLeap year then 29 else 28)
  else if month = 4 ∨ month = 6 ∨ month = 9 ∨ month = 11 then 30
  else 31

/-- The days from the beginning of 1970 to the beginning of the year. -/
def yearStart (year : ℕ) : ℕ := ∑ y ∈ Finset.Ico 1970 year, yearLength y

/-- The days from the beginning of the year to the beginning of the month. -/
def monthStart (year month : ℕ) : ℕ := ∑ m ∈ Finset.Ico 1 month, monthLength year m

theorem yearStart_succ (h : 1970 ≤ y) : yearStart (y + 1) = yearStart y + yearLength y :=
  Finset.sum_Ico_succ_top h yearLength

theorem yearStart_mono (h : y ≤ z) : yearStart y ≤ yearStart z :=
  Finset.sum_le_sum_of_subset (Finset.Ico_subset_Ico_right h)

theorem monthStart_succ (h : 1 ≤ m) : monthStart y (m + 1) = monthStart y m + monthLength y m :=
  Finset.sum_Ico_succ_top h (monthLength y)

theorem monthStart_mono (h : m ≤ n) : monthStart y m ≤ monthStart y n :=
  Finset.sum_le_sum_of_subset (Finset.Ico_subset_Ico_right h)

/-- Twelve months are a year. -/
theorem monthStart_thirteen (y : ℕ) : monthStart y 13 = yearLength y := by
  by_cases h : IsLeap y <;>
    simp [monthStart, Finset.sum_Ico_eq_sum_range, Finset.sum_range_succ, monthLength, yearLength, h]

/-- Between the years in which the rule for centuries matters, every fourth year is a leap year. -/
theorem yearStart_eq (n : ℕ) (h : n ≤ 130) : yearStart (1970 + n) = 365 * n + (n + 1) / 4 := by
  induction n with
  | zero => rfl
  | succ n ih =>
    rw [← Nat.add_assoc, yearStart_succ (Nat.le_add_right 1970 n), ih (by omega), yearLength]
    split
    · rename_i hleap
      have hfour := hleap.1
      omega
    · rename_i hleap
      have hfour : ¬(1970 + n) % 4 = 0 := by
        intro hfour
        refine hleap ⟨hfour, ?_⟩
        omega
      omega

/-! ### Dates and times -/

/-- A date and a time that the calendar has. -/
structure Moment where
  year : ℕ
  month : ℕ
  day : ℕ
  hour : ℕ
  minute : ℕ
  second : ℕ
  year_ge : 1970 ≤ year
  month_pos : 1 ≤ month
  month_le : month ≤ 12
  day_pos : 1 ≤ day
  day_le : day ≤ monthLength year month
  hour_lt : hour < 24
  minute_lt : minute < 60
  second_lt : second < 60

namespace Moment

variable {a b : Moment}

/-- The days since the beginning of 1970. -/
def days (a : Moment) : ℕ := yearStart a.year + monthStart a.year a.month + (a.day - 1)

def timeOfDay (a : Moment) : ℕ := 3600 * a.hour + 60 * a.minute + a.second

/-- The seconds since the beginning of 1970. -/
def seconds (a : Moment) : ℕ := 86400 * a.days + a.timeOfDay

def fields (a : Moment) : List ℕ := [a.year, a.month, a.day, a.hour, a.minute, a.second]

/-- The order of dates and times: by the year, then by the month, and so on. -/
def Before (a b : Moment) : Prop := a.fields < b.fields

instance (a b : Moment) : Decidable (a.Before b) := inferInstanceAs (Decidable (_ < _))

theorem timeOfDay_lt (a : Moment) : a.timeOfDay < 86400 := by
  have hhour := a.hour_lt
  have hminute := a.minute_lt
  have hsecond := a.second_lt
  rw [timeOfDay]
  omega

/-- The days of a month lie before the next one. -/
theorem monthStart_add_day (a : Moment) :
    monthStart a.year a.month + (a.day - 1) < monthStart a.year (a.month + 1) := by
  have hpos := a.day_pos
  have hle := a.day_le
  rw [monthStart_succ a.month_pos]
  omega

/-- The days of a year lie before the next one. -/
theorem days_lt_yearStart (a : Moment) : a.days < yearStart (a.year + 1) := by
  have hday := a.monthStart_add_day
  have hyear : monthStart a.year (a.month + 1) ≤ monthStart a.year 13 :=
    monthStart_mono (Nat.succ_le_succ a.month_le)
  rw [monthStart_thirteen] at hyear
  rw [yearStart_succ a.year_ge, days]
  omega

theorem before_iff : a.Before b ↔ a.year < b.year ∨ a.year = b.year ∧ (a.month < b.month ∨ a.month = b.month ∧
        (a.day < b.day ∨ a.day = b.day ∧ (a.hour < b.hour ∨ a.hour = b.hour ∧
            (a.minute < b.minute ∨ a.minute = b.minute ∧ a.second < b.second)))) := by
  simp [Before, fields, List.cons_lt_cons_iff]

/-- **The count is strictly increasing.** -/
theorem seconds_lt (h : a.Before b) : a.seconds < b.seconds := by
  have htime := a.timeOfDay_lt
  have hday := a.day_pos
  rw [seconds, seconds]
  rcases before_iff.1 h with hyear | ⟨hyear, hmonth | ⟨hmonth, hday' | ⟨hday', hrest⟩⟩⟩
  · have hdays := a.days_lt_yearStart
    have hstart : yearStart (a.year + 1) ≤ yearStart b.year := yearStart_mono hyear
    have hb : yearStart b.year ≤ b.days := by
      rw [days]
      omega
    omega
  · have hdays := a.monthStart_add_day
    have hstart : monthStart a.year (a.month + 1) ≤ monthStart a.year b.month := monthStart_mono hmonth
    rw [days, days, ← hyear]
    omega
  · rw [days, days, ← hyear, ← hmonth]
    omega
  · rw [days, days, ← hyear, ← hmonth, ← hday', timeOfDay, timeOfDay]
    have := b.minute_lt
    have := a.minute_lt
    have := a.second_lt
    omega

theorem seconds_le (h : ¬b.Before a) : a.seconds ≤ b.seconds := by
  by_cases hab : a.Before b
  · exact (seconds_lt hab).le
  · rw [before_iff] at h hab
    have hyear : a.year = b.year := by omega
    have hmonth : a.month = b.month := by omega
    have hday : a.day = b.day := by omega
    have hhour : a.hour = b.hour := by omega
    have hminute : a.minute = b.minute := by omega
    have hsecond : a.second = b.second := by omega
    rw [seconds, seconds, days, days, timeOfDay, timeOfDay, hyear, hmonth, hday, hhour, hminute, hsecond]

/-! ### The first second, and the next one -/

def epoch : Moment := ⟨1970, 1, 1, 0, 0, 0, by decide, by decide, by decide, by decide, by decide, by decide,
  by decide, by decide⟩

theorem seconds_epoch : epoch.seconds = 0 := rfl

theorem one_le_monthLength (year month : ℕ) : 1 ≤ monthLength year month := by
  rw [monthLength]
  split
  · split <;> decide
  · split <;> decide

/-- The fields that are not given start again. -/
def next (a : Moment) : Moment :=
  if hs : a.second + 1 < 60 then { a with second := a.second + 1, second_lt := hs }
  else
    let a : Moment := { a with second := 0, second_lt := by decide }
    if hm : a.minute + 1 < 60 then { a with minute := a.minute + 1, minute_lt := hm }
    else
      let a : Moment := { a with minute := 0, minute_lt := by decide }
      if hh : a.hour + 1 < 24 then { a with hour := a.hour + 1, hour_lt := hh }
      else
        let a : Moment := { a with hour := 0, hour_lt := by decide }
        if hd : a.day + 1 ≤ monthLength a.year a.month then
          { a with day := a.day + 1, day_pos := Nat.succ_pos _, day_le := hd }
        else if hm : a.month + 1 ≤ 12 then
          { a with month := a.month + 1, day := 1, month_pos := Nat.succ_pos _, month_le := hm,
                   day_pos := Nat.le_refl 1, day_le := one_le_monthLength _ _ }
        else
          { a with year := a.year + 1, month := 1, day := 1, year_ge := Nat.le_succ_of_le a.year_ge,
                   month_pos := Nat.le_refl 1, month_le := by decide, day_pos := Nat.le_refl 1,
                   day_le := one_le_monthLength _ _ }

/-- **Each second adds one.** -/
theorem seconds_next (a : Moment) : a.next.seconds = a.seconds + 1 := by
  have hsecond := a.second_lt
  have hminute := a.minute_lt
  have hhour := a.hour_lt
  have hday := a.day_pos
  have hday' := a.day_le
  have hmonth := a.month_le
  rw [next]
  dsimp only
  split
  · show 86400 * a.days + (3600 * a.hour + 60 * a.minute + (a.second + 1)) = _
    rw [seconds, timeOfDay]
    omega
  · split
    · show 86400 * a.days + (3600 * a.hour + 60 * (a.minute + 1) + 0) = _
      rw [seconds, timeOfDay]
      omega
    · split
      · show 86400 * a.days + (3600 * (a.hour + 1) + 60 * 0 + 0) = _
        rw [seconds, timeOfDay]
        omega
      · split
        · show 86400 * (yearStart a.year + monthStart a.year a.month + (a.day + 1 - 1)) + 0 = _
          rw [seconds, timeOfDay, days]
          omega
        · have hlast : a.day = monthLength a.year a.month := by omega
          split
          · show 86400 * (yearStart a.year + monthStart a.year (a.month + 1) + 0) + 0 = _
            rw [seconds, timeOfDay, days, monthStart_succ a.month_pos]
            omega
          · have hdecember : a.month = 12 := by omega
            show 86400 * (yearStart (a.year + 1) + 0 + 0) + 0 = _
            rw [yearStart_succ a.year_ge, ← monthStart_thirteen, monthStart_succ (by decide),
              seconds, timeOfDay,
              days, hdecember]
            rw [hdecember] at hlast
            omega

end Moment

end OldLinux.Lib.Calendar
