import GoPosix.Lib.Calendar

/-!
# The rules of a time zone

`getDayOfMonth` and the method `eval` of a rule, from `pkg/date/date.go`. An instant is its number
of seconds since the first day of the calendar in UTC.
-/

namespace GoPosix.Date

open Calendar

/-- `time.Date` in a fixed zone. -/
def date (year month day seconds offset : Int) : Int :=
  86400 * dayNumber year month day + seconds - offset

/-- `AddDate(0, 0, days)`, in UTC. -/
def addDays (t days : Int) : Int :=
  date (yearOf (t / 86400)) (monthOf (t / 86400)) (dayOf (t / 86400) + days) (t % 86400) 0

/-- `Jn`, `n` and `Mm.w.d`. -/
inductive Day
  | julianNoLeap (julianDay : Int)
  | julianLeap (julianDay : Int)
  | monthWeekDay (month week weekday : Int)

structure PosixTZRule where
  day : Day
  timeOfTransition : Int
  isStart : Bool

def getDayOfMonth (year m w d : Int) : Int :=
  let firstWD := weekday (dayNumber year m 1)
  let day := 1 + (d - firstWD + 7) % 7
  if 1 ≤ w ∧ w ≤ 4 then day + (w - 1) * 7
  else if w = 5 then
    let daysInMonth := dayOf (dayNumber year (m + 1) 0)
    if day + 28 ≤ daysInMonth then day + 28 else day + 21
  else day

namespace PosixTZRule

def offset (r : PosixTZRule) (stdOffset dstOffset : Int) : Int :=
  if r.isStart then stdOffset else dstOffset

def eval (r : PosixTZRule) (year stdOffset dstOffset : Int) : Int :=
  let offset := r.offset stdOffset dstOffset
  let tUTC := date year 1 1 r.timeOfTransition 0
  let tLocal (tUTC : Int) :=
    date year (monthOf (tUTC / 86400)) (dayOf (tUTC / 86400)) (tUTC % 86400) offset
  match r.day with
  | .monthWeekDay month week weekday =>
    date year month (getDayOfMonth year month week weekday) r.timeOfTransition offset
  | .julianNoLeap julianDay =>
    tLocal (addDays tUTC (if isLeapYear year && 60 ≤ julianDay then julianDay else julianDay - 1))
  | .julianLeap julianDay => tLocal (addDays tUTC julianDay)

end PosixTZRule

namespace Day

def Valid : Day → Prop
  | julianNoLeap n => 1 ≤ n ∧ n ≤ 365
  | julianLeap n => 0 ≤ n ∧ n ≤ 365
  | monthWeekDay m w d => (1 ≤ m ∧ m ≤ 12) ∧ (1 ≤ w ∧ w ≤ 5) ∧ 0 ≤ d ∧ d ≤ 6

/-- The day that is meant in a year: the `n`-th without 29 February, the day with index `n`, or the
day of the month with this weekday that has `w - 1` of them before it, or none behind it. -/
def Means (year : Int) : Day → Int → Prop
  | julianNoLeap n, day =>
    let leapDay := dayNumber year 2 29
    ¬(isLeapYear year ∧ day = leapDay) ∧
      day + 1 - daysBeforeYear year - (if isLeapYear year ∧ leapDay ≤ day then 1 else 0) = n
  | julianLeap n, day => day - daysBeforeYear year = n
  | monthWeekDay m w d, day =>
    let first := dayNumber year m 1
    weekday day = d ∧ first ≤ day ∧ if w = 5 then day < dayNumber year (m + 1) 1 ∧
      dayNumber year (m + 1) 1 ≤ day + 7
      else (day - first) / 7 = w - 1

def isMonthWeekDay : Day → Bool
  | monthWeekDay .. => true
  | _ => false

end Day

theorem dayNumber_add (y m day d : Int) :
    dayNumber y m (day + d) = dayNumber y m day + d := by
  simp only [dayNumber]
  omega

theorem addDays_eq (t d : Int) : addDays t d = t + 86400 * d := by
  rw [addDays, date, dayNumber_add, dayNumber_civil]
  omega

/-- The year is that of the rule, and not of the instant. -/
theorem date_civil_iff (t y offset : Int) :
    date y (monthOf (t / 86400)) (dayOf (t / 86400)) (t % 86400) offset = t - offset ↔
      yearOf (t / 86400) = y := by
  have h : date y (monthOf (t / 86400)) (dayOf (t / 86400)) (t % 86400) offset = t - offset ↔
      dayNumber y (monthOf (t / 86400)) (dayOf (t / 86400)) = t / 86400 := by
    rw [date]
    omega
  rw [h]
  constructor
  · intro hd
    rw [← hd, yearOf_dayNumber]
  · rintro rfl
    exact dayNumber_civil _

theorem date_new_year (y s : Int) : date y 1 1 s 0 = 86400 * daysBeforeYear y + s := by
  rw [date, dayNumber_eq (by decide) (by decide)]
  simp [daysBeforeMonth]

theorem Day.means_monthWeekDay_iff (hv : (monthWeekDay m w d).Valid) (y day : Int) :
    (monthWeekDay m w d).Means y day ↔ day = dayNumber y m (getDayOfMonth y m w d) := by
  obtain ⟨hm, hw, hd⟩ := hv
  have hl := dayOf_dayNumber_zero hm.1 hm.2 y
  have hn := @dayNumber_eq (m + 1) (by omega) (by omega) y 1
  have hf := @dayNumber_eq m (by omega) (by omega) y 1
  have hday := @dayNumber_eq m (by omega) (by omega) y (getDayOfMonth y m w d)
  have h28 : 28 ≤ daysBeforeMonth (isLeapYear y) (m + 1) - daysBeforeMonth (isLeapYear y) m ∧
      daysBeforeMonth (isLeapYear y) (m + 1) - daysBeforeMonth (isLeapYear y) m ≤ 31 := by
    simp only [daysBeforeMonth]
    cases isLeapYear y <;> simp <;> omega
  rw [hday]
  simp only [Means, getDayOfMonth, weekday]
  generalize dayNumber y m 1 = first at *
  generalize dayOf (dayNumber y (m + 1) 0) = len at *
  by_cases h5 : w = 5
  · rw [if_pos h5, if_neg (show ¬(1 ≤ w ∧ w ≤ 4) by omega), if_pos h5]
    omega
  · rw [if_neg h5, if_pos (by omega)]
    omega

/-- The transitions of a rule that counts the days of the year. -/
theorem date_addDays_iff (y s d offset : Int) :
    let tUTC := addDays (date y 1 1 s 0) d
    date y (monthOf (tUTC / 86400)) (dayOf (tUTC / 86400)) (tUTC % 86400) offset =
        86400 * (daysBeforeYear y + d) + s - offset ↔
      yearOf ((86400 * (daysBeforeYear y + d) + s) / 86400) = y := by
  have h : addDays (date y 1 1 s 0) d = 86400 * (daysBeforeYear y + d) + s := by
    rw [addDays_eq, date_new_year]
    omega
  rw [h]
  exact date_civil_iff _ _ _

/-- **The instant of a transition**: a rule means one day, and it is this one unless the local time
of the transition lies in another year. -/
theorem PosixTZRule.eval_eq_iff {r : PosixTZRule} (hv : r.day.Valid)
    (year stdOffset dstOffset : Int) :
    ∃ day, (∀ d, r.day.Means year d ↔ d = day) ∧
      (r.eval year stdOffset dstOffset = 86400 * day +
        r.timeOfTransition - r.offset stdOffset dstOffset ↔
        r.day.isMonthWeekDay ∨ yearOf ((86400 * day + r.timeOfTransition) / 86400) = year) := by
  obtain ⟨day, time, isStart⟩ := r
  cases day with
  | julianNoLeap n =>
    obtain ⟨h1, h3⟩ := hv
    refine ⟨daysBeforeYear year + if isLeapYear year && 60 ≤ n then n else n - 1, fun d => ?_, ?_⟩
    · simp only [Day.Means, dayNumber_eq (show (1 : Int) ≤ 2 by decide) (by decide),
        daysBeforeMonth]
      cases isLeapYear year <;> simp <;> omega
    · simp only [eval, Day.isMonthWeekDay, Bool.false_eq_true, false_or]
      exact date_addDays_iff ..
  | julianLeap n =>
    refine ⟨daysBeforeYear year + n, fun d => ?_, ?_⟩
    · simp only [Day.Means]
      omega
    · simp only [eval, Day.isMonthWeekDay, Bool.false_eq_true, false_or]
      exact date_addDays_iff ..
  | monthWeekDay m w d =>
    exact ⟨_, Day.means_monthWeekDay_iff hv year, by simp [eval, date, Day.isMonthWeekDay]⟩

/-- The second Sunday of March, at 2 o'clock. -/
theorem PosixTZRule.eval_march : ∃ day, (∀ d, (Day.monthWeekDay 3 2 0).Means 2024 d ↔ d = day) ∧
    eval ⟨.monthWeekDay 3 2 0, 7200, true⟩ 2024 (-18000) (-14400) = 86400 * day +
      7200 - -18000 := by
  obtain ⟨day, hd, he⟩ := eval_eq_iff (r := ⟨.monthWeekDay 3 2 0, 7200, true⟩)
    ⟨by decide, by decide, by decide⟩ 2024 (-18000) (-14400)
  exact ⟨day, hd, he.mpr (.inl rfl)⟩

/-- An hour before 1 January becomes an hour before the next one. -/
theorem PosixTZRule.eval_new_year : (Day.julianNoLeap 1).Means 2023 (daysBeforeYear 2023) ∧
    eval ⟨.julianNoLeap 1, -3600, true⟩ 2023 0 0 = 86400 * daysBeforeYear 2024 - 3600 ∧
    eval ⟨.julianNoLeap 1, -3600, true⟩ 2023 0 0 ≠ 86400 * daysBeforeYear 2023 - 3600 :=
  ⟨⟨by decide, by decide⟩, by decide, by decide⟩

end GoPosix.Date
