import Mathlib.Order.SuccPred.IntervalSucc

/-!
# The proleptic Gregorian calendar

Days are numbered from 1 January of the year 1, and the dates of a month out of range are those of
another year.
-/

namespace GoPosix.Calendar

def isLeapYear (year : Int) : Bool := year % 4 = 0 ∧ (year % 100 ≠ 0 ∨ year % 400 = 0)

def daysBeforeYear (year : Int) : Int :=
  365 * (year - 1) + (year - 1) / 4 - (year - 1) / 100 + (year - 1) / 400

def daysBeforeMonth (leap : Bool) (month : Int) : Int :=
  (367 * month - 362) / 12 - if month ≤ 2 then 0 else if leap then 1 else 2

def dayNumber (year month day : Int) : Int :=
  let y := year + (month - 1) / 12
  daysBeforeYear y + daysBeforeMonth (isLeapYear y) ((month - 1) % 12 + 1) + day - 1

/-- Sunday is 0. -/
def weekday (n : Int) : Int := (n + 1) % 7

-- the years of 400, 100 and 4 years and a rest; the last of four parts has a day more
def yearOf (n : Int) : Int :=
  let r := n % 146097
  let c := min (r / 36524) 3
  let r := r - 36524 * c
  400 * (n / 146097) + 100 * c + 4 * (r / 1461) + min (r % 1461 / 365) 3 + 1

def monthAt (leap : Bool) (yday : Int) : Int :=
  (12 * (yday + if yday < daysBeforeMonth leap 3 then 0 else if leap then 1 else 2) + 373) / 367

def monthOf (n : Int) : Int := monthAt (isLeapYear (yearOf n)) (n - daysBeforeYear (yearOf n))

def dayOf (n : Int) : Int :=
  n + 1 - daysBeforeYear (yearOf n) - daysBeforeMonth (isLeapYear (yearOf n)) (monthOf n)

theorem daysBeforeYear_succ (y : Int) :
    daysBeforeYear (y + 1) = daysBeforeYear y + if isLeapYear y then 366 else 365 := by
  simp only [daysBeforeYear, isLeapYear, decide_eq_true_eq]
  split <;> omega

theorem daysBeforeYear_lt_iff : daysBeforeYear ye < daysBeforeYear y ↔ ye < y := by
  refine (strictMono_int_of_lt_succ fun ye => ?_).lt_iff_lt
  rw [daysBeforeYear_succ]
  split <;> omega

theorem yearOf_spec (n : Int) :
    daysBeforeYear (yearOf n) ≤ n ∧ n < daysBeforeYear (yearOf n + 1) := by
  have hn := Int.mul_ediv_add_emod n 146097
  have hr : 0 ≤ n % 146097 ∧ n % 146097 < 146097 := by omega
  rw [daysBeforeYear_succ]
  generalize hy : yearOf n = y
  simp only [yearOf] at hy
  generalize n / 146097 = a, n % 146097 = r at *
  generalize hb : min (r / 36524) 3 = b at hy
  generalize hs : r - 36524 * b = s at hy
  generalize hc : s / 1461 = c at hy
  generalize he : min (s % 1461 / 365) 3 = e at hy
  have h4 : (y - 1) / 4 = 100 * a + 25 * b + c := by omega
  have h1 : (y - 1) / 100 = 4 * a + b := by omega
  have h40 : (y - 1) / 400 = a := by omega
  simp only [daysBeforeYear, isLeapYear, decide_eq_true_eq, h4, h1, h40]
  split <;> omega

theorem yearOf_eq_iff :
    yearOf n = year ↔ daysBeforeYear year ≤ n ∧ n < daysBeforeYear (year + 1) := by
  have h := yearOf_spec n
  refine ⟨fun hy => hy ▸ h, fun hy => ?_⟩
  have h1 := daysBeforeYear_lt_iff.mp (h.1.trans_lt hy.2)
  have h2 := daysBeforeYear_lt_iff.mp (hy.1.trans_lt h.2)
  omega

theorem monthAt_spec (h : 0 ≤ yday ∧ yday < if leap then 366 else 365) (l : Bool) :
    1 ≤ monthAt leap yday ∧ monthAt leap yday ≤ 12 ∧
      0 ≤ daysBeforeMonth l (monthAt leap yday) + yday - daysBeforeMonth leap (monthAt leap yday) ∧
      daysBeforeMonth l (monthAt leap yday) + yday - daysBeforeMonth leap (monthAt leap yday) < if l
          then 366 else 365 := by
  generalize hm : monthAt leap yday = m
  simp only [monthAt, daysBeforeMonth] at hm ⊢
  cases leap <;> cases l <;> simp at * <;> omega

theorem dayNumber_eq (h1 : 1 ≤ month) (h13 : month ≤ 13) (y d : Int) : dayNumber y month d =
    daysBeforeYear y + daysBeforeMonth (isLeapYear y) month + d - 1 := by
  by_cases h : month = 13
  · simp [h, dayNumber, daysBeforeYear_succ, daysBeforeMonth]
    split <;> omega
  · have hy : (month - 1) / 12 = 0 := by omega
    have hm : (month - 1) % 12 + 1 = month := by omega
    simp only [dayNumber, hy, hm, Int.add_zero]

theorem yday_spec (n : Int) : 0 ≤ n - daysBeforeYear (yearOf n) ∧
    n - daysBeforeYear (yearOf n) < if isLeapYear (yearOf n) then 366 else 365 := by
  have h := yearOf_spec n
  rw [daysBeforeYear_succ] at h
  omega

theorem dayNumber_civil (n : Int) : dayNumber (yearOf n) (monthOf n) (dayOf n) = n := by
  obtain ⟨h1, h12, -⟩ := monthAt_spec (yday_spec n) false
  rw [@dayNumber_eq (monthOf n) h1 (by rw [monthOf]; omega), dayOf]
  omega

/-- A date is one of every year. -/
theorem yearOf_dayNumber (n y : Int) : yearOf (dayNumber y (monthOf n) (dayOf n)) = y := by
  obtain ⟨h1, h12, h0, hlt⟩ := monthAt_spec (yday_spec n) (isLeapYear y)
  rw [yearOf_eq_iff, daysBeforeYear_succ, @dayNumber_eq (monthOf n) h1 (by rw [monthOf]; omega),
    dayOf, monthOf]
  omega

/-- The last day of a month. -/
theorem dayOf_dayNumber_zero (h1 : 1 ≤ month) (h12 : month ≤ 12) (y : Int) :
    dayOf (dayNumber y (month + 1) 0) = daysBeforeMonth (isLeapYear y) (month + 1) -
      daysBeforeMonth (isLeapYear y) month := by
  have hy : yearOf (dayNumber y (month + 1) 0) = y := by
    rw [yearOf_eq_iff, daysBeforeYear_succ, dayNumber_eq (by omega) (by omega), daysBeforeMonth]
    cases isLeapYear y <;> simp <;> omega
  have hm : monthOf (dayNumber y (month + 1) 0) = month := by
    rw [monthOf, hy, dayNumber_eq (by omega) (by omega), monthAt]
    simp only [daysBeforeMonth]
    cases isLeapYear y <;> simp <;> omega
  rw [dayOf, hm, hy, dayNumber_eq (by omega) (by omega)]
  omega

end GoPosix.Calendar
