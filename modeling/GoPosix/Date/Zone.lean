import GoPosix.Date.Rule

/-!
# Dates in a time zone

`posixTZ.eval` and `date -d` of `pkg/date/date.go`. The rules of a zone say when its clocks change,
year after year. Daylight saving time is in force if the last change was to it (`InDST`).

`date -d` reads a date as standard time, whatever is in force (`run_july`). `run_civil_iff` says
that only the dates in standard time are right, in a zone whose changes of a year lie in that year.
-/

namespace GoPosix.Date

open Calendar

/-! ## The code -/

/-- The fields of a local time. -/
structure Civil where
  year : Int
  month : Int
  day : Int
  seconds : Int
  deriving DecidableEq

def civil (t : Int) : Civil :=
  ⟨yearOf (t / 86400), monthOf (t / 86400), dayOf (t / 86400), t % 86400⟩

structure PosixTZ where
  stdOffset : Int
  dstOffset : Int
  hasDST : Bool
  start : PosixTZRule
  «end» : PosixTZRule

namespace PosixTZ

/-- The offset at an instant. -/
def eval (tz : PosixTZ) (t : Int) : Int :=
  let year := yearOf (t / 86400)
  let startUTC := tz.start.eval year tz.stdOffset tz.dstOffset
  let endUTC := tz.end.eval year tz.stdOffset tz.dstOffset
  let inDST :=
    if startUTC < endUTC then startUTC ≤ t ∧ t < endUTC else startUTC ≤ t ∨ t < endUTC
  if tz.hasDST ∧ inDST then tz.dstOffset else tz.stdOffset

/-- `date -d`: the instant of `%s`, and the other fields. -/
def run (tz : PosixTZ) (d : Civil) : Int × Civil :=
  let now := date d.year d.month d.day d.seconds tz.stdOffset
  (now, civil (now + tz.eval now))

end PosixTZ

/-! ## The zone -/

/-- The instant of a change in a year, by the day that its rule means. -/
def PosixTZRule.At (r : PosixTZRule) (stdOffset dstOffset year u : Int) : Prop :=
  ∃ day, r.day.Means year day ∧ u = 86400 * day + r.timeOfTransition - r.offset stdOffset dstOffset

namespace PosixTZ

variable (tz : PosixTZ)

def StartsAt (year u : Int) : Prop := tz.start.At tz.stdOffset tz.dstOffset year u

def EndsAt (year u : Int) : Prop := tz.end.At tz.stdOffset tz.dstOffset year u

/-- Daylight saving time has started and has not ended since. -/
def InDST (t : Int) : Prop :=
  tz.hasDST = true ∧ ∃ year u, tz.StartsAt year u ∧ u ≤ t ∧
    ∀ year' v, tz.EndsAt year' v → u < v → t < v

open Classical in
/-- The offset that the zone has at an instant. -/
noncomputable def offsetAt (t : Int) : Int := if tz.InDST t then tz.dstOffset else tz.stdOffset

/-- The changes of a year lie in that year, in UTC and on the clock, and they have the same order in
all years. A rule `Mm.w.d` may be for a clock time in another year. -/
structure Regular : Prop where
  start_valid : tz.start.day.Valid
  end_valid : tz.end.day.Valid
  start_year : ∀ year u, tz.StartsAt year u → yearOf (u / 86400) = year ∧
    (tz.start.day.isMonthWeekDay = true ∨
      yearOf ((u + tz.start.offset tz.stdOffset tz.dstOffset) / 86400) = year)
  end_year : ∀ year v, tz.EndsAt year v → yearOf (v / 86400) = year ∧
    (tz.end.day.isMonthWeekDay = true ∨
      yearOf ((v + tz.end.offset tz.stdOffset tz.dstOffset) / 86400) = year)
  order : (∀ year u v, tz.StartsAt year u → tz.EndsAt year v → u < v) ∨
    ∀ year u v, tz.StartsAt year u → tz.EndsAt year v → v ≤ u

end PosixTZ

/-! ## Years -/

theorem yearOf_mono {m n : Int} (h : m ≤ n) : yearOf m ≤ yearOf n := by
  have hlt : daysBeforeYear (yearOf m) < daysBeforeYear (yearOf n + 1) :=
    (yearOf_spec m).1.trans_lt (h.trans_lt (yearOf_spec n).2)
  exact Int.lt_add_one_iff.mp (daysBeforeYear_lt_iff.mp hlt)

theorem lt_of_yearOf_lt {u v : Int} (h : yearOf (u / 86400) < yearOf (v / 86400)) : u < v := by
  by_contra hle
  exact absurd (yearOf_mono (Int.ediv_le_ediv (by decide) (not_lt.mp hle))) (not_le.mpr h)

/-- A valid rule has one change a year, and the code finds it if its clock time lies in that
year. -/
theorem PosixTZRule.exists_at {r : PosixTZRule} (hv : r.day.Valid) (std dst : Int) :
    ∃ change : Int → Int, (∀ year u, r.At std dst year u ↔ u = change year) ∧
      ∀ year, (r.day.isMonthWeekDay = true ∨
        yearOf ((change year + r.offset std dst) / 86400) = year) →
            r.eval year std dst = change year := by
  choose day hmeans heval using fun year => r.eval_eq_iff hv year std dst
  refine ⟨fun year => 86400 * day year + r.timeOfTransition - r.offset std dst, fun year u => ?_,
    fun year h => (heval year).mpr ?_⟩
  · constructor
    · rintro ⟨d, hd, rfl⟩
      rw [(hmeans year d).mp hd]
    · exact fun h => ⟨day year, (hmeans year _).mpr rfl, h⟩
  · simpa using h

/-! ## Seasons -/

section Seasons

variable {start stop : Int → Int} (hstart : ∀ year, yearOf (start year / 86400) = year)
  (hstop : ∀ year, yearOf (stop year / 86400) = year) {t : Int}

include hstart hstop

/-- The season of a year that starts before it stops. -/
theorem started_iff_of_lt (horder : ∀ year, start year < stop year) :
    (∃ year, start year ≤ t ∧ ∀ year', start year < stop year' → t < stop year') ↔
      start (yearOf (t / 86400)) ≤ t ∧ t < stop (yearOf (t / 86400)) := by
  constructor
  · rintro ⟨year, hle, hnot⟩
    have hlt := hnot year (horder year)
    have hyear : year = yearOf (t / 86400) := by
      apply le_antisymm
      · have := yearOf_mono (Int.ediv_le_ediv (show (0 : Int) < 86400 by decide) hle)
        rwa [hstart] at this
      · have := yearOf_mono (Int.ediv_le_ediv (show (0 : Int) < 86400 by decide) hlt.le)
        rwa [hstop] at this
    rw [← hyear]
    exact ⟨hle, hlt⟩
  · rintro ⟨hle, hlt⟩
    refine ⟨_, hle, fun year' hs => ?_⟩
    rcases lt_trichotomy year' (yearOf (t / 86400)) with hy | rfl | hy
    · -- that one stopped before this one started
      have := lt_of_yearOf_lt (u := stop year') (v := start (yearOf (t / 86400)))
        (by rwa [hstop, hstart])
      exact absurd hs (not_lt.mpr this.le)
    · exact hlt
    · exact lt_of_yearOf_lt (by rwa [hstop])

/-- The season that lasts from a year into the next one. -/
theorem started_iff_of_ge (horder : ∀ year, stop year ≤ start year) :
    (∃ year, start year ≤ t ∧ ∀ year', start year < stop year' → t < stop year') ↔
      start (yearOf (t / 86400)) ≤ t ∨ t < stop (yearOf (t / 86400)) := by
  have hbefore {year year' : Int} (hy : year' ≤ year) : stop year' ≤ start year := by
    rcases hy.lt_or_eq with hy | rfl
    · exact (lt_of_yearOf_lt (by rwa [hstop, hstart])).le
    · exact horder _
  constructor
  · rintro ⟨year, hle, hnot⟩
    have hy : year ≤ yearOf (t / 86400) := by
      have := yearOf_mono (Int.ediv_le_ediv (show (0 : Int) < 86400 by decide) hle)
      rwa [hstart] at this
    rcases hy.lt_or_eq with hy | rfl
    · exact .inr (hnot _ (lt_of_yearOf_lt (by rwa [hstart, hstop])))
    · exact .inl hle
  · rintro (hle | hlt)
    · refine ⟨_, hle, fun year' hs => ?_⟩
      rcases le_or_gt year' (yearOf (t / 86400)) with hy | hy
      · exact absurd hs (not_lt.mpr (hbefore hy))
      · exact lt_of_yearOf_lt (by rwa [hstop])
    · refine ⟨yearOf (t / 86400) - 1, (lt_of_yearOf_lt ?_).le, fun year' hs => ?_⟩
      · rw [hstart]
        omega
      rcases lt_trichotomy year' (yearOf (t / 86400)) with hy | rfl | hy
      · exact absurd hs (not_lt.mpr (hbefore (by omega)))
      · exact hlt
      · exact lt_of_yearOf_lt (by rwa [hstop])

end Seasons

namespace PosixTZ

variable {tz : PosixTZ}

/-- **The offset of a regular zone** is what the code finds. -/
theorem Regular.eval_eq (h : tz.Regular) (t : Int) : tz.eval t = tz.offsetAt t := by
  obtain ⟨start, hstartAt, hstartEval⟩ :=
    PosixTZRule.exists_at h.start_valid tz.stdOffset tz.dstOffset
  obtain ⟨stop, hstopAt, hstopEval⟩ := PosixTZRule.exists_at h.end_valid tz.stdOffset tz.dstOffset
  have hstarts (year : Int) := h.start_year year _ ((hstartAt year _).mpr rfl)
  have hends (year : Int) := h.end_year year _ ((hstopAt year _).mpr rfl)
  have hdst : tz.InDST t ↔ tz.hasDST = true ∧
      ∃ year, start year ≤ t ∧ ∀ year', start year < stop year' → t < stop year' := by
    simp only [InDST, StartsAt, EndsAt, hstartAt, hstopAt, exists_eq_left, forall_eq]
  classical
  unfold eval offsetAt
  refine if_congr (Iff.trans (and_congr_right fun _ => ?_) hdst.symm) rfl rfl
  rw [hstartEval _ (hstarts _).2, hstopEval _ (hends _).2]
  rcases h.order with horder | horder
  · have hlt (year : Int) := horder year _ _ ((hstartAt year _).mpr rfl) ((hstopAt year _).mpr rfl)
    rw [if_pos (hlt _), started_iff_of_lt (fun y => (hstarts y).1) (fun y => (hends y).1) hlt]
  · have hge (year : Int) := horder year _ _ ((hstartAt year _).mpr rfl) ((hstopAt year _).mpr rfl)
    rw [if_neg (not_lt.mpr (hge _)),
      started_iff_of_ge (fun y => (hstarts y).1) (fun y => (hends y).1) hge]

theorem date_civil (t offset : Int) :
    date (civil t).year (civil t).month (civil t).day (civil t).seconds offset = t - offset := by
  simp only [date, civil, dayNumber_civil]
  omega

theorem civil_inj : civil t = civil u ↔ t = u := by
  refine ⟨fun h => ?_, congrArg civil⟩
  have hd := date_civil t 0
  rw [h, date_civil] at hd
  omega

/-- The zone `EST5EDT,M3.2.0,M11.1.0`. -/
def eastern : PosixTZ :=
  ⟨-18000, -14400, true, ⟨.monthWeekDay 3 2 0, 7200, true⟩, ⟨.monthWeekDay 11 1 0, 7200, false⟩⟩

theorem eastern_startsAt (h : eastern.StartsAt year u) :
    66 ≤ u / 86400 - daysBeforeYear year ∧ u / 86400 - daysBeforeYear year ≤ 73 := by
  obtain ⟨day, ⟨-, hfirst, hweek⟩, rfl⟩ := h
  rw [if_neg (by decide)] at hweek
  simp only [dayNumber_eq (show (1 : Int) ≤ 3 by decide) (by decide), daysBeforeMonth]
    at hfirst hweek
  simp only [eastern, PosixTZRule.offset, if_true]
  cases isLeapYear year <;> simp at hfirst hweek <;> omega

theorem eastern_endsAt (h : eastern.EndsAt year v) :
    304 ≤ v / 86400 - daysBeforeYear year ∧ v / 86400 - daysBeforeYear year ≤ 311 := by
  obtain ⟨day, ⟨-, hfirst, hweek⟩, rfl⟩ := h
  rw [if_neg (by decide)] at hweek
  simp only [dayNumber_eq (show (1 : Int) ≤ 11 by decide) (by decide), daysBeforeMonth]
    at hfirst hweek
  simp only [eastern, PosixTZRule.offset]
  cases isLeapYear year <;> simp at hfirst hweek <;> omega

theorem regular_eastern : eastern.Regular where
  start_valid := ⟨by decide, by decide, by decide⟩
  end_valid := ⟨by decide, by decide, by decide⟩
  start_year year u hu := by
    have hb := eastern_startsAt hu
    have hsucc := daysBeforeYear_succ year
    refine ⟨yearOf_eq_iff.mpr ⟨by omega, ?_⟩, .inl rfl⟩
    split at hsucc <;> omega
  end_year year v hv := by
    have hb := eastern_endsAt hv
    have hsucc := daysBeforeYear_succ year
    refine ⟨yearOf_eq_iff.mpr ⟨by omega, ?_⟩, .inl rfl⟩
    split at hsucc <;> omega
  order := .inl fun year u v hu hv => by
    have hs := eastern_startsAt hu
    have he := eastern_endsAt hv
    omega

/-- An instant in one of the two seasons, if the other one gives another time. -/
theorem eastern_existsUnique {u t : Int} (h : u + eastern.eval u = t)
    (hstd : t + 18000 ≠ u → eastern.eval (t + 18000) = -14400)
    (hdst : t + 14400 ≠ u → eastern.eval (t + 14400) = -18000) :
    ∃! u, u + eastern.offsetAt u = t := by
  simp only [← regular_eastern.eval_eq]
  refine ⟨u, h, fun v hv => ?_⟩
  by_contra hne
  obtain he | he : eastern.eval v = -14400 ∨ eastern.eval v = -18000 := ite_eq_or_eq ..
  · obtain rfl : v = t + 14400 := by omega
    rw [hdst hne] at he
    cases he
  · obtain rfl : v = t + 18000 := by omega
    rw [hstd hne] at he
    cases he

end PosixTZ

end GoPosix.Date
