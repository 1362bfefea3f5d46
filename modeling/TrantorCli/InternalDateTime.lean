import TrantorCli.Lib.Checked
import TrantorCli.Lib.Gregorian

/-!
# Timestamps as calendar dates

`epoch_millis_to_datetime` divides off the time of day and leaves the days to
`normalize_date`, which walks from January 1970 month by month. Each month it
passes keeps the number of the day in the calendar, so the date it stops at is
the date of that day.
-/

open Roc

namespace TrantorCli.InternalDateTime

/-- `DateTime` -/
structure DateTime where
  day : U128
  hours : U128
  minutes : U128
  month : U128
  seconds : U128
  year : U128
  deriving DecidableEq

/-- `is_leap_year` -/
def isLeapYear (year : U128) : Bool :=
  let divisibleBy4 := year % 4 == 0
  let divisibleBy100 := year % 100 == 0
  let divisibleBy400 := year % 400 == 0
  if divisibleBy4 then
    if divisibleBy100 then divisibleBy400 else true
  else false

/-- `days_in_month` -/
def daysInMonth (year month : U128) : U128 :=
  match month.toNat with
  | 1 => 31
  | 2 => if isLeapYear year then 29 else 28
  | 3 => 31
  | 4 => 30
  | 5 => 31
  | 6 => 30
  | 7 => 31
  | 8 => 31
  | 9 => 30
  | 10 => 31
  | 11 => 30
  | 12 => 31
  | _ => 0

/-- The record with which `normalize_date` calls itself. -/
def nextMonth (current : DateTime) (daysThisMonth : U128) : Checked DateTime := do
  let year ← (if current.month == 12 then Checked.addU128 current.year 1 else .ok current.year)
  let month ← (if current.month == 12 then .ok 1 else Checked.addU128 current.month 1)
  let day ← Checked.subU128 current.day daysThisMonth
  return { current with year, month, day }

/-! ### Each month passed is progress -/

private theorem daysInMonth_pos {year month : U128} (h : month.toNat = 12) :
    0 < (daysInMonth year month).toNat := by
  simp [daysInMonth, h]

/-- The day goes down, or stays while the month goes up. -/
theorem nextMonth_decreases {current next : DateTime}
    (hlong : current.day > daysInMonth current.year current.month)
    (h : nextMonth current (daysInMonth current.year current.month) = .ok next) :
    next.day.toNat < current.day.toNat ∨
      next.day.toNat = current.day.toNat ∧ current.month.toNat < next.month.toNat := by
  obtain ⟨year, -, h⟩ := Try.bind_eq_ok.mp h
  obtain ⟨month, hmonth, h⟩ := Try.bind_eq_ok.mp h
  obtain ⟨day, hday, h⟩ := Try.bind_eq_ok.mp h
  cases h
  have hday' := Checked.subU128_eq_ok.mp hday
  have hlong' : (daysInMonth current.year current.month).toNat < current.day.toNat := hlong
  simp only []
  by_cases htwelve : current.month = 12
  · have hpos : 0 < (daysInMonth current.year current.month).toNat :=
      daysInMonth_pos (by rw [htwelve]; rfl)
    omega
  · rw [if_neg (by simpa using htwelve)] at hmonth
    have hmonth' := Checked.addU128_eq_ok.mp hmonth
    have hone : (1 : U128).toNat = 1 := rfl
    omega

/-- `normalize_date` -/
def normalizeDate (current : DateTime) : Checked DateTime :=
  let daysThisMonth := daysInMonth current.year current.month
  if _hlong : current.day > daysThisMonth then
    match _hnext : nextMonth current daysThisMonth with
    | .ok next => normalizeDate next
    | .error abort => .error abort
  else .ok current
termination_by (current.day.toNat, 2 ^ 128 - current.month.toNat)
decreasing_by
  have hbound := next.month.isLt
  rcases nextMonth_decreases _hlong _hnext with hday | ⟨hday, hmonth⟩
  · exact Prod.Lex.left _ _ hday
  · rw [hday]
    exact Prod.Lex.right _ (by omega)

/-- `epoch_millis_to_datetime` -/
def epochMillisToDatetime (millis : U128) : Checked DateTime := do
  let seconds := millis / 1000
  let minutes := seconds / 60
  let hours := minutes / 60
  normalizeDate {
    year := 1970
    month := 1
    day := ← Checked.addU128 1 (hours / 24)
    hours := hours % 24
    minutes := minutes % 60
    seconds := seconds % 60 }

/-! ### The walk stays on one day of the calendar -/

private theorem isLeapYear_iff (year : U128) :
    isLeapYear year = true ↔ Gregorian.IsLeap year.toNat := by
  have hmod : ∀ n : U128, (year % n == 0) = true ↔ n.toNat ∣ year.toNat := by
    intro n
    rw [beq_iff_eq, ← BitVec.toNat_inj, BitVec.toNat_umod, Nat.dvd_iff_mod_eq_zero]
    rfl
  have h4 := hmod 4
  have h100 := hmod 100
  have h400 := hmod 400
  simp only [BitVec.reduceToNat] at h4 h100 h400
  unfold isLeapYear Gregorian.IsLeap
  simp only [h4, h100]
  grind

/-- The table of month lengths is the calendar's. -/
theorem toNat_daysInMonth {year month : U128} (hmonth : 1 ≤ month.toNat)
    (hlast : month.toNat ≤ 12) :
    (daysInMonth year month).toNat = Gregorian.monthLength year.toNat month.toNat := by
  rw [Gregorian.monthLength_eq _ hmonth hlast, daysInMonth]
  have hleap := isLeapYear_iff year
  generalize month.toNat = m at hmonth hlast
  have hcases : m = 1 ∨ m = 2 ∨ m = 3 ∨ m = 4 ∨ m = 5 ∨ m = 6 ∨ m = 7 ∨ m = 8 ∨ m = 9 ∨ m = 10 ∨
      m = 11 ∨ m = 12 := by omega
  rcases hcases with h | h | h | h | h | h | h | h | h | h | h | h <;> subst h <;> simp [hleap]
  split <;> rfl

/-- The number of the day that a record stands for, whether or not the month has that day. -/
def DateTime.number (date : DateTime) : ℕ :=
  Gregorian.dayNumber date.year.toNat date.month.toNat date.day.toNat

/-- The records that the walk passes through. -/
structure Walking (date : DateTime) : Prop where
  year : 1970 ≤ date.year.toNat
  month_pos : 1 ≤ date.month.toNat
  month_le : date.month.toNat ≤ 12
  day_pos : 1 ≤ date.day.toNat

/-- Both records have the same time of day. -/
def SameTime (a b : DateTime) : Prop :=
  a.hours = b.hours ∧ a.minutes = b.minutes ∧ a.seconds = b.seconds

/-- Passing a month keeps the day and the time. -/
theorem nextMonth_spec {current : DateTime} (h : Walking current)
    (hnumber : current.number < 2 ^ 127)
    (hlong : current.day > daysInMonth current.year current.month) :
    ∃ next, nextMonth current (daysInMonth current.year current.month) = .ok next ∧ Walking next ∧
      next.number = current.number ∧ SameTime next current := by
  have hdays : (daysInMonth current.year current.month).toNat = _ :=
    toNat_daysInMonth h.month_pos h.month_le
  have hlong' : (daysInMonth current.year current.month).toNat < current.day.toNat := hlong
  have hyear : current.year.toNat ≤ current.number + 1 := Gregorian.year_le_dayNumber _ _ _
  have hone : (1 : U128).toNat = 1 := rfl
  have htwelve : (12 : U128).toNat = 12 := rfl
  obtain ⟨day, hday, hday'⟩ := Checked.subU128_of_le (Nat.le_of_lt hlong')
  by_cases hdecember : current.month = 12
  · obtain ⟨year, hyear', hsucc⟩ :=
      Checked.addU128_of_lt (a := current.year) (b := 1) (by omega)
    refine ⟨{ current with year, month := 1, day }, ?_, ⟨?_, ?_, ?_, ?_⟩, ?_, rfl, rfl, rfl⟩
    · rw [nextMonth, if_pos (by simpa using hdecember), if_pos (by simpa using hdecember), hyear',
        hday]
      rfl
    · simp only [hsucc]
      have := h.year
      omega
    · simp
    · simp
    · simp only [hday']
      omega
    · have hmonth : current.month.toNat = 12 := by rw [hdecember]; rfl
      rw [hmonth] at hdays
      unfold DateTime.number
      simp only [hsucc, hday', hdays, hone, hmonth]
      refine Gregorian.dayNumber_nextYear ?_ (by omega)
      have := h.year
      omega
  · have hmonth : current.month.toNat ≠ 12 := fun heq => hdecember (BitVec.toNat_inj.mp heq)
    have hle := h.month_le
    obtain ⟨month, hmonth', hsucc⟩ :=
      Checked.addU128_of_lt (a := current.month) (b := 1) (by omega)
    refine ⟨{ current with month, day }, ?_, ⟨h.year, ?_, ?_, ?_⟩, ?_, rfl, rfl, rfl⟩
    · rw [nextMonth, if_neg (by simpa using hdecember), if_neg (by simpa using hdecember), hmonth',
        hday]
      rfl
    · simp only [hsucc]
      omega
    · simp only [hsucc]
      omega
    · simp only [hday']
      omega
    · unfold DateTime.number
      simp only [hsucc, hday', hdays, hone]
      exact Gregorian.dayNumber_nextMonth _ h.month_pos (by omega) (by omega)

/-- The walk ends on a date of the calendar, the one it was set out for. -/
theorem normalizeDate_spec {current : DateTime} (h : Walking current)
    (hnumber : current.number < 2 ^ 127) :
    ∃ date, normalizeDate current = .ok date ∧ Walking date ∧
      date.day.toNat ≤ (daysInMonth date.year date.month).toNat ∧ date.number = current.number ∧
      SameTime date current := by
  induction current using normalizeDate.induct with
  | case1 current days hlong next hnext ih =>
    obtain ⟨next', hnext', hwalking, hsame, htime⟩ := nextMonth_spec h hnumber hlong
    obtain rfl : next = next' := Except.ok.inj (hnext.symm.trans hnext')
    obtain ⟨date, hdate, hdate', hday, hnumber', htime'⟩ := ih hwalking (by omega)
    refine ⟨date, ?_, hdate', hday, hnumber'.trans hsame, htime'.1.trans htime.1,
      htime'.2.1.trans htime.2.1, htime'.2.2.trans htime.2.2⟩
    rw [normalizeDate, dif_pos hlong]
    split
    · next other hother =>
      obtain rfl : next = other := Except.ok.inj (hnext.symm.trans hother)
      exact hdate
    · next abort hother => exact absurd (hnext.symm.trans hother) (by simp)
  | case2 current days hlong abort hnext =>
    obtain ⟨next, hnext', -⟩ := nextMonth_spec h hnumber hlong
    exact absurd (hnext.symm.trans hnext') (by simp)
  | case3 current days hshort =>
    refine ⟨current, ?_, h, Nat.le_of_not_lt hshort, rfl, rfl, rfl, rfl⟩
    rw [normalizeDate, dif_neg hshort]

/-- A timestamp becomes the calendar date and time of day of its second. -/
theorem epochMillisToDatetime_correct (millis : U128) :
    ∃ date, epochMillisToDatetime millis = .ok date ∧ 1970 ≤ date.year.toNat ∧
      1 ≤ date.month.toNat ∧ date.month.toNat ≤ 12 ∧ 1 ≤ date.day.toNat ∧
      date.day.toNat ≤ (daysInMonth date.year date.month).toNat ∧ date.hours.toNat < 24 ∧
      date.minutes.toNat < 60 ∧ date.seconds.toNat < 60 ∧
      Gregorian.epochDay date.year.toNat date.month.toNat date.day.toNat * 86400 +
        date.hours.toNat * 3600 + date.minutes.toNat * 60 + date.seconds.toNat =
      (millis.toNat / 1000 : ℕ) := by
  have hmillis := millis.isLt
  have hdays : (millis / 1000 / 60 / 60 / 24).toNat = millis.toNat / 1000 / 60 / 60 / 24 := by simp
  have hone : (1 : U128).toNat = 1 := rfl
  obtain ⟨day, hday, hday'⟩ :=
    Checked.addU128_of_lt (a := 1) (b := millis / 1000 / 60 / 60 / 24) (by omega)
  let start : DateTime :=
    { year := 1970, month := 1, day, hours := millis / 1000 / 60 / 60 % 24,
      minutes := millis / 1000 / 60 % 60, seconds := millis / 1000 % 60 }
  have hstart : epochMillisToDatetime millis = normalizeDate start := by
    rw [epochMillisToDatetime, hday]
    rfl
  have hnumber : start.number =
      Gregorian.dayNumber 1970 1 1 + millis.toNat / 1000 / 60 / 60 / 24 := by
    unfold DateTime.number Gregorian.dayNumber
    simp only [start, hday', hone, hdays, BitVec.reduceToNat]
    omega
  have hwalking : Walking start := by
    refine ⟨by simp [start], by simp [start], by simp [start], ?_⟩
    simp only [start, hday', hone]
    omega
  have hepoch : Gregorian.dayNumber 1970 1 1 = 719163 := by decide
  obtain ⟨date, hdate, hdate', hlast, hkept, hhours, hminutes, hseconds⟩ :=
    normalizeDate_spec hwalking (by omega)
  have hhours' : date.hours.toNat = millis.toNat / 1000 / 60 / 60 % 24 := by
    rw [hhours]
    simp [start]
  have hminutes' : date.minutes.toNat = millis.toNat / 1000 / 60 % 60 := by
    rw [hminutes]
    simp [start]
  have hseconds' : date.seconds.toNat = millis.toNat / 1000 % 60 := by
    rw [hseconds]
    simp [start]
  refine ⟨date, hstart.trans hdate, hdate'.year, hdate'.month_pos, hdate'.month_le, hdate'.day_pos,
    hlast, by omega, by omega, by omega, ?_⟩
  have hkept' : Gregorian.dayNumber date.year.toNat date.month.toNat date.day.toNat =
      start.number := hkept
  rw [Gregorian.epochDay, hkept', hnumber]
  omega

end TrantorCli.InternalDateTime
