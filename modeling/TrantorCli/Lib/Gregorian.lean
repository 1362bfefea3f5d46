import Mathlib.Data.Nat.Basic

/-!
# The proleptic Gregorian calendar

`dayNumber` numbers the dates from year 1 on by a closed formula: whole years
of 365 days with the leap days so far, whole months at their mean length of
367/12 days with February corrected, and the day of the month. The numbering
goes on from month to month and from year to year, which is all that a program
counting in months needs to know of it.
-/

namespace Gregorian

/-- Every fourth year, except for the centuries that 400 does not divide. -/
def IsLeap (year : ℕ) : Prop := 4 ∣ year ∧ (100 ∣ year → 400 ∣ year)

instance (year : ℕ) : Decidable (IsLeap year) :=
  inferInstanceAs (Decidable (4 ∣ year ∧ (100 ∣ year → 400 ∣ year)))

/-- The days of the years from 1 up to `year`. -/
def daysBeforeYear (year : ℕ) : ℕ :=
  365 * (year - 1) + (year - 1) / 4 - (year - 1) / 100 + (year - 1) / 400

/-- By how much February falls short of the mean month, once it is over. -/
def februaryShortfall (year month : ℕ) : ℕ :=
  if month ≤ 2 then 0 else if IsLeap year then 1 else 2

/-- The days of the months of `year` up to `month`. -/
def daysBeforeMonth (year month : ℕ) : ℕ :=
  (367 * month - 362) / 12 - februaryShortfall year month

/-- The number of a date, where 1 January of year 1 has number 1. -/
def dayNumber (year month day : ℕ) : ℕ := daysBeforeYear year + daysBeforeMonth year month + day

/-- The days from 1 January 1970 to a date. -/
def epochDay (year month day : ℕ) : ℤ := dayNumber year month day - dayNumber 1970 1 1

/-- The length of a month, by what it adds to the numbering. -/
def monthLength (year month : ℕ) : ℕ :=
  daysBeforeMonth year (month + 1) - daysBeforeMonth year month

/-- No day of a year is before January. -/
@[simp] theorem daysBeforeMonth_one (year : ℕ) : daysBeforeMonth year 1 = 0 := rfl

/-- The calendar's month lengths. -/
theorem monthLength_eq {month : ℕ} (year : ℕ) (hmonth : 1 ≤ month) (hlast : month ≤ 12) :
    monthLength year month =
      if month = 2 then (if IsLeap year then 29 else 28)
      else if month = 4 ∨ month = 6 ∨ month = 9 ∨ month = 11 then 30 else 31 := by
  have hcases : month = 1 ∨ month = 2 ∨ month = 3 ∨ month = 4 ∨ month = 5 ∨ month = 6 ∨ month = 7 ∨
      month = 8 ∨ month = 9 ∨ month = 10 ∨ month = 11 ∨ month = 12 := by omega
  unfold monthLength daysBeforeMonth februaryShortfall
  by_cases hleap : IsLeap year
  · rcases hcases with h | h | h | h | h | h | h | h | h | h | h | h <;> subst h <;> simp [hleap]
  · rcases hcases with h | h | h | h | h | h | h | h | h | h | h | h <;> subst h <;> simp [hleap]

/-- A month has from 28 to 31 days. -/
theorem monthLength_pos {month : ℕ} (year : ℕ) (hmonth : 1 ≤ month) (hlast : month ≤ 12) :
    28 ≤ monthLength year month ∧ monthLength year month ≤ 31 := by
  rw [monthLength_eq year hmonth hlast]
  split
  · split <;> omega
  · split <;> omega

/-- The next month starts where the month ends. -/
theorem daysBeforeMonth_succ {month : ℕ} (year : ℕ) (hmonth : 1 ≤ month) (hlast : month ≤ 12) :
    daysBeforeMonth year (month + 1) = daysBeforeMonth year month + monthLength year month := by
  have hpos := monthLength_pos year hmonth hlast
  unfold monthLength at hpos ⊢
  omega

/-- The next year starts where December ends. -/
theorem daysBeforeYear_succ {year : ℕ} (hyear : 1 ≤ year) :
    daysBeforeYear (year + 1) = daysBeforeYear year + daysBeforeMonth year 13 := by
  obtain ⟨n, rfl⟩ : ∃ n, year = n + 1 := ⟨year - 1, by omega⟩
  -- each quotient grows by one exactly in the years it counts
  have hfour : (n + 1) / 4 = n / 4 + if 4 ∣ n + 1 then 1 else 0 := Nat.succ_div
  have hcentury : (n + 1) / 100 = n / 100 + if 100 ∣ n + 1 then 1 else 0 := Nat.succ_div
  have hera : (n + 1) / 400 = n / 400 + if 400 ∣ n + 1 then 1 else 0 := Nat.succ_div
  have hle : n / 100 ≤ n / 4 := Nat.div_le_div_left (by decide) (by decide)
  have hdvd : 100 ∣ n + 1 → 4 ∣ n + 1 := Nat.dvd_trans (by decide)
  have hdvd' : 400 ∣ n + 1 → 100 ∣ n + 1 := Nat.dvd_trans (by decide)
  unfold daysBeforeYear daysBeforeMonth februaryShortfall IsLeap
  rw [if_neg (by omega), Nat.add_sub_cancel, Nat.add_sub_cancel, hfour, hcentury, hera]
  generalize n / 4 = a at hle ⊢
  generalize n / 100 = b at hle ⊢
  generalize n / 400 = c
  by_cases h4 : 4 ∣ n + 1
  · by_cases h100 : 100 ∣ n + 1
    · by_cases h400 : 400 ∣ n + 1
      · simp only [h4, h100, h400, if_true, true_and, imp_self]
        omega
      · simp only [h4, h100, h400, if_true, if_false, true_and, true_imp_iff]
        omega
    · have h400 := mt hdvd' h100
      simp only [h4, h100, h400, if_true, if_false, true_and, false_imp_iff]
      omega
  · have h100 := mt hdvd h4
    have h400 := mt hdvd' h100
    simp only [h4, h100, h400, if_false, false_and]
    omega

/-- A day beyond the end of a month is a day of the next month. -/
theorem dayNumber_nextMonth {month day : ℕ} (year : ℕ) (hmonth : 1 ≤ month) (hlast : month < 12)
    (hday : monthLength year month ≤ day) :
    dayNumber year (month + 1) (day - monthLength year month) = dayNumber year month day := by
  have hsucc := daysBeforeMonth_succ year hmonth (by omega)
  unfold dayNumber
  omega

/-- A day beyond the end of December is a day of the next January. -/
theorem dayNumber_nextYear {year day : ℕ} (hyear : 1 ≤ year) (hday : monthLength year 12 ≤ day) :
    dayNumber (year + 1) 1 (day - monthLength year 12) = dayNumber year 12 day := by
  have hsucc : daysBeforeMonth year 13 = daysBeforeMonth year 12 + monthLength year 12 :=
    daysBeforeMonth_succ year (by omega) (by omega)
  have hyears := daysBeforeYear_succ hyear
  unfold dayNumber
  rw [daysBeforeMonth_one]
  omega

/-- A year never has a number above that of its days. -/
theorem year_le_dayNumber (year month day : ℕ) : year ≤ dayNumber year month day + 1 := by
  unfold dayNumber daysBeforeYear
  omega

/-! ### The order of dates -/

/-- A date of the calendar. -/
structure IsDate (year month day : ℕ) : Prop where
  year_pos : 1 ≤ year
  month_pos : 1 ≤ month
  month_le : month ≤ 12
  day_pos : 1 ≤ day
  day_le : day ≤ monthLength year month

private theorem daysBeforeMonth_mono {year month month' : ℕ} (hmonth : 1 ≤ month)
    (hle : month ≤ month')
    (hlast : month' ≤ 13) : daysBeforeMonth year month ≤ daysBeforeMonth year month' := by
  induction month', hle using Nat.le_induction with
  | base => exact Nat.le_refl _
  | succ month' hle ih =>
    have hsucc := daysBeforeMonth_succ year (by omega : 1 ≤ month') (by omega)
    have := ih (by omega)
    omega

/-- Later years begin later. -/
theorem daysBeforeYear_mono {year year' : ℕ} (hyear : 1 ≤ year) (hle : year ≤ year') :
    daysBeforeYear year ≤ daysBeforeYear year' := by
  induction year', hle using Nat.le_induction with
  | base => exact Nat.le_refl _
  | succ year' hle ih =>
    have hsucc := daysBeforeYear_succ (by omega : 1 ≤ year')
    omega

variable {year month day year' month' day' : ℕ}

/-- A date is not after the end of its month. -/
theorem IsDate.le_nextMonth (h : IsDate year month day) :
    daysBeforeMonth year month + day ≤ daysBeforeMonth year (month + 1) := by
  have hsucc := daysBeforeMonth_succ year h.month_pos h.month_le
  have := h.day_le
  omega

/-- Earlier dates have smaller numbers. -/
theorem IsDate.dayNumber_lt (h : IsDate year month day) (h' : IsDate year' month' day')
    (hlt : year < year' ∨ year = year' ∧ (month < month' ∨ month = month' ∧ day < day')) :
    dayNumber year month day < dayNumber year' month' day' := by
  have hpos := h'.day_pos
  have hend := h.le_nextMonth
  unfold dayNumber
  obtain hyear | ⟨rfl, hmonth | ⟨rfl, hday⟩⟩ := hlt
  · have hmonths : daysBeforeMonth year (month + 1) ≤ daysBeforeMonth year 13 :=
      daysBeforeMonth_mono (by omega) (Nat.succ_le_succ h.month_le) (Nat.le_refl 13)
    have hyears := daysBeforeYear_mono (by omega : 1 ≤ year + 1) hyear
    have hsucc := daysBeforeYear_succ h.year_pos
    omega
  · have hlast := h'.month_le
    have hmonths : daysBeforeMonth year (month + 1) ≤ daysBeforeMonth year month' :=
      daysBeforeMonth_mono (by omega) hmonth (by omega)
    omega
  · omega

/-- Dates with smaller numbers are earlier. -/
theorem IsDate.lt_of_dayNumber_lt (h : IsDate year month day) (h' : IsDate year' month' day')
    (hlt : dayNumber year month day < dayNumber year' month' day') :
    year < year' ∨ year = year' ∧ (month < month' ∨ month = month' ∧ day < day') := by
  by_contra hnot
  have hback : (year = year' ∧ month = month' ∧ day = day') ∨
      year' < year ∨ year' = year ∧ (month' < month ∨ month' = month ∧ day' < day) := by omega
  obtain ⟨rfl, rfl, rfl⟩ | hback := hback
  · exact Nat.lt_irrefl _ hlt
  · exact Nat.lt_asymm hlt (h'.dayNumber_lt h hback)

/-- Dates with the same number are the same. -/
theorem IsDate.eq_of_dayNumber_eq (h : IsDate year month day) (h' : IsDate year' month' day')
    (heq : dayNumber year month day = dayNumber year' month' day') :
    year = year' ∧ month = month' ∧ day = day' := by
  by_contra hnot
  have hapart : (year < year' ∨ year = year' ∧ (month < month' ∨ month = month' ∧ day < day')) ∨
      year' < year ∨ year' = year ∧ (month' < month ∨ month' = month ∧ day' < day) := by omega
  obtain hlt | hlt := hapart
  · exact absurd heq (Nat.ne_of_lt (h.dayNumber_lt h' hlt))
  · exact absurd heq.symm (Nat.ne_of_lt (h'.dayNumber_lt h hlt))

end Gregorian
