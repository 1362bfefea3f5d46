import TrantorCli.Utc

/-!
# Timestamps sort as text

Of two dates the earlier one has the smaller first field in which they differ, and
the fields are written one after the other with as many digits each. So the text
of timestamps sorts as the seconds they fall in.
-/

open Roc Decimal

namespace TrantorCli

namespace InternalDateTime

/-- What stands at a place of the pattern: a digit for a letter of a field, and anything else for
itself. -/
def Stands (place : Char) (byte : UInt8) : Prop :=
  if place ∈ ['Y', 'M', 'D', 'h', 'm', 's'] then IsDigit byte else byte.toNat = place.val.toNat

/-- The seconds from the day before the first of the calendar. -/
def DateTime.instant (date : DateTime) : ℕ :=
  date.number * 86400 + date.hours.toNat * 3600 + date.minutes.toNat * 60 + date.seconds.toNat

/-- A date and a time of day. -/
structure IsDateTime (date : DateTime) : Prop where
  isDate : Gregorian.IsDate date.year.toNat date.month.toNat date.day.toNat
  hours : date.hours.toNat < 24
  minutes : date.minutes.toNat < 60
  seconds : date.seconds.toNat < 60

/-- Twenty bytes that write the date and the time of day of a second, counted from 1970 on, in the
form of a timestamp. -/
structure IsoForm (second : ℕ) (bytes : List UInt8) : Prop where
  length : bytes.length = 20
  places : List.Forall₂ Stands "YYYY-MM-DDThh:mm:ssZ".toList bytes
  fields : ∃ date, IsDateTime date ∧ date.year.toNat ≤ 9999 ∧
    date.instant = Gregorian.dayNumber 1970 1 1 * 86400 + second ∧ bytes = isoBytes date

/-- `a` is before `b` in the first field in which they differ. -/
def Before (a b : DateTime) : Prop :=
  a.year.toNat < b.year.toNat ∨ a.year.toNat = b.year.toNat ∧
    (a.month.toNat < b.month.toNat ∨ a.month.toNat = b.month.toNat ∧
      (a.day.toNat < b.day.toNat ∨ a.day.toNat = b.day.toNat ∧
        (a.hours.toNat < b.hours.toNat ∨ a.hours.toNat = b.hours.toNat ∧
          (a.minutes.toNat < b.minutes.toNat ∨ a.minutes.toNat = b.minutes.toNat ∧
            a.seconds.toNat < b.seconds.toNat))))

variable {a b date : DateTime}

/-- The one of fewer seconds is before the other. -/
theorem before_of_seconds_lt (ha : IsDateTime a) (hb : IsDateTime b)
    (hlt : a.instant < b.instant) : Before a b := by
  have hhours := ha.hours
  have hminutes := ha.minutes
  have hseconds := ha.seconds
  have hhours' := hb.hours
  have hminutes' := hb.minutes
  have hseconds' := hb.seconds
  unfold DateTime.instant at hlt
  unfold Before
  obtain hnumber | hnumber | hnumber := Nat.lt_trichotomy a.number b.number
  · have hdate := ha.isDate.lt_of_dayNumber_lt hb.isDate hnumber
    omega
  · obtain ⟨hyear, hmonth, hday⟩ := ha.isDate.eq_of_dayNumber_eq hb.isDate hnumber
    omega
  · omega

/-- What is before sorts before. -/
theorem isoBytes_lt (hb : Fits b) (h : Before a b) : isoBytes a < isoBytes b := by
  refine padded_append_lt hb.year (h.imp_right fun ⟨hyear, h⟩ => ⟨hyear, ?_⟩)
  refine padded_append_lt hb.month (h.imp_right fun ⟨hmonth, h⟩ => ⟨hmonth, ?_⟩)
  refine padded_append_lt hb.day (h.imp_right fun ⟨hday, h⟩ => ⟨hday, ?_⟩)
  refine padded_append_lt hb.hours (h.imp_right fun ⟨hhours, h⟩ => ⟨hhours, ?_⟩)
  refine padded_append_lt hb.minutes (h.imp_right fun ⟨hminutes, h⟩ => ⟨hminutes, ?_⟩)
  exact padded_append_lt hb.seconds (.inl h)

private theorem IsDateTime.fits (h : IsDateTime date) (hyear : date.year.toNat ≤ 9999) :
    Fits date := by
  have hmonth := h.isDate.month_le
  have hday := h.isDate.day_le
  have hlength := Gregorian.monthLength_pos date.year.toNat h.isDate.month_pos h.isDate.month_le
  have hhours := h.hours
  have hminutes := h.minutes
  have hseconds := h.seconds
  refine ⟨?_, ?_, ?_, ?_, ?_, ?_⟩ <;> omega

private theorem stands_isoBytes (date : DateTime) :
    List.Forall₂ Stands "YYYY-MM-DDThh:mm:ssZ".toList (isoBytes date) := by
  have hplaces : "YYYY-MM-DDThh:mm:ssZ".toList = ['Y', 'Y', 'Y', 'Y', '-', 'M', 'M', '-', 'D', 'D',
      'T', 'h', 'h', ':', 'm', 'm', ':', 's', 's', 'Z'] := rfl
  rw [hplaces]
  simp [isoBytes, padded, Stands, isDigit_digit, Nat.mod_lt]

private theorem isoForm_isoBytes {second : ℕ} (h : IsDateTime date) (hyear : date.year.toNat ≤ 9999)
    (hsecond : date.instant = Gregorian.dayNumber 1970 1 1 * 86400 + second) :
    IsoForm second (isoBytes date) :=
  ⟨by simp [isoBytes], stands_isoBytes date, date, h, hyear, hsecond, rfl⟩

/-- What a timestamp becomes. -/
theorem epochMillisToDatetime_isDateTime (millis : U128) :
    ∃ date, epochMillisToDatetime millis = .ok date ∧ IsDateTime date ∧
      date.instant = Gregorian.dayNumber 1970 1 1 * 86400 + millis.toNat / 1000 := by
  obtain ⟨date, hdate, hyear, hmonth, hmonth', hday, hday', hhours, hminutes, hseconds, hnumber⟩ :=
    epochMillisToDatetime_correct millis
  rw [toNat_daysInMonth hmonth hmonth'] at hday'
  refine ⟨date, hdate, ⟨⟨by omega, hmonth, hmonth', hday, hday'⟩, hhours, hminutes, hseconds⟩, ?_⟩
  rw [Gregorian.epochDay] at hnumber
  unfold DateTime.instant DateTime.number
  omega

end InternalDateTime

namespace Utc

open InternalDateTime

/-- The year of a timestamp is at most 9999. -/
def FourDigitYear (nanos : U128) : Prop :=
  ∃ date, epochMillisToDatetime (toMillisSinceEpoch nanos) = .ok date ∧ date.year.toNat ≤ 9999

/-- The years up to 9999 end with that many seconds. -/
theorem fourDigitYear_iff (nanos : U128) :
    FourDigitYear nanos ↔ nanos.toNat / 10 ^ 9 < 253402300800 := by
  obtain ⟨date, hdate, hdateTime, hinstant⟩ :=
    epochMillisToDatetime_isDateTime (toMillisSinceEpoch nanos)
  have hmillis : (toMillisSinceEpoch nanos).toNat = nanos.toNat / 1000000 := by
    simp [toMillisSinceEpoch]
  have hhours := hdateTime.hours
  have hminutes := hdateTime.minutes
  have hseconds := hdateTime.seconds
  have hepoch : Gregorian.dayNumber 1970 1 1 = 719163 := by decide
  rw [hmillis, hepoch] at hinstant
  unfold DateTime.instant at hinstant
  constructor
  · rintro ⟨date', hdate', hyear⟩
    obtain rfl : date' = date := Except.ok.inj (hdate'.symm.trans hdate)
    have hnext : Gregorian.IsDate 10000 1 1 :=
      ⟨by decide, by decide, by decide, by decide, by decide⟩
    have hlt : date'.number < Gregorian.dayNumber 10000 1 1 :=
      hdateTime.isDate.dayNumber_lt hnext (.inl (by omega))
    have hnumber : Gregorian.dayNumber 10000 1 1 = 3652060 := by decide
    omega
  · intro hlt
    refine ⟨date, hdate, ?_⟩
    by_contra hyear
    have hyears := Gregorian.daysBeforeYear_mono (by decide : 1 ≤ 10000)
      (by omega : 10000 ≤ date.year.toNat)
    have hnumber : Gregorian.daysBeforeYear 10000 = 3652059 := by decide
    have hday := hdateTime.isDate.day_pos
    unfold DateTime.number Gregorian.dayNumber at hinstant
    omega

/-- What a timestamp becomes depends on its second alone. -/
theorem toIso8601_congr {s t : U128} (h : s.toNat / 10 ^ 9 = t.toNat / 10 ^ 9) :
    toIso8601 s = toIso8601 t := by
  have hmillis : toMillisSinceEpoch s / 1000 = toMillisSinceEpoch t / 1000 := by
    rw [← BitVec.toNat_inj]
    simp only [toMillisSinceEpoch, BitVec.toNat_udiv, BitVec.reduceToNat]
    omega
  rw [toIso8601, toIso8601, epochMillisToDatetime, epochMillisToDatetime, hmillis]

private theorem toIso8601_eq {nanos : U128} (h : FourDigitYear nanos) :
    ∃ date, toIso8601 nanos = .ok (InternalDateTime.toIso8601 date) ∧ IsDateTime date ∧
      date.year.toNat ≤ 9999 ∧
      date.instant = Gregorian.dayNumber 1970 1 1 * 86400 + nanos.toNat / 10 ^ 9 := by
  obtain ⟨date, hdate, hyear⟩ := h
  obtain ⟨date', hdate', hdateTime, hinstant⟩ :=
    epochMillisToDatetime_isDateTime (toMillisSinceEpoch nanos)
  obtain rfl : date = date' := Except.ok.inj (hdate.symm.trans hdate')
  refine ⟨date, by rw [toIso8601, hdate]; rfl, hdateTime, hyear, ?_⟩
  have hmillis : (toMillisSinceEpoch nanos).toNat = nanos.toNat / 1000000 := by
    simp [toMillisSinceEpoch]
  rw [hinstant, hmillis]
  omega

/-- Timestamps of the years up to 9999 are twenty bytes that write the date and the time of day of
their second; they sort as time does and are the same for the same second alone. -/
theorem toIso8601_sorted {s t : U128} (hs : FourDigitYear s) (ht : FourDigitYear t) (hle : s ≤ t) :
    ∃ a b, toIso8601 s = .ok a ∧ toIso8601 t = .ok b ∧ a.bytes ≤ b.bytes ∧
      (a = b ↔ s.toNat / 10 ^ 9 = t.toNat / 10 ^ 9) ∧
      IsoForm (s.toNat / 10 ^ 9) a.bytes ∧ IsoForm (t.toNat / 10 ^ 9) b.bytes := by
  obtain ⟨a, ha, haDate, haYear, haInstant⟩ := toIso8601_eq hs
  obtain ⟨b, hb, hbDate, hbYear, hbInstant⟩ := toIso8601_eq ht
  have haBytes := bytes_toIso8601 (haDate.fits haYear)
  have hbBytes := bytes_toIso8601 (hbDate.fits hbYear)
  have hnanos : s.toNat ≤ t.toNat := hle
  suffices hsorted : (InternalDateTime.toIso8601 a).bytes ≤ (InternalDateTime.toIso8601 b).bytes ∧
      (InternalDateTime.toIso8601 a = InternalDateTime.toIso8601 b ↔
        s.toNat / 10 ^ 9 = t.toNat / 10 ^ 9) from
    ⟨_, _, ha, hb, hsorted.1, hsorted.2,
      by rw [haBytes]; exact isoForm_isoBytes haDate haYear haInstant,
      by rw [hbBytes]; exact isoForm_isoBytes hbDate hbYear hbInstant⟩
  by_cases hsecond : s.toNat / 10 ^ 9 = t.toNat / 10 ^ 9
  · have heq : InternalDateTime.toIso8601 a = InternalDateTime.toIso8601 b :=
      Except.ok.inj (ha.symm.trans ((toIso8601_congr hsecond).trans hb))
    rw [heq]
    exact ⟨List.le_refl _, iff_of_true rfl hsecond⟩
  · have hbefore : Before a b := before_of_seconds_lt haDate hbDate (by omega)
    have hlt := isoBytes_lt (hbDate.fits hbYear) hbefore
    rw [← haBytes, ← hbBytes] at hlt
    refine ⟨List.le_of_lt hlt, iff_of_false (fun heq => ?_) hsecond⟩
    rw [heq] at hlt
    exact List.lt_irrefl _ hlt

/-- The last second of February 2024 and the first of March. -/
theorem toIso8601_sorted_february : ∃ a b, toIso8601 1709251199999999999 = .ok a ∧
    toIso8601 1709251200000000000 = .ok b ∧ a.bytes ≤ b.bytes ∧ a ≠ b ∧
    IsoForm 1709251199 a.bytes ∧ IsoForm 1709251200 b.bytes := by
  have hs : FourDigitYear 1709251199999999999 := (fourDigitYear_iff _).mpr (by decide)
  have ht : FourDigitYear 1709251200000000000 := (fourDigitYear_iff _).mpr (by decide)
  obtain ⟨a, b, ha, hb, hsorted, hsame, haForm, hbForm⟩ := toIso8601_sorted hs ht (by decide)
  exact ⟨a, b, ha, hb, hsorted, fun heq => absurd (hsame.mp heq) (by decide), haForm, hbForm⟩

end Utc

end TrantorCli
