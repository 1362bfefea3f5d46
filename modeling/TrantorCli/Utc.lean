import TrantorCli.InternalDateTime
import TrantorCli.Lib.Decimal.Padded
import TrantorCli.Lib.Str

/-!
# Timestamps as text

A date is written with its fields padded to a fixed width. Timestamps of the
years up to 9999 are then as many characters each, and sort as text the way they
sort in time.
-/

open Roc

namespace TrantorCli

namespace InternalDateTime

/-- `U128.to_str` -/
def u128ToStr (n : U128) : Str := ⟨Decimal.decimal n.toNat, (Decimal.ascii_decimal n.toNat).valid⟩

/-- `year_with_padded_zeros` -/
def yearWithPaddedZeros (year : U128) : Str :=
  let yearStr := u128ToStr year
  if year < 10 then (Str.lit "000").concat yearStr
  else if year < 100 then (Str.lit "00").concat yearStr
  else if year < 1000 then (Str.lit "0").concat yearStr
  else yearStr

/-- `two_digits` -/
def twoDigits (value : U128) : Str :=
  let valueStr := u128ToStr value
  if value < 10 then (Str.lit "0").concat valueStr else valueStr

/-- `to_iso_8601` -/
def toIso8601 (date : DateTime) : Str :=
  let yearStr := yearWithPaddedZeros date.year
  let monthStr := twoDigits date.month
  let dayStr := twoDigits date.day
  let hourStr := twoDigits date.hours
  let minuteStr := twoDigits date.minutes
  let secondsStr := twoDigits date.seconds
  yearStr.concat ((Str.lit "-").concat (monthStr.concat ((Str.lit "-").concat (dayStr.concat
    ((Str.lit "T").concat (hourStr.concat ((Str.lit ":").concat (minuteStr.concat
      ((Str.lit ":").concat (secondsStr.concat (Str.lit "Z")))))))))))

end InternalDateTime

namespace Utc

/-- `Utc.to_millis_since_epoch` -/
def toMillisSinceEpoch (nanos : U128) : U128 := nanos / 1000000

/-- `Utc.to_iso_8601` -/
def toIso8601 (nanos : U128) : Checked Str := do
  let millis := toMillisSinceEpoch nanos
  let datetime ← InternalDateTime.epochMillisToDatetime millis
  return InternalDateTime.toIso8601 datetime

end Utc

namespace InternalDateTime

open Decimal

/-! ### Fields -/

/-- The bytes of a date that fits its fields. -/
def isoBytes (date : DateTime) : List UInt8 :=
  padded 4 date.year.toNat ++ 45 :: (padded 2 date.month.toNat ++ 45 :: (padded 2 date.day.toNat ++
    84 :: (padded 2 date.hours.toNat ++ 58 :: (padded 2 date.minutes.toNat ++
      58 :: (padded 2 date.seconds.toNat ++ [90])))))

/-- The fields fit their widths. -/
structure Fits (date : DateTime) : Prop where
  year : date.year.toNat < 10 ^ 4
  month : date.month.toNat < 10 ^ 2
  day : date.day.toNat < 10 ^ 2
  hours : date.hours.toNat < 10 ^ 2
  minutes : date.minutes.toNat < 10 ^ 2
  seconds : date.seconds.toNat < 10 ^ 2

private theorem bytes_yearWithPaddedZeros {year : U128} (h : year.toNat < 10 ^ 4) :
    (yearWithPaddedZeros year).bytes = padded 4 year.toNat := by
  rw [yearWithPaddedZeros]
  simp only [BitVec.lt_def, BitVec.reduceToNat]
  generalize hn : year.toNat = n at h
  have hstr : (u128ToStr year).bytes = decimal n := by rw [← hn]; rfl
  split
  · have hone : decimal n = padded 1 n := decimal_of_lt_ten (by omega)
    have hpadded : padded 4 n = 48 :: 48 :: 48 :: padded 1 n := by
      rw [padded_of_lt (by omega), padded_of_lt (by omega), padded_of_lt (by omega)]
    rw [hpadded, ← hone, ← hstr]
    rfl
  · split
    · have htwo : decimal n = padded 2 n := decimal_eq_padded (by omega) (by omega)
      have hpadded : padded 4 n = 48 :: 48 :: padded 2 n := by
        rw [padded_of_lt (by omega), padded_of_lt (by omega)]
      rw [hpadded, ← htwo, ← hstr]
      rfl
    · split
      · have hthree : decimal n = padded 3 n := decimal_eq_padded (by omega) (by omega)
        have hpadded : padded 4 n = 48 :: padded 3 n := padded_of_lt (by omega)
        rw [hpadded, ← hthree, ← hstr]
        rfl
      · rw [hstr]
        exact decimal_eq_padded (by omega) (by omega)

private theorem bytes_twoDigits {value : U128} (h : value.toNat < 10 ^ 2) :
    (twoDigits value).bytes = padded 2 value.toNat := by
  rw [twoDigits]
  simp only [BitVec.lt_def, BitVec.reduceToNat]
  generalize hn : value.toNat = n at h
  have hstr : (u128ToStr value).bytes = decimal n := by rw [← hn]; rfl
  split
  · have hone : decimal n = padded 1 n := decimal_of_lt_ten (by omega)
    have hpadded : padded 2 n = 48 :: padded 1 n := padded_of_lt (by omega)
    rw [hpadded, ← hone, ← hstr]
    rfl
  · rw [hstr]
    exact decimal_eq_padded (by omega) (by omega)

/-- The text has the bytes of the form. -/
theorem bytes_toIso8601 {date : DateTime} (h : Fits date) :
    (toIso8601 date).bytes = isoBytes date := by
  rw [isoBytes, ← bytes_yearWithPaddedZeros h.year, ← bytes_twoDigits h.month,
    ← bytes_twoDigits h.day, ← bytes_twoDigits h.hours, ← bytes_twoDigits h.minutes,
    ← bytes_twoDigits h.seconds]
  rfl

end InternalDateTime

end TrantorCli
