import TrantorCli.Lib.Checked.Arithmetic
import TrantorCli.Url.Component
import TrantorCli.Url.Text

/-!
# Arithmetic on bytes and positions

The helpers of `Url.roc` that add, subtract, multiply or divide, with operations
that abort out of range. Each is in range under the test that guards it in the
source, and then returns what the helper returns.
-/

open Roc Roc.Checked

namespace TrantorCli.Url.Arith

/-- `hex_value` -/
def hexValue (byte : UInt8) : Checked UInt8 :=
  if byte ≤ 57 then subU8 byte 48 else if byte ≤ 70 then subU8 byte 55 else subU8 byte 87

/-- `hex_digit_byte` -/
def hexDigitByte (value : UInt8) : Checked UInt8 :=
  if value < 10 then addU8 value 48 else addU8 value 55

/-- `lower_hex_digit_byte` -/
def lowerHexDigitByte (value : UInt8) : Checked UInt8 :=
  if value < 10 then addU8 value 48 else addU8 value 87

/-- `ascii_upper_hex` -/
def asciiUpperHex (byte : UInt8) : Checked UInt8 :=
  if 97 ≤ byte && byte ≤ 102 then subU8 byte 32 else return byte

/-- What `ascii_lower` does to each byte. -/
def lowerByte (byte : UInt8) : Checked UInt8 :=
  if 65 ≤ byte && byte ≤ 90 then addU8 byte 32 else return byte

/-- `ascii_lower` -/
def asciiLower (input : Str) : Checked Str := do
  return Str.fromUtf8Lossy (← input.toUtf8.mapM lowerByte)

/-- `append_percent_byte` -/
def appendPercentByte (out : List UInt8) (byte : UInt8) : Checked (List UInt8) := do
  let high ← hexDigitByte (← divU8 byte 16)
  let low ← hexDigitByte (← remU8 byte 16)
  return out ++ [37] ++ [high] ++ [low]

/-- `last_or_zero` -/
def lastOrZero (list : List UInt8) : Checked UInt8 :=
  if list.isEmpty then return 0
  else do
    let last ← subU64 list.length 1
    return getOrZero list last

/-- `trim_brackets` -/
def trimBrackets (str : Str) : Checked Str :=
  let bytes := str.toUtf8
  if bytes.length < 2 then return .lit ""
  else do
    let len ← subU64 bytes.length 2
    return Str.fromUtf8Lossy (sublist bytes 1 len)

/-- `ends_with` -/
def endsWith (str suffix : Str) : Checked Bool :=
  if suffix.isEmpty then return true
  else do
    let parts := str.splitOn suffix
    let last ← subU64 parts.length 1
    match parts[last]? with
    | some last => return last.isEmpty
    | none => return false

/-- `split_last` -/
def splitLast (str separator : Str) : Checked (Option (Str × Str)) :=
  let parts := str.splitOn separator
  if parts.length > 1 then do
    let last ← subU64 parts.length 1
    match parts[last]? with
    | some after => return some (Str.joinWith parts.dropLast separator, after)
    | none => return none
  else return none

/-- `percent_encode` -/
def percentEncode (input : Str) : Checked Str := do
  let encoded ← input.toUtf8.foldlM
    (fun out byte =>
      if isUnreserved byte then return out ++ [byte] else appendPercentByte out byte) []
  return Str.fromUtf8Lossy encoded

/-- `form_encode` -/
def formEncode (input : Str) : Checked Str := do
  let encoded ← input.toUtf8.foldlM
    (fun out byte =>
      if byte == 32 then return out ++ [43]
      else if isFormUnescaped byte then return out ++ [byte]
      else appendPercentByte out byte) []
  return Str.fromUtf8Lossy encoded

/-! ### Each is in range -/

/-- A difference of bytes is in range when the test before it says so. -/
theorem subU8_of {a b : UInt8} (h : b ≤ a) : subU8 a b = .ok (a - b) :=
  guarded_of (UInt8.le_iff_toNat_le.mp h)

/-- The value of a hex digit takes no overflow. -/
theorem hexValue_ok {byte : UInt8} (h : isHex byte = true) :
    hexValue byte = .ok (Url.hexValue byte) := by
  rw [hexValue, Url.hexValue]
  split
  · have hlow : 48 ≤ byte := by grind
    exact subU8_of hlow
  split
  · have hlow : 55 ≤ byte := by grind
    exact subU8_of hlow
  · have hlow : 87 ≤ byte := by grind
    exact subU8_of hlow

/-- The value of a hex digit is below sixteen. -/
theorem hexValue_lt {byte : UInt8} (h : isHex byte = true) : (Url.hexValue byte).toNat < 16 := by
  have hlt : Url.hexValue byte < 16 := by grind
  exact UInt8.lt_iff_toNat_lt.mp hlt

/-- A digit stays in range under an offset that leaves room for sixteen. -/
theorem addU8_digit {value offset : UInt8} (h : value < 16) (hoffset : offset.toNat ≤ 240) :
    addU8 value offset = .ok (value + offset) := by
  have hlt : value.toNat < 16 := UInt8.lt_iff_toNat_lt.mp h
  exact guarded_of (by omega)

private theorem hexDigitByte_ok {value : UInt8} (h : value < 16) :
    hexDigitByte value = .ok (Url.hexDigitByte value) := by
  rw [hexDigitByte, Url.hexDigitByte]
  split
  · exact addU8_digit h (by decide)
  · exact addU8_digit h (by decide)

/-- A hex digit is written without an overflow. -/
theorem lowerHexDigitByte_ok {value : UInt8} (h : value < 16) :
    lowerHexDigitByte value = .ok (Url.lowerHexDigitByte value) := by
  rw [lowerHexDigitByte, Url.lowerHexDigitByte]
  split
  · exact addU8_digit h (by decide)
  · exact addU8_digit h (by decide)

/-- Raising a hex digit takes no overflow. -/
theorem asciiUpperHex_ok (byte : UInt8) : asciiUpperHex byte = .ok (Url.asciiUpperHex byte) := by
  rw [asciiUpperHex, Url.asciiUpperHex]
  split
  · have hlow : 32 ≤ byte := by grind
    exact subU8_of hlow
  · rfl

private theorem lowerByte_ok (byte : UInt8) : lowerByte byte = .ok (Url.lowerByte byte) := by
  rw [lowerByte, Url.lowerByte]
  split
  · next hupper =>
    have hhigh : byte ≤ 90 := by grind
    have hle : byte.toNat ≤ 90 := UInt8.le_iff_toNat_le.mp hhigh
    refine guarded_of ?_
    simp only [UInt8.reduceToNat]
    omega
  · rfl

/-- Lowercasing takes no overflow. -/
theorem asciiLower_ok (input : Str) : asciiLower input = .ok (Url.asciiLower input) := by
  rw [asciiLower, mapM_ok fun byte _ => lowerByte_ok byte]
  rfl

/-- Escaping a byte takes no overflow. -/
theorem appendPercentByte_ok (out : List UInt8) (byte : UInt8) :
    appendPercentByte out byte = .ok (Url.appendPercentByte out byte) := by
  obtain ⟨hhigh, hlow⟩ := digits_lt byte
  have hsixteen : (16 : UInt8) ≠ 0 := by decide
  rw [appendPercentByte, divU8_of hsixteen, Try.ok_bind, hexDigitByte_ok hhigh, Try.ok_bind,
    remU8_of hsixteen, Try.ok_bind, hexDigitByte_ok hlow]
  rfl

/-- The last byte is found without an overflow. -/
theorem lastOrZero_ok (list : List UInt8) : lastOrZero list = .ok (Url.lastOrZero list) := by
  rw [lastOrZero, Url.lastOrZero]
  by_cases hempty : list.isEmpty = true
  · rw [if_pos hempty, if_pos hempty]
    rfl
  · have hpos := List.length_pos_iff.mpr (mt List.isEmpty_iff.mpr hempty)
    rw [if_neg hempty, if_neg hempty, subU64, guarded_of (by omega)]
    rfl

/-- Taking off brackets takes no overflow. -/
theorem trimBrackets_ok (str : Str) : trimBrackets str = .ok (Url.trimBrackets str) := by
  simp only [trimBrackets, Url.trimBrackets, Str.toUtf8_eq]
  by_cases hshort : str.bytes.length < 2
  · rw [if_pos hshort, if_pos hshort]
    rfl
  · rw [if_neg hshort, if_neg hshort, subU64, guarded_of (by omega)]
    rfl

/-- A split has a last piece. -/
theorem subU64_splitOn (str separator : Str) :
    subU64 (str.splitOn separator).length 1 = .ok ((str.splitOn separator).length - 1) := by
  have hpos := List.length_pos_iff.mpr (Str.splitOn_ne_nil str separator)
  exact guarded_of (by omega)

/-- Looking at an end takes no overflow. -/
theorem endsWith_ok (str suffix : Str) : endsWith str suffix = .ok (Url.endsWith str suffix) := by
  rw [endsWith, Url.endsWith]
  by_cases hempty : suffix.isEmpty = true
  · rw [if_pos hempty, if_pos hempty]
    rfl
  · rw [if_neg hempty, if_neg hempty]
    simp only [subU64_splitOn, Try.ok_bind]
    cases (str.splitOn suffix)[(str.splitOn suffix).length - 1]? <;> rfl

/-- Cutting at the last separator takes no overflow. -/
theorem splitLast_ok (str separator : Str) :
    splitLast str separator = .ok (Url.splitLast str separator) := by
  rw [splitLast, Url.splitLast]
  by_cases hlen : (str.splitOn separator).length > 1
  · simp only [if_pos hlen, subU64_splitOn, Try.ok_bind]
    cases (str.splitOn separator)[(str.splitOn separator).length - 1]? <;> rfl
  · simp only [if_neg hlen]
    rfl

/-- Escaping takes no overflow. -/
theorem percentEncode_ok (input : Str) : percentEncode input = .ok (Url.percentEncode input) := by
  rw [percentEncode, foldlM_ok (g := fun out byte =>
    if isUnreserved byte then out ++ [byte] else Url.appendPercentByte out byte)]
  · rfl
  · intro front byte back _
    by_cases hplain : isUnreserved byte = true
    · rw [if_pos hplain, if_pos hplain]
      rfl
    · rw [if_neg hplain, if_neg hplain, appendPercentByte_ok]

/-- Form encoding takes no overflow. -/
theorem formEncode_ok (input : Str) : formEncode input = .ok (Url.formEncode input) := by
  rw [formEncode, foldlM_ok (g := fun out byte =>
    if byte == 32 then out ++ [43]
    else if isFormUnescaped byte then out ++ [byte] else Url.appendPercentByte out byte)]
  · rfl
  · intro front byte back _
    by_cases hspace : (byte == 32) = true
    · rw [if_pos hspace, if_pos hspace]
      rfl
    · rw [if_neg hspace, if_neg hspace]
      by_cases hplain : isFormUnescaped byte = true
      · rw [if_pos hplain, if_pos hplain]
        rfl
      · rw [if_neg hplain, if_neg hplain, appendPercentByte_ok]

end TrantorCli.Url.Arith
