import TrantorCli.Lib.Str
import TrantorCli.Lib.Words

/-!
# Byte classes of the URL parser

The helpers at the end of `Url.roc` that look at one byte, and those that index
a byte list with a default. What a class promises about its members is proved
here once, over all 256 bytes.
-/

open Roc

namespace TrantorCli.Url

/-- `is_digit` -/
def isDigit (byte : UInt8) : Bool := 48 ≤ byte && byte ≤ 57

/-- `is_alpha` -/
def isAlpha (byte : UInt8) : Bool := (65 ≤ byte && byte ≤ 90) || (97 ≤ byte && byte ≤ 122)

/-- `is_alphanumeric` -/
def isAlphanumeric (byte : UInt8) : Bool :=
  isDigit byte || (65 ≤ byte && byte ≤ 90) || (97 ≤ byte && byte ≤ 122)

/-- `is_hex` -/
def isHex (byte : UInt8) : Bool :=
  isDigit byte || (65 ≤ byte && byte ≤ 70) || (97 ≤ byte && byte ≤ 102)

/-- `is_unreserved` -/
def isUnreserved (byte : UInt8) : Bool :=
  isAlphanumeric byte || byte == 45 || byte == 46 || byte == 95 || byte == 126

/-- `is_form_unescaped` -/
def isFormUnescaped (byte : UInt8) : Bool :=
  isAlphanumeric byte || byte == 42 || byte == 45 || byte == 46 || byte == 95

/-- `hex_value` -/
def hexValue (byte : UInt8) : UInt8 :=
  if byte ≤ 57 then byte - 48 else if byte ≤ 70 then byte - 55 else byte - 87

/-- `hex_digit_byte` -/
def hexDigitByte (value : UInt8) : UInt8 := if value < 10 then value + 48 else value + 55

/-- `lower_hex_digit_byte` -/
def lowerHexDigitByte (value : UInt8) : UInt8 := if value < 10 then value + 48 else value + 87

/-- `ascii_upper_hex` -/
def asciiUpperHex (byte : UInt8) : UInt8 := if 97 ≤ byte && byte ≤ 102 then byte - 32 else byte

/-- What `ascii_lower` does to each byte. -/
def lowerByte (byte : UInt8) : UInt8 := if 65 ≤ byte && byte ≤ 90 then byte + 32 else byte

/-- `ascii_lower` -/
def asciiLower (input : Str) : Str := Str.fromUtf8Lossy (input.toUtf8.map lowerByte)

/-- `append_percent_byte` -/
def appendPercentByte (out : List UInt8) (byte : UInt8) : List UInt8 :=
  out ++ [37] ++ [hexDigitByte (byte / 16)] ++ [hexDigitByte (byte % 16)]

/-- `get_or_zero` -/
def getOrZero (list : List UInt8) (index : Nat) : UInt8 := list.getD index 0

/-- `first_or_zero` -/
def firstOrZero (list : List UInt8) : UInt8 := getOrZero list 0

/-- `last_or_zero` -/
def lastOrZero (list : List UInt8) : UInt8 :=
  if list.isEmpty then 0 else getOrZero list (list.length - 1)

/-- `List.sublist` -/
def sublist (list : List UInt8) (start len : Nat) : List UInt8 := (list.drop start).take len

/-- `trim_brackets` -/
def trimBrackets (str : Str) : Str :=
  let bytes := str.toUtf8
  if bytes.length < 2 then .lit "" else Str.fromUtf8Lossy (sublist bytes 1 (bytes.length - 2))

/-! ### Facts about every byte -/

attribute [grind =] isDigit isAlpha isAlphanumeric isHex isUnreserved isFormUnescaped hexValue
  hexDigitByte lowerHexDigitByte asciiUpperHex lowerByte

/-- The two digits of a byte to the base 16. -/
theorem digits_lt (byte : UInt8) : byte / 16 < 16 ∧ byte % 16 < 16 := by
  have hbyte := byte.toNat_lt
  simp only [UInt8.lt_iff_toNat_lt, UInt8.toNat_div, UInt8.toNat_mod, UInt8.reduceToNat]
  omega

/-- The two spellings of the test for ASCII. -/
theorem not_high_iff {byte : UInt8} : ¬byte > 127 ↔ byte < 128 := by
  rw [gt_iff_lt, UInt8.lt_iff_toNat_lt, UInt8.lt_iff_toNat_lt]
  simp only [UInt8.reduceToNat]
  omega

/-- Both digits of a percent escape are upper-case hexadecimal. -/
def isUpperHex (byte : UInt8) : Bool := isHex byte && asciiUpperHex byte == byte

attribute [grind =] isUpperHex

private theorem isUpperHex_digit {value : UInt8} (h : value < 16) :
    isUpperHex (hexDigitByte value) = true := by
  grind

/-- An escape is written in upper case. -/
theorem isUpperHex_hexDigitByte (byte : UInt8) :
    isUpperHex (hexDigitByte (byte / 16)) = true ∧
      isUpperHex (hexDigitByte (byte % 16)) = true :=
  ⟨isUpperHex_digit (digits_lt byte).1, isUpperHex_digit (digits_lt byte).2⟩

/-- A raised hex digit is in upper case. -/
theorem isUpperHex_asciiUpperHex {byte : UInt8} (h : isHex byte = true) :
    isUpperHex (asciiUpperHex byte) = true := by
  grind

/-- An upper-case hex digit is one. -/
theorem isHex_of_isUpperHex {byte : UInt8} (h : isUpperHex byte = true) : isHex byte = true :=
  (Bool.and_eq_true_iff.mp h).1

/-- An upper-case hex digit is raised already. -/
theorem asciiUpperHex_of_isUpperHex {byte : UInt8} (h : isUpperHex byte = true) :
    asciiUpperHex byte = byte :=
  eq_of_beq (Bool.and_eq_true_iff.mp h).2

/-- Upper-case hexadecimal digits lie between `0` and `F`. -/
theorem isUpperHex_range {byte : UInt8} (h : isUpperHex byte = true) :
    48 ≤ byte ∧ byte ≤ 70 := by
  grind

/-- Lowered once, a byte is lowered. -/
theorem lowerByte_lowerByte (byte : UInt8) : lowerByte (lowerByte byte) = lowerByte byte := by
  grind

end TrantorCli.Url
