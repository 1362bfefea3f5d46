import TrantorCli.Url.Basic
import TrantorCli.Url.Bytes
import TrantorCli.Url.Text

/-!
# IPv6 literals

`validate_ipv6` reads up to eight hexadecimal groups around at most one `::`
and writes all eight out. Writing a group and folding its digits back are
inverse, so what it returns validates to itself.
-/

open Roc

namespace TrantorCli.Url

/-- One digit of a group. -/
def hexStep (acc : UInt16) (byte : UInt8) : UInt16 := acc * 16 + (hexValue byte).toUInt16

/-- `parse_hex_groups` -/
def parseHexGroups (parts : List Str) (out : List UInt16) : Except ParseErr (List UInt16) :=
  match parts with
  | [] => .ok out
  | first :: rest =>
    let bytes := first.toUtf8
    if bytes.isEmpty || decide (bytes.length > 4) || !bytes.all isHex then
      .error (.invalidIpv6 first)
    else
      let value := bytes.foldl hexStep 0
      parseHexGroups rest (out ++ [value])

/-- `parse_ipv6_side` -/
def parseIpv6Side (raw : Str) : Except ParseErr (List UInt16) :=
  if raw.isEmpty then .ok [] else parseHexGroups (raw.splitOn (.lit ":")) []

/-- `u16_to_hex_help` -/
def u16ToHexHelp (value : UInt16) (digits : List UInt8) : Str :=
  let nextDigits := [lowerHexDigitByte (value % 16).toUInt8] ++ digits
  let next := value / 16
  if next == 0 then Str.fromUtf8Lossy nextDigits else u16ToHexHelp next nextDigits
termination_by value.toNat
decreasing_by
  have hnext : ¬value / 16 = 0 := by simpa using ‹¬(next == 0) = true›
  have hdiv : (value / 16).toNat = value.toNat / 16 := by simp
  have hpos : (value / 16).toNat ≠ 0 := fun h => hnext (UInt16.toNat_inj.mp h)
  omega

/-- `u16_to_hex` -/
def u16ToHex (value : UInt16) : Str := if value == 0 then .lit "0" else u16ToHexHelp value []

/-- `serialize_ipv6` -/
def serializeIpv6 (groups : List UInt16) : Str := Str.joinWith (groups.map u16ToHex) (.lit ":")

/-- `validate_ipv6` -/
def validateIpv6 (raw : Str) : Except ParseErr Str :=
  let pieces := raw.splitOn (.lit "::")
  if pieces.length > 2 then .error (.invalidIpv6 raw)
  else if pieces.length == 1 then do
    let groups ← parseIpv6Side raw
    if groups.length == 8 then .ok (serializeIpv6 groups) else .error (.invalidIpv6 raw)
  else do
    let left ← parseIpv6Side (getOrEmpty pieces 0)
    let right ← parseIpv6Side (getOrEmpty pieces 1)
    let count := left.length + right.length
    if count ≥ 8 then .error (.invalidIpv6 raw)
    else
      let groups := left ++ List.replicate (8 - count) 0 ++ right
      .ok (serializeIpv6 groups)

/-! ### What is written -/

/-- Hex digits are ASCII. -/
theorem ascii_of_isHex {bytes : List UInt8} (h : ∀ byte ∈ bytes, isHex byte = true) :
    Utf8.Ascii bytes := by
  have hbyte : ∀ byte : UInt8, isHex byte = true → byte < 128 := by
    intro byte hhex
    grind
  exact fun byte hmem => hbyte byte (h byte hmem)

/-- The last hex digit of a value is below sixteen. -/
theorem lowDigit_lt (value : UInt16) : (value % 16).toUInt8 < 16 := by
  rw [UInt8.lt_iff_toNat_lt]
  simp
  omega

private theorem isHex_lowerHexDigitByte {value : UInt8} (h : value < 16) :
    isHex (lowerHexDigitByte value) = true := by
  grind

/-- One more hex digit. -/
theorem isHex_lowDigit_cons (value : UInt16) {digits : List UInt8}
    (h : ∀ byte ∈ digits, isHex byte = true) :
    ∀ byte ∈ [lowerHexDigitByte (value % 16).toUInt8] ++ digits, isHex byte = true := by
  intro byte hmem
  rcases List.mem_cons.mp hmem with rfl | hmem
  · exact isHex_lowerHexDigitByte (lowDigit_lt value)
  · exact h byte hmem

end TrantorCli.Url
