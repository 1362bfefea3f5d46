import TrantorCli.Lib.Checked
import TrantorCli.Lib.Str
import TrantorCli.Lib.Utf16
import TrantorCli.Lib.Words

/-!
# The UTF-16 codec

`Path.roc` and `OsStr.roc` each carry the functions below, alike but for blank
lines. The bit operations are the source's; subtractions are checked, while the
additions cannot leave their type because each adds a constant to fewer bits.
-/

open Roc

namespace TrantorCli

/-- `utf8_to_utf16` -/
def utf8ToUtf16 (remaining : List UInt8) (out : List UInt16) : Checked (List UInt16) :=
  match remaining with
  | [] => .ok out
  | byte1 :: rest =>
    if byte1 < 0x80 then utf8ToUtf16 rest (out ++ [byte1.toUInt16])
    else
      match rest with
      | [] => .error (.crash "A Str contained invalid UTF-8. This should never happen.")
      | byte2 :: rest =>
        if byte1 < 0xE0 then
          let top := (byte1 &&& 0x1F).toUInt32 <<< 6
          let bottom := (byte2 &&& 0x3F).toUInt32
          let codePoint := top ||| bottom
          utf8ToUtf16 rest (out ++ [codePoint.toUInt16])
        else
          match rest with
          | [] => .error (.crash "A Str contained invalid UTF-8. This should never happen.")
          | byte3 :: rest =>
            if byte1 < 0xF0 then
              let top := (byte1 &&& 0x0F).toUInt32 <<< 12
              let middle := (byte2 &&& 0x3F).toUInt32 <<< 6
              let bottom := (byte3 &&& 0x3F).toUInt32
              let codePoint := top ||| middle ||| bottom
              utf8ToUtf16 rest (out ++ [codePoint.toUInt16])
            else
              match rest with
              | [] => .error (.crash "A Str contained invalid UTF-8. This should never happen.")
              | byte4 :: rest => do
                let top := (byte1 &&& 0x07).toUInt32 <<< 18
                let middle1 := (byte2 &&& 0x3F).toUInt32 <<< 12
                let middle2 := (byte3 &&& 0x3F).toUInt32 <<< 6
                let bottom := (byte4 &&& 0x3F).toUInt32
                let codePoint := top ||| middle1 ||| middle2 ||| bottom
                let offset ← Checked.subU32 codePoint 0x10000
                let shifted : UInt32 := offset >>> 10
                let high := UInt32.toUInt16 (0xD800 + shifted)
                let low := UInt32.toUInt16 (0xDC00 + (offset &&& 0x3FF))
                utf8ToUtf16 rest (out ++ [high] ++ [low])

/-- `str_to_utf16` -/
def strToUtf16 (str : Str) : Checked (List UInt16) := utf8ToUtf16 str.toUtf8 []

/-- `is_high_surrogate` -/
def isHighSurrogate (unit : UInt16) : Bool := 0xD800 ≤ unit && unit ≤ 0xDBFF

/-- `is_low_surrogate` -/
def isLowSurrogate (unit : UInt16) : Bool := 0xDC00 ≤ unit && unit ≤ 0xDFFF

/-- `is_surrogate` -/
def isSurrogate (unit : UInt16) : Bool := 0xD800 ≤ unit && unit ≤ 0xDFFF

/-- `append_code_point_utf8` -/
def appendCodePointUtf8 (out : List UInt8) (codePoint : UInt32) : List UInt8 :=
  let shr6 : UInt32 := codePoint >>> 6
  let shr12 : UInt32 := codePoint >>> 12
  let shr18 : UInt32 := codePoint >>> 18
  let last := UInt32.toUInt8 (0x80 + (codePoint &&& 0x3F))
  if codePoint < 0x80 then out ++ [codePoint.toUInt8]
  else if codePoint < 0x800 then out ++ [UInt32.toUInt8 (0xC0 + shr6)] ++ [last]
  else if codePoint < 0x10000 then
    out ++ [UInt32.toUInt8 (0xE0 + shr12)] ++ [UInt32.toUInt8 (0x80 + (shr6 &&& 0x3F))] ++ [last]
  else
    out ++ [UInt32.toUInt8 (0xF0 + shr18)] ++ [UInt32.toUInt8 (0x80 + (shr12 &&& 0x3F))]
      ++ [UInt32.toUInt8 (0x80 + (shr6 &&& 0x3F))] ++ [last]

/-- The code point of a surrogate pair, as `utf16_to_utf8` computes it. -/
def pairCodePoint (high low : UInt16) : Checked UInt32 := do
  let highBits := (← Checked.subU32 high.toUInt32 0xD800) <<< 10
  let lowBits ← Checked.subU32 low.toUInt32 0xDC00
  return 0x10000 + highBits + lowBits

/-- `utf16_to_utf8`; the inner error is `InvalidUtf16(index)`. -/
def utf16ToUtf8 (remaining : List UInt16) (out : List UInt8) (index : Nat) :
    Checked (Except Nat (List UInt8)) :=
  match remaining with
  | [] => .ok (.ok out)
  | [unit] =>
    if isSurrogate unit then .ok (.error index)
    else utf16ToUtf8 [] (appendCodePointUtf8 out unit.toUInt32) (index + 1)
  | high :: low :: rest =>
    if isHighSurrogate high && isLowSurrogate low then do
      let codePoint ← pairCodePoint high low
      utf16ToUtf8 rest (appendCodePointUtf8 out codePoint) (index + 2)
    else if isSurrogate high then .ok (.error index)
    else utf16ToUtf8 (low :: rest) (appendCodePointUtf8 out high.toUInt32) (index + 1)

/-- `utf16_to_str`; the inner error is `InvalidStr(index)`. -/
def utf16ToStr (u16s : List UInt16) : Checked (Except Nat Str) := do
  match ← utf16ToUtf8 u16s [] 0 with
  | .ok bytes => return Str.fromUtf8 bytes
  | .error index => return .error index

end TrantorCli
