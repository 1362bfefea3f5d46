import TrantorCli.Utf16.Decode

/-!
# Operating-system strings and paths

Both types hold text, raw Unix bytes or raw Windows units, under different tags.
Reading either one as text is total on what was made from text, and a Windows
value that reads as text is what that text is made into.
-/

open Roc

namespace TrantorCli

/-- `OsStr` -/
inductive OsStr where
  | utf8 (str : Str)
  | unixBytes (bytes : List UInt8)
  | windowsU16s (u16s : List UInt16)
  deriving DecidableEq

/-- `Path`, with basic-cli's tags -/
inductive Path where
  | utf8 (str : Str)
  | unix (bytes : List UInt8)
  | windows (u16s : List UInt16)
  deriving DecidableEq

/-- `utf16_to_utf8_lossy_help`; no subtraction underflows under the two tests before it. -/
def utf16ToUtf8LossyHelp (remaining : List UInt16) (out : List UInt8) : List UInt8 :=
  match remaining with
  | [] => out
  | [unit] =>
    if isSurrogate unit then appendCodePointUtf8 out 0xFFFD
    else appendCodePointUtf8 out unit.toUInt32
  | high :: low :: rest =>
    if isHighSurrogate high && isLowSurrogate low then
      let highBits := (high.toUInt32 - 0xD800) <<< 10
      let lowBits := low.toUInt32 - 0xDC00
      let codePoint := 0x10000 + highBits + lowBits
      utf16ToUtf8LossyHelp rest (appendCodePointUtf8 out codePoint)
    else if isSurrogate high then
      utf16ToUtf8LossyHelp (low :: rest) (appendCodePointUtf8 out 0xFFFD)
    else utf16ToUtf8LossyHelp (low :: rest) (appendCodePointUtf8 out high.toUInt32)

/-- `utf16_to_utf8_lossy` -/
def utf16ToUtf8Lossy (u16s : List UInt16) : List UInt8 := utf16ToUtf8LossyHelp u16s []

namespace OsStr

/-- `OsStr.windows`; `from_raw` keeps every tag. -/
def fromWindows (str : Str) : Checked OsStr := do return windowsU16s (← strToUtf16 str)

/-- `OsStr.to_str_try`; the error is `InvalidStr(index)`. -/
def toStrTry : OsStr → Checked (Except Nat Str)
  | utf8 str => return .ok str
  | unixBytes bytes => return Str.fromUtf8 bytes
  | windowsU16s u16s => utf16ToStr u16s

/-- `OsStr.display` -/
def display : OsStr → Str
  | utf8 str => str
  | unixBytes bytes => Str.fromUtf8Lossy bytes
  | windowsU16s u16s => Str.fromUtf8Lossy (utf16ToUtf8Lossy u16s)

end OsStr

namespace Path

/-- `Path.windows` -/
def fromWindows (str : Str) : Checked Path := do return windows (← strToUtf16 str)

/-- `Path.to_str`; the error is `InvalidStr(index)`. -/
def toStr : Path → Checked (Except Nat Str)
  | utf8 str => return .ok str
  | unix bytes => return Str.fromUtf8 bytes
  | windows u16s => utf16ToStr u16s

/-- `Path.display` -/
def display : Path → Str
  | utf8 str => str
  | unix bytes => Str.fromUtf8Lossy bytes
  | windows u16s => Str.fromUtf8Lossy (utf16ToUtf8Lossy u16s)

/-- `Path.to_raw` -/
def toRaw : Path → OsStr
  | utf8 str => .utf8 str
  | unix bytes => .unixBytes bytes
  | windows u16s => .windowsU16s u16s

/-- `Path.from_raw` -/
def fromRaw : OsStr → Path
  | .utf8 str => utf8 str
  | .unixBytes bytes => unix bytes
  | .windowsU16s u16s => windows u16s

/-- Lowered and raised, a path is itself. -/
@[simp] theorem fromRaw_toRaw (path : Path) : fromRaw path.toRaw = path := by
  cases path <;> rfl

/-- Raised and lowered, an OS string is itself. -/
@[simp] theorem toRaw_fromRaw (osStr : OsStr) : (fromRaw osStr).toRaw = osStr := by
  cases osStr <;> rfl

/-- A path reads as text exactly as the OS string it is lowered to. -/
theorem toStr_eq (path : Path) : path.toStr = path.toRaw.toStrTry := by
  cases path <;> rfl

/-- A path is displayed exactly as the OS string it is lowered to. -/
theorem display_eq (path : Path) : path.display = path.toRaw.display := by
  cases path <;> rfl

end Path

/-- Making a Windows value from text never aborts and reads back as that text,
and one that reads as text is exactly what that text is made into. -/
theorem windows_roundTrip :
    (∀ s : Str, ∃ path, Path.fromWindows s = .ok path ∧ path.toStr = .ok (.ok s)) ∧
    (∀ s : Str, ∃ osStr, OsStr.fromWindows s = .ok osStr ∧ osStr.toStrTry = .ok (.ok s)) ∧
    (∀ (w : List UInt16) (s : Str), (Path.windows w).toStr = .ok (.ok s) →
      Path.fromWindows s = .ok (.windows w)) ∧
    (∀ (w : List UInt16) (s : Str), (OsStr.windowsU16s w).toStrTry = .ok (.ok s) →
      OsStr.fromWindows s = .ok (.windowsU16s w)) := by
  refine ⟨fun s => ?_, fun s => ?_, fun w s h => ?_, fun w s h => ?_⟩
  · obtain ⟨u16s, hencode, hdecode⟩ := utf16ToStr_strToUtf16 s
    exact ⟨.windows u16s, by rw [Path.fromWindows, hencode]; rfl, hdecode⟩
  · obtain ⟨u16s, hencode, hdecode⟩ := utf16ToStr_strToUtf16 s
    exact ⟨.windowsU16s u16s, by rw [OsStr.fromWindows, hencode]; rfl, hdecode⟩
  · rw [Path.fromWindows, strToUtf16_of_utf16ToStr h]
    rfl
  · rw [OsStr.fromWindows, strToUtf16_of_utf16ToStr h]
    rfl

end TrantorCli
