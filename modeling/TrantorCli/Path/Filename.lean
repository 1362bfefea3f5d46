import TrantorCli.OsStr

/-!
# The last part of a path

`filename` and `ext` are written once for each representation, on text, on bytes
and on 16-bit units, and the helpers once for bytes and once for units.
-/

open Roc

namespace TrantorCli.Path

variable {α : Type}

/-! ### Helpers -/

/-- `List.find_last_index` -/
def findLastIndex (p : α → Bool) (list : List α) : Option Nat :=
  (list.reverse.findIdx? p).map fun i => list.length - 1 - i

/-- `List.sublist` -/
def sublist (list : List α) (start len : Nat) : List α := (list.drop start).take len

/-- What `ends_with_u8` and `ends_with_u16` do. -/
def endsWith [DecidableEq α] (list : List α) (suffix : α) : Bool :=
  match list.getLast? with
  | some last => last == suffix
  | none => false

/-- `ends_with_u8` -/
def endsWithU8 : List UInt8 → UInt8 → Bool := endsWith

/-- `ends_with_u16` -/
def endsWithU16 : List UInt16 → UInt16 → Bool := endsWith

/-- What `ends_with_two_u8` and `ends_with_two_u16` do. -/
def endsWithTwo [DecidableEq α] (list : List α) (firstSuffix secondSuffix : α) : Bool :=
  match list.reverse with
  | second :: first :: _ => first == firstSuffix && second == secondSuffix
  | _ => false

/-- `ends_with_two_u8` -/
def endsWithTwoU8 : List UInt8 → UInt8 → UInt8 → Bool := endsWithTwo

/-- `ends_with_two_u16` -/
def endsWithTwoU16 : List UInt16 → UInt16 → UInt16 → Bool := endsWithTwo

/-- What `after_index_u8` and `after_index_u16` do. -/
def afterIndex (list : List α) (index : Nat) : Checked (List α) := do
  let start := index + 1
  return sublist list start (← Checked.subLength list.length start)

/-- `after_index_u8` -/
def afterIndexU8 : List UInt8 → Nat → Checked (List UInt8) := afterIndex

/-- `after_index_u16` -/
def afterIndexU16 : List UInt16 → Nat → Checked (List UInt16) := afterIndex

/-- What `ext_units_u8` and `ext_units_u16` do, where `dot` is the unit of `.`. -/
def extUnits [DecidableEq α] (dot : α) (units : List α) : Checked (List α) :=
  match units.findIdx? (· == dot) with
  | none => .ok []
  | some 0 =>
    let rest := units.drop 1
    match rest.findIdx? (· == dot) with
    | none => .ok []
    | some dotIndex => afterIndex rest dotIndex
  | some dotIndex => afterIndex units dotIndex

/-- `ext_units_u8` -/
def extUnitsU8 : List UInt8 → Checked (List UInt8) := extUnits 46

/-- `ext_units_u16` -/
def extUnitsU16 : List UInt16 → Checked (List UInt16) := extUnits 46

/-- `str_from_valid_utf8` -/
def strFromValidUtf8 (bytes : List UInt8) : Checked Str :=
  match Str.fromUtf8 bytes with
  | .ok str => .ok str
  | .error _ =>
    .error (.crash "A valid UTF-8 path contained invalid UTF-8 after ASCII path slicing.")

/-! ### The operations -/

/-- Why a path has no file name. -/
inductive FilenameErr where
  | isDirPath
  | endsInDots
  deriving DecidableEq, Repr

/-- `Path.filename`; 47 is `/`, 46 is `.` and 92 is the backslash. -/
def filename (path : Path) : Checked (Except FilenameErr Path) :=
  match path with
  | .utf8 str =>
    let bytes := str.toUtf8
    if endsWithU8 bytes 47 then .ok (.error .isDirPath)
    else if endsWithTwoU8 bytes 46 46 then .ok (.error .endsInDots)
    else
      match findLastIndex (· == 47) bytes with
      | some lastSepIndex => do
        return .ok (.utf8 (← strFromValidUtf8 (← afterIndexU8 bytes lastSepIndex)))
      | none => .ok (.ok path)
  | .unix bytes =>
    if endsWithU8 bytes 47 then .ok (.error .isDirPath)
    else if endsWithTwoU8 bytes 46 46 then .ok (.error .endsInDots)
    else
      match findLastIndex (· == 47) bytes with
      | some lastSepIndex => do return .ok (.unix (← afterIndexU8 bytes lastSepIndex))
      | none => .ok (.ok path)
  | .windows u16s =>
    if endsWithU16 u16s 47 || endsWithU16 u16s 92 then .ok (.error .isDirPath)
    else if endsWithTwoU16 u16s 46 46 then .ok (.error .endsInDots)
    else
      match findLastIndex (fun u16 => u16 == 47 || u16 == 92) u16s with
      | some lastSepIndex => do return .ok (.windows (← afterIndexU16 u16s lastSepIndex))
      | none => .ok (.ok path)

/-- `Path.ext` -/
def ext (path : Path) : Checked (Except FilenameErr Path) := do
  match ← filename path with
  | .error err => return .error err
  | .ok (.utf8 str) => return .ok (.utf8 (← strFromValidUtf8 (← extUnitsU8 str.toUtf8)))
  | .ok (.unix bytes) => return .ok (.unix (← extUnitsU8 bytes))
  | .ok (.windows u16s) => return .ok (.windows (← extUnitsU16 u16s))

/-- `Path.unix` -/
def fromUnix (str : Str) : Path := .unix str.toUtf8

end TrantorCli.Path
