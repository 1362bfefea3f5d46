import TrantorCli.Stdin

/-!
# Streams and the lines of a file

An input stream is standard input through a handle, or a file behind a buffer of
its own. Reading a line of a file reads one byte past the cap, so that a line of
exactly `max_line` bytes is still a line.
-/

open Roc BufRead

namespace TrantorCli

open FsCore (IoError IOErr ioerr)

namespace Streams

open Stdin (Global)

/-- `Input`: what is behind an `InputStream`. -/
inductive Input where
  /-- A `SharedStdin` that `get_stdin` made. -/
  | stdin (id : Nat)
  /-- The `BufReader` that `input_stream_fd` puts around a file. Its state is a buffer over a
  descriptor as well, with a lock that nobody takes. -/
  | file
  deriving DecidableEq, Repr

/-- The stream as a `BufRead`. -/
def Input.reader : Input → Reader Global IoError UInt8
  | .stdin id => Stdin.shared id
  | .file => ⟨fun s => .ok (Stdin.fillBuf s), Stdin.consume⟩

/-- `inp.0.read` -/
def Input.read (n : Nat) : Input → Global → Except Stuck (Except IoError (List UInt8) × Global)
  | .stdin id, s => Stdin.sharedRead id n s
  | .file, s => .ok (Stdin.read n s)

/-- Why a read gives nothing. -/
inductive ReadErr where
  /-- `Io` -/
  | io (err : IOErr)
  /-- `FileErr` -/
  | fileErr (err : IOErr)
  /-- `LineTooLong` -/
  | lineTooLong
  deriving DecidableEq, Repr

/-- `read_err` -/
def readErr (e : IoError) : ReadErr := .io (ioerr e)

/-- `trantor__sync_io__read`, which is `Streams.read!` -/
def read (input : Input) (max : UInt64) (s : Global) :
    Except Stuck (Except ReadErr (List UInt8) × Global) := do
  let (outcome, s) ← input.read (min max.toNat Stdin.readChunkMax) s
  return (outcome.mapError readErr, s)

/-- `trantor__sync_io__read_until`, which is `Streams.read_until!`; there are at most `cost` fills
before the end. -/
def readUntil (input : Input) (delim : UInt8) (max : UInt64) (s : Global) :
    Except Stuck (Except ReadErr (List UInt8) × Global) := do
  let (outcome, _, s) ←
    input.reader.take.readUntil Stdin.isInterrupted delim (s.cost + 1) [] (max.toNat, s)
  return (outcome.mapError readErr, s)

/-- `max_line` -/
def maxLine : UInt64 := 1048576

/-- `map_err(|Io(e)| FileErr(e))` -/
def ReadErr.toFileErr : ReadErr → ReadErr
  | .io err => .fileErr err
  | err => err

/-- What `file_read_line!` makes of the bytes up to the newline or the cap. -/
def lineOf (bytes : List UInt8) : Except ReadErr (List UInt8) :=
  let endedWithNewline : Bool :=
    match bytes.getLast? with
    | some b => b == 10
    | none => false
  if maxLine.toNat < bytes.length && !endedWithNewline then .error .lineTooLong else .ok bytes

/-- A line is too long when it is longer than the cap and does not end with a newline. -/
theorem lineOf_eq (bytes : List UInt8) : lineOf bytes =
    if maxLine.toNat < bytes.length ∧ bytes.getLast? ≠ some 10 then .error .lineTooLong
    else .ok bytes := by
  rw [lineOf]
  cases bytes.getLast? <;> simp

/-- `file_read_line!`, which is `File.Reader.read_line!` -/
def fileReadLine (stream : Input) (s : Global) :
    Except Stuck (Except ReadErr (List UInt8) × Global) := do
  let (outcome, s) ← readUntil stream 10 (maxLine + 1) s
  return ((outcome.mapError ReadErr.toFileErr).bind lineOf, s)

/-- The calls of an app on a stream. -/
inductive Call where
  | read (max : UInt64)
  | readUntil (delim : UInt8) (max : UInt64)
  | readLine
  deriving DecidableEq, Repr

/-- A call. -/
def call (input : Input) : Call → Global → Except Stuck (Except ReadErr (List UInt8) × Global)
  | .read max => read input max
  | .readUntil delim max => readUntil input delim max
  | .readLine => fileReadLine input

/-- Calls one after the other. -/
def run (input : Input) :
    List Call → Global → Except Stuck (List (Except ReadErr (List UInt8)) × Global)
  | [], s => .ok ([], s)
  | c :: cs, s => do
    let (result, s) ← call input c s
    let (results, s) ← run input cs s
    return (result :: results, s)

end Streams

end TrantorCli
