import TrantorCli.FsCore.Basic
import TrantorCli.Lib.BufRead
import TrantorCli.Lib.Str

/-!
# Standard input, shared

One buffer over the process's descriptor sits behind a lock that is not
reentrant. A stream handle takes the lock when it fills the buffer and gives it
back when it is told what was used, or at once when nothing is lent, so a call
on one handle never meets the lock of another.
-/

open Roc BufRead

namespace TrantorCli

open FsCore (IoError IOErr ioerr)

namespace Stdin

/-- What a `read(2)` answers. -/
inductive Event where
  | failed (e : IoError)
  /-- No bytes report the end of input. -/
  | chunk (bytes : List UInt8)
  deriving DecidableEq, Repr

/-- Who holds the lock. -/
inductive Owner where
  /-- A `SharedStdin`, between `fill_buf` and `consume`. -/
  | handle (id : Nat)
  /-- A single call on `stdin().lock()`. -/
  | call
  deriving DecidableEq, Repr

/-- `std::io::stdin()`: the descriptor, the buffer over it, and the lock. -/
structure Global where
  /-- What the reads to come answer; after that, they report the end of input. -/
  source : List Event
  /-- What was read and not used. -/
  buffer : List UInt8
  holder : Option Owner
  /-- How many reads have reported the end of input. -/
  eofReads : Nat
  deriving DecidableEq, Repr

/-- The process at its start. -/
def Global.start (source : List Event) : Global := ⟨source, [], none, 0⟩

/-- `stdin().lock()` -/
def lock (owner : Owner) (s : Global) : Except Stuck Global :=
  match s.holder with
  | none => .ok { s with holder := some owner }
  | some _ => .error .blocked

/-- A `StdinLock` is dropped. -/
def unlock (s : Global) : Global := { s with holder := none }

/-- `read(2)` of at most `n` bytes; a longer answer stays for the next read. -/
def osRead (n : Nat) (s : Global) : Except IoError (List UInt8) × Global :=
  match s.source with
  | [] => (.ok [], { s with eofReads := s.eofReads + 1 })
  | .failed e :: rest => (.error e, { s with source := rest })
  | .chunk bytes :: rest =>
    if bytes = [] then (.ok [], { s with source := rest, eofReads := s.eofReads + 1 })
    else if bytes.length ≤ n then (.ok bytes, { s with source := rest })
    else (.ok (bytes.take n), { s with source := .chunk (bytes.drop n) :: rest })

/-! ### The buffer -/

/-- `STDIN_BUF_SIZE` -/
def bufSize : Nat := 8192

/-- `BufReader::fill_buf` -/
def fillBuf (s : Global) : Except IoError (List UInt8) × Global :=
  if s.buffer = [] then
    let (result, s') := osRead bufSize s
    match result with
    | .ok bytes => (.ok bytes, { s' with buffer := bytes })
    | .error e => (.error e, s')
  else (.ok s.buffer, s)

/-- `BufReader::consume` -/
def consume (amount : Nat) (s : Global) : Global := { s with buffer := s.buffer.drop amount }

/-- `BufReader::read`: a long read with nothing buffered goes by the buffer. -/
def read (n : Nat) (s : Global) : Except IoError (List UInt8) × Global :=
  if s.buffer = [] ∧ bufSize ≤ n then osRead n s
  else
    let (result, s') := fillBuf s
    match result with
    | .ok available => (.ok (available.take n), consume (min available.length n) s')
    | .error e => (.error e, s')

/-- `StdinRaw::read_to_end`: reads until a read reports the end, again after an interruption. -/
def osReadToEnd : List Event → List UInt8 → Except IoError (List UInt8) × List Event
  | [], buf => (.ok buf, [])
  | .failed e :: rest, buf =>
    if e.kind = .interrupted then osReadToEnd rest buf else (.error e, rest)
  | .chunk bytes :: rest, buf =>
    if bytes = [] then (.ok buf, rest) else osReadToEnd rest (buf ++ bytes)

/-- `BufReader::read_to_end`: a read that fails has not reported the end. -/
def bufReadToEnd (s : Global) : Except IoError (List UInt8) × Global :=
  let (result, rest) := osReadToEnd s.source s.buffer
  match result with
  | .ok _ => (result, { s with source := rest, buffer := [], eofReads := s.eofReads + 1 })
  | .error _ => (result, { s with source := rest, buffer := [] })

/-- Reading through the lock of a single call. -/
def locked : Reader Global IoError UInt8 where
  fillBuf s := .ok (fillBuf s)
  consume := consume

/-! ### `SharedStdin` -/

/-- `self.0 = None` -/
def release (id : Nat) (s : Global) : Global :=
  if s.holder = some (.handle id) then unlock s else s

/-- `self.0.get_or_insert_with(|| stdin().lock())` -/
def getOrLock (id : Nat) (s : Global) : Except Stuck Global :=
  if s.holder = some (.handle id) then .ok s else lock (.handle id) s

/-- `SharedStdin::fill_buf` -/
def sharedFillBuf (id : Nat) (s : Global) :
    Except Stuck (Except IoError (List UInt8) × Global) := do
  let s ← getOrLock id s
  let (result, s) := fillBuf s
  match result with
  | .error e => return (.error e, release id s)
  | .ok available =>
    if available.isEmpty then return (.ok [], release id s)
    else if s.holder = some (.handle id) then return fillBuf s
    else return (.ok [], s)

/-- `SharedStdin::consume` -/
def sharedConsume (id amount : Nat) (s : Global) : Global :=
  if s.holder = some (.handle id) then unlock (consume amount s) else s

/-- `SharedStdin::read` -/
def sharedRead (id n : Nat) (s : Global) :
    Except Stuck (Except IoError (List UInt8) × Global) := do
  let s ← lock .call (release id s)
  let (result, s) := read n s
  return (result, unlock s)

/-- `SharedStdin` as a `BufRead`. -/
def shared (id : Nat) : Reader Global IoError UInt8 := ⟨sharedFillBuf id, sharedConsume id⟩

/-! ### The calls -/

/-- The calls of an app on standard input; a handle is one `get_stdin` gave. -/
inductive Call where
  /-- `Streams.read!` -/
  | read (id : Nat) (max : UInt64)
  /-- `Streams.read_until!` -/
  | readUntil (id : Nat) (delim : UInt8) (max : UInt64)
  | readLine
  | readToEnd
  deriving DecidableEq, Repr

/-- What a call answers. -/
inductive Result where
  | bytes (bytes : List UInt8)
  | line (text : Str)
  | endOfFile
  /-- `StreamErr` -/
  | streamErr (err : IOErr)
  /-- `StdinErr` -/
  | stdinErr (err : IOErr)
  deriving DecidableEq

/-- `READ_CHUNK_MAX` -/
def readChunkMax : Nat := 1 <<< 20

/-- The read was interrupted and can be made again. -/
def isInterrupted (e : IoError) : Bool := e.kind = .interrupted

/-- The bytes of an answer. -/
def Event.bytes : Event → List UInt8
  | .failed _ => []
  | .chunk bytes => bytes

/-- What was not given to the app: what is buffered, and what is still to be read. -/
def Global.pending (s : Global) : List UInt8 := s.buffer ++ s.source.flatMap Event.bytes

/-- Bounds how many fills there can be before the end. -/
def Global.cost (s : Global) : Nat := s.pending.length + s.source.length

/-- A line without its ending. -/
def trimLine (line : Str) : Str :=
  match line.stripSuffix (.lit "\n") with
  | some s => (s.stripSuffix (.lit "\r")).getD s
  | none => line

/-- `append_to_string`: what was read has to be text. -/
def lineResult (bytes : List UInt8) : Result :=
  match Str.fromUtf8 bytes with
  | .error _ => .stdinErr (ioerr ⟨.other, "stream did not contain valid UTF-8"⟩)
  | .ok line => if bytes.length = 0 then .endOfFile else .line (trimLine line)

/-- `trantor__sync_io__read` -/
def streamsRead (id : Nat) (max : UInt64) (s : Global) : Except Stuck (Result × Global) := do
  let (result, s) ← sharedRead id (min max.toNat readChunkMax) s
  match result with
  | .ok bytes => return (.bytes bytes, s)
  | .error e => return (.streamErr (ioerr e), s)

/-- `trantor__sync_io__read_until`; there are at most `cost` fills before the end. -/
def streamsReadUntil (id : Nat) (delim : UInt8) (max : UInt64) (s : Global) :
    Except Stuck (Result × Global) := do
  let (result, _, s) ←
    (shared id).take.readUntil isInterrupted delim (s.cost + 1) [] (max.toNat, s)
  match result with
  | .ok bytes => return (.bytes bytes, s)
  | .error e => return (.streamErr (ioerr e), s)

/-- `trantor__cli_host__read_line` -/
def readLine (s : Global) : Except Stuck (Result × Global) := do
  let s ← lock .call s
  let (result, s) ← locked.readUntil isInterrupted 10 (s.cost + 1) [] s
  match result with
  | .ok bytes => return (lineResult bytes, unlock s)
  | .error e => return (.stdinErr (ioerr e), unlock s)

/-- `trantor__cli_host__read_to_end` -/
def readToEnd (s : Global) : Except Stuck (Result × Global) := do
  let s ← lock .call s
  let (result, s) := bufReadToEnd s
  match result with
  | .ok bytes => return (.bytes bytes, unlock s)
  | .error e => return (.stdinErr (ioerr e), unlock s)

/-- A call. -/
def call : Call → Global → Except Stuck (Result × Global)
  | .read id max => streamsRead id max
  | .readUntil id delim max => streamsReadUntil id delim max
  | .readLine => readLine
  | .readToEnd => readToEnd

/-- Calls one after the other. -/
def run : List Call → Global → Except Stuck (List Result × Global)
  | [], s => .ok ([], s)
  | c :: cs, s => do
    let (result, s) ← call c s
    let (results, s) ← run cs s
    return (result :: results, s)

end Stdin

end TrantorCli
