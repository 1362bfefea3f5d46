import TrantorCli.FsOps
import TrantorCli.Lib.WriteAll

/-!
# Streams over open files

A stream owns a duplicate of the descriptor it was made from, and both share one
open file with its cursor. What is under a stream can be handed to another
process, unless the writes of the stream are not plain writes.
-/

open Interaction UnixPath

namespace TrantorCli

open FsCore

/-! ### Opening -/

namespace Fs

/-- The options of `open_at!` -/
structure OpenOptions where
  read : Option Bool
  write : Option Bool
  create : Option Bool
  exclusive : Option Bool
  truncate : Option Bool
  append : Option Bool
  directory : Option Bool
  followSymlinks : Option Bool
  mode : Option UInt32

/-- `default_file_mode` -/
def defaultFileMode : UInt32 := 0o666

/-- `open_flags` -/
def openFlags (o : OpenOptions) : Except IOErr OpenFlags :=
  let exclusive := o.exclusive.getD false
  let append := o.append.getD false
  let flags : OpenFlags := {
    read := o.read.getD true
    write := append || o.write.getD false
    create := exclusive || o.create.getD false
    exclusive
    truncate := o.truncate.getD false
    append
    directory := o.directory.getD false
    followSymlinks := o.followSymlinks.getD true
    mode := o.mode.getD defaultFileMode }
  let changesWithoutWrite := (flags.truncate || flags.create) && !flags.write
  let neitherReadNorWrite := !flags.directory && !flags.read && !flags.write
  let directoryWithWrite := flags.directory && (flags.write || flags.create || flags.truncate)
  let appendContradicted := flags.append && (flags.truncate || flags.directory)
  if changesWithoutWrite || neitherReadNorWrite || directoryWithWrite || appendContradicted then
    .error .unsupported
  else .ok flags

end Fs

namespace OpenFiles

/-! ### Calls on descriptors -/

/-- `std::io::Error`, and whether it is `ESPIPE`. -/
structure OsError where
  error : IoError
  espipe : Bool
  deriving DecidableEq, Repr

/-- `SeekFrom` -/
inductive SeekFrom where
  | start (offset : UInt64)
  /-- `SeekFrom::End(0)` -/
  | atEnd
  deriving DecidableEq, Repr

/-- The calls on descriptors. -/
inductive FdCall where
  /-- `open_with_flags_at!` against the preopen, for a file. -/
  | openFile (path : PathBuf) (flags : OpenFlags)
  /-- `F_DUPFD_CLOEXEC` from 3 on, as `File::try_clone` makes it. -/
  | dup (fd : Nat)
  | seek (fd : Nat) (pos : SeekFrom)
  | write (fd : Nat) (buf : List UInt8)
  /-- Whether `F_GETFL` has `O_APPEND`. -/
  | getAppend (fd : Nat)
  | close (fd : Nat)

/-- What a call gives when it succeeds. -/
def FdReply : FdCall → Type
  | .openFile _ _ | .dup _ => Nat
  | .seek _ _ | .close _ => Unit
  | .write _ _ => Nat
  | .getAppend _ => Bool

/-- The result of a call on descriptors. -/
abbrev FdAnswer (c : FdCall) := Except OsError (FdReply c)

/-- A program of calls on descriptors. -/
abbrev FdSys (α : Type) := Fallible FdCall FdAnswer OsError α

/-- The program that makes a call on descriptors. -/
def fdSys (c : FdCall) : FdSys (FdReply c) := Fallible.ask c

/-- `File::try_clone` -/
def dup (fd : Nat) : FdSys Nat := fdSys (.dup fd)

/-- `Seek::seek` -/
def seek (fd : Nat) (pos : SeekFrom) : FdSys Unit := fdSys (.seek fd pos)

/-- `write(2)` -/
def writeFd (fd : Nat) (buf : List UInt8) : FdSys Nat := fdSys (.write fd buf)

/-- `F_GETFL` -/
def getAppend (fd : Nat) : FdSys Bool := fdSys (.getAppend fd)

/-- `close(2)` -/
def closeFd (fd : Nat) : FdSys Unit := fdSys (.close fd)

/-! ### Streams -/

/-- `Handoff`: what another host can be given for a stream. -/
inductive Handoff where
  | fd (fd : Nat)
  | notAFile
  deriving DecidableEq, Repr

/-- `Input`: an input stream and the descriptor it owns. -/
structure Input where
  fd : Nat
  handoff : Handoff
  deriving DecidableEq, Repr

/-- `Output`: an output stream and the descriptor it owns. -/
structure Output where
  fd : Nat
  /-- The stream is an `EndWriter`. -/
  endWriter : Bool
  handoff : Handoff
  deriving DecidableEq, Repr

/-- `is_a_directory` -/
def isADirectory : OsError := ⟨⟨.isADirectory, "a directory descriptor has no byte stream"⟩, false⟩

/-- `cloned_file` -/
def clonedFile : Desc → FdSys Nat
  | .file fd => dup fd
  | .dir _ | .root => throw isADirectory

/-- Sets the position; what has none is left as it is. -/
def seekIfPositioned (fd : Nat) (pos : SeekFrom) : FdSys Unit :=
  ExceptT.mk ((seek fd pos).run >>= fun result =>
    match result with
    | .ok () => pure (.ok ())
    | .error e => if e.espipe then pure (.ok ()) else pure (.error e))

/-- `p`, where `fd` is dropped on an error. -/
def orDrop {α : Type} (fd : Nat) (p : FdSys α) : FdSys α :=
  ExceptT.mk (p.run >>= fun result =>
    match result with
    | .ok a => pure (.ok a)
    | .error e => (closeFd fd).run >>= fun _ => pure (.error e))

/-- What `write_via_stream` makes of the duplicate. -/
def positionedAt (offset : UInt64) (fd : Nat) : FdSys Output := do
  orDrop fd (seekIfPositioned fd (.start offset))
  pure ⟨fd, false, .fd fd⟩

/-- `write_via_stream` -/
def writeViaStream (d : Desc) (offset : UInt64) : FdSys Output :=
  clonedFile d >>= positionedAt offset

/-- What `append_via_stream` makes of the duplicate. -/
def appending (fd : Nat) : FdSys Output := do
  let append ← orDrop fd (getAppend fd)
  if append then pure ⟨fd, false, .fd fd⟩ else pure ⟨fd, true, .notAFile⟩

/-- `append_via_stream` -/
def appendViaStream (d : Desc) : FdSys Output := clonedFile d >>= appending

/-- `EndWriter::write` -/
def endWriterWrite (fd : Nat) (buf : List UInt8) : FdSys Nat := do
  seekIfPositioned fd .atEnd
  writeFd fd buf

/-- `Write::write` of a stream. -/
def Output.write (o : Output) (buf : List UInt8) : FdSys Nat :=
  if o.endWriter then endWriterWrite o.fd buf else writeFd o.fd buf

/-- `is_interrupted` -/
def OsError.isInterrupted (e : OsError) : Bool := e.error.kind = .interrupted

/-- `WRITE_ALL_EOF` -/
def writeZero : OsError := ⟨⟨.other, "failed to write whole buffer"⟩, false⟩

/-- `Streams.write!`, as far as `rounds` writes go; `flush` has nothing to do. -/
def streamsWrite (rounds : Nat) (o : Output) (bytes : List UInt8) :
    Fallible FdCall FdAnswer (Option OsError) Unit :=
  writeAll o.write OsError.isInterrupted writeZero rounds bytes

/-- Writes one after the other, each with its own result. -/
def writeEach (rounds : Nat) (o : Output) :
    List (List UInt8) → Program FdCall FdAnswer (List (Except (Option OsError) Unit))
  | [] => pure []
  | bytes :: writes => do
    let result ← (streamsWrite rounds o bytes).run
    let results ← writeEach rounds o writes
    pure (result :: results)

/-- A stream that is made, and what is written through it. -/
def streaming (rounds : Nat) (made : FdSys Output) (writes : List (List UInt8)) :
    FdSys (List (Except (Option OsError) Unit)) := do
  let o ← made
  ExceptT.mk (writeEach rounds o writes >>= fun results => pure (.ok results))

/-- A stream on a descriptor: from an offset on, or at the end. -/
inductive StreamUse where
  | write (offset : UInt64) (writes : List (List UInt8))
  | append (writes : List (List UInt8))

/-- What is written through the stream. -/
def StreamUse.writes : StreamUse → List (List UInt8)
  | .write _ writes | .append writes => writes

/-- The stream, made of the descriptor. -/
def StreamUse.made (d : Desc) : StreamUse → FdSys Output
  | .write offset _ => writeViaStream d offset
  | .append _ => appendViaStream d

/-- A stream that is made, written through and dropped. -/
def StreamUse.run (rounds : Nat) (d : Desc) (use : StreamUse) :
    FdSys (List (Except (Option OsError) Unit)) := do
  let o ← use.made d
  ExceptT.mk (writeEach rounds o use.writes >>= fun results =>
    (closeFd o.fd).run >>= fun _ => pure (.ok results))

/-- Streams on one descriptor, one after the other. -/
def streamEach (rounds : Nat) (d : Desc) :
    List StreamUse → Program FdCall FdAnswer
      (List (Except OsError (List (Except (Option OsError) Unit))))
  | [] => pure []
  | use :: uses => do
    let result ← (use.run rounds d).run
    let results ← streamEach rounds d uses
    pure (result :: results)

/-! ### Writers -/

/-- An error as it is reported. -/
def hosted {α : Type} (p : FdSys α) : Fallible FdCall FdAnswer IOErr α :=
  ExceptT.mk (p.run >>= fun result => pure (result.mapError fun e => ioerr e.error))

/-- `open_at!`, for a file -/
def openAt (path : PathBuf) (opts : Fs.OpenOptions) : Fallible FdCall FdAnswer IOErr Desc :=
  match Fs.openFlags opts with
  | .error e => throw e
  | .ok flags => hosted do return .file (← fdSys (.openFile path flags))

/-- `FsOps.Writer` -/
structure Writer where
  descriptor : Desc
  stream : Output

/-- `[Truncate, Append]` -/
inductive WriterMode where
  | truncate
  | append
  deriving DecidableEq, Repr

/-- The options that are not named. -/
def noOptions : Fs.OpenOptions := ⟨none, none, none, none, none, none, none, none, none⟩

/-- `writer_at!` -/
def writerAt (abs : PathBuf) : WriterMode → Fallible FdCall FdAnswer IOErr Writer
  | .truncate => do
    let descriptor ← openAt abs
      { noOptions with
        read := some false, write := some true, create := some true, truncate := some true }
    let stream ← hosted (writeViaStream descriptor 0)
    pure ⟨descriptor, stream⟩
  | .append => do
    let descriptor ← openAt abs
      { noOptions with
        read := some false, write := some true, create := some true, append := some true }
    let stream ← hosted (appendViaStream descriptor)
    pure ⟨descriptor, stream⟩

/-- `open_append!` -/
def openAppend (s : FsOps.Process) (path : PathBuf) : Fallible FdCall FdAnswer IOErr Writer :=
  writerAt (FsOps.resolve s path) .append

/-- A writer that is opened, and what is written through it. -/
def writing (rounds : Nat) (opened : Fallible FdCall FdAnswer IOErr Writer)
    (writes : List (List UInt8)) :
    Fallible FdCall FdAnswer IOErr (List (Except (Option OsError) Unit)) := do
  let writer ← opened
  ExceptT.mk (writeEach rounds writer.stream writes >>= fun results => pure (.ok results))

/-! ### Handing descriptors on -/

/-- `[NotAFile, Io(IOErr)]` -/
inductive HandoffError where
  | notAFile
  | io (e : OsError)
  deriving DecidableEq, Repr

/-- A program that hands a descriptor on. -/
abbrev HandoffSys (α : Type) := Fallible FdCall FdAnswer HandoffError α

/-- `dup_owned` -/
def dupOwned : Handoff → HandoffSys Nat
  | .fd fd => ExceptT.mk ((dup fd).run >>= fun result => pure (result.mapError .io))
  | .notAFile => throw .notAFile

/-- `output_fd!` -/
def outputFd (o : Output) : HandoffSys Nat := dupOwned o.handoff

/-- `input_fd!` -/
def inputFd (i : Input) : HandoffSys Nat := dupOwned i.handoff

end OpenFiles

end TrantorCli
