import TrantorCli.FsCore.Confinement
import TrantorCli.OpenFiles

/-!
# Hosted calls on handles

A handle is for a box that owns the descriptor of what is in it. A hosted call
borrows a box and gives the handle back before it goes on, and what it made it
boxes; what it hands on is a duplicate that no box owns, and so is the directory
of a confined root, which the process keeps.
-/

open Interaction UnixPath

namespace TrantorCli.OpenFiles

open FsCore

/-! ### Boxes -/

/-- What is in a box; the streams of the process itself close nothing. -/
inductive Boxed where
  | descriptor (d : Desc)
  | input (i : Input) (closes : Bool)
  | output (o : Output) (closes : Bool)

/-- The descriptor that is closed with the box. -/
def Boxed.owns : Boxed → Option Nat
  | .descriptor (.file fd) => some fd
  | .descriptor (.dir _) | .descriptor .root => none
  | .input i closes => if closes then some i.fd else none
  | .output o closes => if closes then some o.fd else none

/-- The calls of the host: on descriptors, on names, on what is kept, and on boxes. -/
inductive HostCall where
  | fd (c : FdCall)
  /-- A call that leaves no descriptor open. -/
  | aside (c : RootCall)
  /-- What a confined root has been found to be, if it was asked for. -/
  | kept
  /-- `OnceLock::get_or_init` keeps what was found. -/
  | keep (found : Except Failed Opened)
  | descriptor (box : Nat)
  | input (box : Nat)
  | output (box : Nat)
  /-- `resource::with` gives the handle back when the borrow ends. -/
  | release (box : Nat)
  /-- `resource::new` -/
  | new (b : Boxed)

/-- What a call of the host answers. -/
def HostReply : HostCall → Type
  | .fd c => FdAnswer c
  | .aside c => RootAnswer c
  | .kept => Option (Except Failed Opened)
  | .keep _ => Unit
  | .descriptor _ => Desc
  | .input _ => Input
  | .output _ => Output
  | .release _ => Unit
  | .new _ => Nat

/-- A program of the host. -/
abbrev HostProgram (α : Type) := Program HostCall HostReply α

/-- Calls on descriptors, made by the host. -/
def onFds {ε α : Type} (p : Fallible FdCall FdAnswer ε α) : HostProgram (Except ε α) :=
  (ExceptT.run p).interp fun c => .call (.fd c) .done

/-- The handle is given back when the borrow ends. -/
def lending {α : Type} (box : Nat) (p : HostProgram α) : HostProgram α :=
  p >>= fun result => .call (.release box) fun _ => .done result

/-- `resource::with`, for a box in which there is a descriptor. -/
def withDescriptor {ε α : Type} (box : Nat) (f : Desc → Fallible FdCall FdAnswer ε α) :
    HostProgram (Except ε α) :=
  .call (.descriptor box) fun d => lending box (onFds (f d))

/-- `resource::with`, for an input stream. -/
def withInput {ε α : Type} (box : Nat) (f : Input → Fallible FdCall FdAnswer ε α) :
    HostProgram (Except ε α) :=
  .call (.input box) fun i => lending box (onFds (f i))

/-- `resource::with`, for an output stream. -/
def withOutput {ε α : Type} (box : Nat) (f : Output → Fallible FdCall FdAnswer ε α) :
    HostProgram (Except ε α) :=
  .call (.output box) fun o => lending box (onFds (f o))

/-! ### Hosted functions -/

/-- What a hosted call answers the app. -/
inductive HostResult where
  | box (n : Nat)
  | fd (n : Nat)
  | done
  | failed (e : HandoffError)
  /-- A write that is still at it. -/
  | goesOn
  deriving DecidableEq, Repr

/-- What was made is boxed. -/
def boxing {α : Type} (b : α → Boxed) : Except OsError α → HostProgram HostResult
  | .ok a => .call (.new (b a)) fun n => .done (.box n)
  | .error e => .done (.failed (.io e))

/-- What was duplicated is handed on. -/
def handing : Except HandoffError Nat → HostProgram HostResult
  | .ok fd => .done (.fd fd)
  | .error e => .done (.failed e)

/-! ### Opening at a path -/

/-- What is opened under a name, for the running call to own. -/
def opened (path : PathBuf) (flags : OpenFlags) : HostProgram (Except IoError Handle) :=
  .call (.fd (.openFile path flags)) fun (answer : Except OsError Nat) =>
    .done (answer.mapError (·.error))

/-- `O_RDONLY`, for a file or for a directory. -/
def readOnly (directory followSymlinks : Bool) : OpenFlags :=
  ⟨true, false, false, false, false, false, directory, followSymlinks, 0⟩

/-- The calls by which the root is found and a name is opened; what `open_dir` opens it drops. -/
def opening : Handler RootCall HostCall RootAnswer HostReply
  | .openAmbientDir base => opened base.bytes (readOnly true true)
  | .path (.sys (.openFile tg flags)) => opened tg.path flags
  | .path (.sys (.openRead tg)) => opened tg.path (readOnly false true)
  | .path (.sys (.createNew tg mode)) =>
    opened tg.path ⟨false, true, true, true, false, false, false, true, mode⟩
  | .path (.sys (.openDirectory tg follow)) =>
    opened tg.path (readOnly true follow) >>= fun answer =>
      match answer with
      | .ok dir => .call (.fd (.close dir)) fun _ => .done (.ok dir)
      | .error e => .done (.error e)
  | c => .call (.aside c) .done

/-- `Root`, of which a confined one is still to be found. -/
inductive Policy where
  | unconfined (base : AbsPath)
  | confined

/-- `Confinement::opened` -/
def openedRoot : HostProgram (Except Failed Opened) :=
  .call .kept fun (kept : Option (Except Failed Opened)) =>
    match kept with
    | some found => .done found
    | none =>
      Confinement.init.interp opening >>= fun found => .call (.keep found) fun _ => .done found

/-- `Root::opened`: the root as it is from then on. -/
def Policy.root : Policy → HostProgram Root
  | .unconfined base => .done (.unconfined base)
  | .confined => openedRoot >>= fun kept => .done (.ofKept kept)

/-- `dir_of`, which asks for the root when the descriptor is the preopen. -/
def Policy.dirOf (policy : Policy) : Desc → HostProgram (Except IoError PathBuf)
  | .root => policy.root >>= fun r => .done (FsCore.dirOf r .root)
  | d => .done (FsCore.dirOf (.unconfined .slash) d)

/-- `resolve`, and the open that the path is for. -/
def openResolved (r : Root) (dir path : PathBuf) (flags : OpenFlags) : Sys Desc := do
  let tg ← resolve r dir path
  if flags.directory then openDir r tg flags.followSymlinks else openNonDirectory tg flags

/-- The system calls of a program, made by the host. -/
def onNames {α : Type} (p : Sys α) : HostProgram (Except IoError α) :=
  (ExceptT.run p).interp fun c => opening (.path (.sys c))

/-- What is opened at a path from a directory on; `resolve` asks for the root unless the path is
empty. -/
def openedAt (policy : Policy) (path : PathBuf) (flags : OpenFlags) :
    Except IoError PathBuf → HostProgram (Except IoError Desc)
  | .ok dir =>
    (if path = [] then .done (.unconfined .slash) else policy.root) >>= fun r =>
      onNames (openResolved r dir path flags)
  | .error e => .done (.error e)

namespace Hosted

/-- `open_with_flags_at` -/
def openWithFlagsAt (policy : Policy) (box : Nat) (path : PathBuf) (flags : OpenFlags) :
    HostProgram HostResult :=
  .call (.descriptor box) fun d => lending box (policy.dirOf d) >>= openedAt policy path flags >>=
    fun result => boxing .descriptor (result.mapError (⟨·, false⟩))

/-- `preopens` -/
def preopens : HostProgram HostResult := boxing .descriptor (.ok .root)

/-- `get_stdin` -/
def getStdin : HostProgram HostResult := boxing (.input · false) (.ok ⟨0, .fd 0⟩)

/-- `get_stdout` -/
def getStdout : HostProgram HostResult := boxing (.output · false) (.ok ⟨1, false, .fd 1⟩)

/-- `get_stderr` -/
def getStderr : HostProgram HostResult := boxing (.output · false) (.ok ⟨2, false, .fd 2⟩)

/-- `read_via_stream` -/
def readViaStream (box : Nat) : HostProgram HostResult :=
  withDescriptor box clonedFile >>= boxing fun fd => .input ⟨fd, .fd fd⟩ true

/-- What is made of the duplicate, once the descriptor was given back. -/
def viaStream (make : Nat → FdSys Output) : Except OsError Nat → HostProgram HostResult
  | .ok fd => onFds (make fd) >>= boxing (.output · true)
  | .error e => .done (.failed (.io e))

/-- `write_via_stream` -/
def writeViaStream (box : Nat) (offset : UInt64) : HostProgram HostResult :=
  withDescriptor box clonedFile >>= viaStream (positionedAt offset)

/-- `append_via_stream` -/
def appendViaStream (box : Nat) : HostProgram HostResult :=
  withDescriptor box clonedFile >>= viaStream appending

/-- `Streams.write!` -/
def write (rounds box : Nat) (bytes : List UInt8) : HostProgram HostResult :=
  withOutput box (fun o => streamsWrite rounds o bytes) >>= fun result =>
    match result with
    | .ok () => .done .done
    | .error (some e) => .done (.failed (.io e))
    | .error none => .done .goesOn

/-- `output_fd!` -/
def outputFd (box : Nat) : HostProgram HostResult := withOutput box OpenFiles.outputFd >>= handing

/-- `input_fd!` -/
def inputFd (box : Nat) : HostProgram HostResult := withInput box OpenFiles.inputFd >>= handing

/-- `descriptor_fd!` -/
def descriptorFd (box : Nat) : HostProgram HostResult :=
  readViaStream box >>= fun result =>
    match result with
    | .box n => inputFd n
    | .failed (.io e) =>
      .done (.failed (if ioerr e.error = .isADirectory then .notAFile else .io e))
    | other => .done other

/-- `close_fd!` -/
def closeFd (fd : Nat) : HostProgram HostResult :=
  onFds (OpenFiles.closeFd fd) >>= fun _ => .done .done

/-- The app lets go of a handle. -/
def drop (box : Nat) : HostProgram HostResult := .call (.release box) fun _ => .done .done

end Hosted

/-- The hosted calls of an app. -/
inductive HostOp where
  | openWithFlagsAt (box : Nat) (path : PathBuf) (flags : OpenFlags)
  | preopens
  | getStdin
  | getStdout
  | getStderr
  | readViaStream (box : Nat)
  | writeViaStream (box : Nat) (offset : UInt64)
  | appendViaStream (box : Nat)
  | write (box : Nat) (bytes : List UInt8)
  | outputFd (box : Nat)
  | inputFd (box : Nat)
  | descriptorFd (box : Nat)
  | closeFd (fd : Nat)
  | drop (box : Nat)

/-- The program of a hosted call on the root that was chosen. -/
def HostOp.run (policy : Policy) (rounds : Nat) : HostOp → HostProgram HostResult
  | .openWithFlagsAt box path flags => Hosted.openWithFlagsAt policy box path flags
  | .preopens => Hosted.preopens
  | .getStdin => Hosted.getStdin
  | .getStdout => Hosted.getStdout
  | .getStderr => Hosted.getStderr
  | .readViaStream box => Hosted.readViaStream box
  | .writeViaStream box offset => Hosted.writeViaStream box offset
  | .appendViaStream box => Hosted.appendViaStream box
  | .write box bytes => Hosted.write rounds box bytes
  | .outputFd box => Hosted.outputFd box
  | .inputFd box => Hosted.inputFd box
  | .descriptorFd box => Hosted.descriptorFd box
  | .closeFd fd => Hosted.closeFd fd
  | .drop box => Hosted.drop box

end TrantorCli.OpenFiles
