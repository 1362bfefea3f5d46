import TrantorCli.Lib.Interaction.Run
import TrantorCli.Lib.UnixPath

/-!
# Roots, descriptors and system calls

The filesystem operations act on a `Target`: an ambient path, or a path beneath
the handle of a confined root. The operating system is what answers their calls.
-/

open Interaction UnixPath

namespace TrantorCli.FsCore

/-- The kinds of `std::io::ErrorKind` that are told apart. -/
inductive ErrorKind where
  | notFound
  | permissionDenied
  | alreadyExists
  | brokenPipe
  | interrupted
  | unsupported
  | isADirectory
  | notADirectory
  | outOfMemory
  | invalidInput
  | other
  deriving DecidableEq, Repr

/-- `std::io::Error`: what is read off one. -/
structure IoError where
  kind : ErrorKind
  message : String
  deriving DecidableEq, Repr

/-- `IOErr`: the error an operation reports. -/
inductive IOErr where
  | notFound
  | permissionDenied
  | alreadyExists
  | brokenPipe
  | interrupted
  | unsupported
  | isADirectory
  | notADirectory
  | outOfMemory
  | other (message : String)
  deriving DecidableEq, Repr

/-- `ioerr` -/
def ioerr (e : IoError) : IOErr :=
  match e.kind with
  | .notFound => .notFound
  | .permissionDenied => .permissionDenied
  | .alreadyExists => .alreadyExists
  | .brokenPipe => .brokenPipe
  | .interrupted => .interrupted
  | .unsupported => .unsupported
  | .isADirectory => .isADirectory
  | .notADirectory => .notADirectory
  | .outOfMemory => .outOfMemory
  | .invalidInput => .other e.message
  | .other => .other e.message

/-- `Root`: the one policy knob. A confined root is established once and then fixed, its failure
included. -/
inductive Root where
  /-- Ambient authority over this base. -/
  | unconfined (base : AbsPath)
  /-- Nothing outside the base, which is the working directory. -/
  | confined (opened : Except IoError PlainPath)

/-- `Root::opened`: the base of a confined root, or `none` for an unconfined root. -/
def Root.opened : Root → Except IoError (Option PlainPath)
  | .unconfined _ => .ok none
  | .confined opened => opened.map some

/-- `Root::base`: the directory the preopen names. -/
def Root.base : Root → Except IoError AbsPath
  | .unconfined base => .ok base
  | .confined opened => opened.map (·.toAbsPath)

/-- An open file or directory. -/
abbrev Handle := Nat

/-- `Desc`: what a descriptor stands for. -/
inductive Desc where
  | dir (path : PathBuf)
  | file (file : Handle)
  /-- The preopen, named rather than resolved. -/
  | root
  deriving DecidableEq, Repr

/-- `dir_of`: the directory a descriptor resolves paths against. -/
def dirOf (r : Root) (d : Desc) : Except IoError PathBuf :=
  match d with
  | .root => r.base.map (·.bytes)
  | .dir path => .ok path
  | .file _ =>
    .error ⟨.notADirectory, "a file descriptor is not a directory to resolve paths against"⟩

/-- `Target`: what a resolved path is, and so how an operation acts on it. -/
inductive Target where
  /-- An ambient path. -/
  | ambient (path : PathBuf)
  /-- A path relative to the handle of the confined root. -/
  | beneath (path : PathBuf)
  deriving DecidableEq, Repr

/-- `Target::with_path`: another path on the same backend. -/
def Target.withPath : Target → PathBuf → Target
  | .ambient _, path => .ambient path
  | .beneath _, path => .beneath path

/-- `Target::path` -/
def Target.path : Target → PathBuf
  | .ambient path => path
  | .beneath path => path

/-- What `stat` tells of an object. -/
structure Metadata where
  isDir : Bool
  isFile : Bool
  isSymlink : Bool
  mode : UInt32
  dev : UInt64
  ino : UInt64
  deriving DecidableEq, Repr

/-- `Fs.OpenFlags` -/
structure OpenFlags where
  read : Bool
  write : Bool
  create : Bool
  exclusive : Bool
  truncate : Bool
  append : Bool
  directory : Bool
  followSymlinks : Bool
  mode : UInt32
  deriving DecidableEq, Repr

/-- The system calls, as the backends make them. -/
inductive Call where
  /-- `Path::canonicalize` -/
  | canonicalize (path : PathBuf)
  /-- `metadata`: what the name leads to. -/
  | metadata (tg : Target)
  /-- `symlink_metadata`: what stands at the name. -/
  | symlinkMetadata (tg : Target)
  /-- Opens a directory for reading. -/
  | openDirectory (tg : Target) (follow : Bool)
  /-- Opens a file with the given flags. -/
  | openFile (tg : Target) (flags : OpenFlags)
  /-- Opens a file for reading, without waiting. -/
  | openRead (tg : Target)
  /-- Creates and opens a file that must not exist. -/
  | createNew (tg : Target) (mode : UInt32)
  | createDir (tg : Target) (mode : UInt32)
  | removeDir (tg : Target)
  | removeDirAll (tg : Target)
  | removeFile (tg : Target)
  /-- `File::metadata` -/
  | fileMetadata (file : Handle)
  /-- `std::io::copy` -/
  | copyData (src dst : Handle)
  /-- `File::set_permissions` -/
  | setPermissions (file : Handle) (mode : UInt32)
  deriving DecidableEq, Repr

/-- What a call gives when it succeeds. -/
def Reply : Call → Type
  | .canonicalize _ => PlainPath
  | .metadata _ | .symlinkMetadata _ | .fileMetadata _ => Metadata
  | .openDirectory _ _ | .openFile _ _ | .openRead _ | .createNew _ _ => Handle
  | .createDir _ _ | .removeDir _ | .removeDirAll _ | .removeFile _ => Unit
  | .copyData _ _ | .setPermissions _ _ => Unit

/-- The result of a call. -/
abbrev Answer (c : Call) := Except IoError (Reply c)

/-- A program of system calls that ends in a result or an error. -/
abbrev Sys (α : Type) := Fallible Call Answer IoError α

/-- An operating system as long as nothing changes: the answer to every call. -/
abbrev Os := ∀ c, Answer c

/-! ### The calls as programs -/

/-- The program that makes the system call `c`. -/
def sys (c : Call) : Sys (Reply c) := Fallible.ask c

/-- `Path::canonicalize` -/
def canonicalize (path : PathBuf) : Sys PlainPath := sys (.canonicalize path)

/-- `metadata` -/
def metadata (tg : Target) : Sys Metadata := sys (.metadata tg)

/-- `symlink_metadata` -/
def symlinkMetadata (tg : Target) : Sys Metadata := sys (.symlinkMetadata tg)

/-- Opens a directory. -/
def openDirectory (tg : Target) (follow : Bool) : Sys Handle :=
  sys (.openDirectory tg follow)

/-- Opens a file under the flags. -/
def openFile (tg : Target) (flags : OpenFlags) : Sys Handle := sys (.openFile tg flags)

/-- Opens a file to be read. -/
def openRead (tg : Target) : Sys Handle := sys (.openRead tg)

/-- Creates a file that must not be there. -/
def createNew (tg : Target) (mode : UInt32) : Sys Handle := sys (.createNew tg mode)

/-- `create_dir` -/
def createDir (tg : Target) (mode : UInt32) : Sys Unit := sys (.createDir tg mode)

/-- `remove_dir` -/
def removeDir (tg : Target) : Sys Unit := sys (.removeDir tg)

/-- `remove_dir_all` -/
def removeDirAll (tg : Target) : Sys Unit := sys (.removeDirAll tg)

/-- `remove_file` -/
def removeFile (tg : Target) : Sys Unit := sys (.removeFile tg)

/-- `File::metadata` -/
def fileMetadata (file : Handle) : Sys Metadata := sys (.fileMetadata file)

/-- `std::io::copy` -/
def copyData (src dst : Handle) : Sys Unit := sys (.copyData src dst)

/-- `File::set_permissions` -/
def setPermissions (file : Handle) (mode : UInt32) : Sys Unit :=
  sys (.setPermissions file mode)

/-- A result that took no system call. -/
def Sys.ofExcept {α : Type} (result : Except IoError α) : Sys α := ExceptT.mk (pure result)

/-- A program whose own result is never an error of the whole. -/
def Sys.ofProgram {α : Type} (p : Program Call Answer α) : Sys α :=
  ExceptT.mk (p >>= fun a => pure (.ok a))

/-- A result at hand takes no call. -/
theorem onlyCalls_ofExcept {α : Type} {P : Call → Prop} (result : Except IoError α) :
    Fallible.OnlyCalls P (Sys.ofExcept result) := trivial

/-- A program whose result is no error makes the calls that it made. -/
theorem onlyCalls_ofProgram {α : Type} {P : Call → Prop} {p : Program Call Answer α}
    (h : p.OnlyCalls P) : Fallible.OnlyCalls P (Sys.ofProgram p) :=
  h.bind fun _ => trivial

/-- A result at hand is what it evaluates to. -/
@[simp] theorem eval_ofExcept {α : Type} (os : Os) (result : Except IoError α) :
    Fallible.eval os (Sys.ofExcept result) = result := rfl

/-- A result at hand leaves no trace. -/
@[simp] theorem trace_ofExcept {α : Type} (os : Os) (result : Except IoError α) :
    Fallible.trace os (Sys.ofExcept result) = [] := rfl

/-- A program whose result is no error succeeds with it. -/
@[simp] theorem eval_ofProgram {α : Type} (os : Os) (p : Program Call Answer α) :
    Fallible.eval os (Sys.ofProgram p) = .ok (p.eval os) :=
  Program.eval_bind os p _

/-- Evaluating below the errors is evaluating. -/
theorem eval_run {α : Type} (os : Os) (p : Sys α) :
    Program.eval os (ExceptT.run p) = Fallible.eval os p := rfl

end TrantorCli.FsCore
