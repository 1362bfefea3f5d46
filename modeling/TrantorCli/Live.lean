import TrantorCli.FsCore.Sessions
import TrantorCli.Lib.Interaction.Cell
import TrantorCli.Path.Listing

/-!
# The path layer while the system changes

What an app does with paths goes through four layers: the names it uses, those of
the host it is written against, the operations on bytes that resolve them against
the working directory, and the hosted functions. Here each makes its calls one by
one, so that the slot of the working directory and the system may change between any
two of them.
-/

open Interaction UnixPath Roc

namespace TrantorCli

open FsCore
open FsOps (CwdError osBytes joinBytes)
open Host (nativeBytes dirBytes joinEntry)

/-- `FileErr` -/
inductive FileErr where
  | fileErr (err : IOErr)
  deriving DecidableEq, Repr

/-- `Err(FileErr(err)) => Err(PathErr(err))` -/
def FileErr.toPathErr : FileErr → PathErr
  | .fileErr err => .pathErr err

/-- What `Path.type!` answers. -/
inductive PathType where
  | isFile
  | isDir
  | isSymLink
  | isOther
  deriving DecidableEq, Repr

/-- `path_type_from_host` -/
def pathTypeFromHost : FileKind → PathType
  | .file => .isFile
  | .dir => .isDir
  | .symLink => .isSymLink
  | .other => .isOther

namespace Live

/-- The hosted functions beneath the path layer, besides those of its slot. -/
inductive HostCall where
  /-- `CliEnv.cwd!` -/
  | cwd
  /-- A function of `Fs`, on `root!()`. -/
  | fs (op : Op)

/-- What a hosted function answers. -/
def HostOutcome : HostCall → Type
  | .cwd => Except IOErr OsStr
  | .fs op => Outcome op

/-- What is done through the slot and the hosted functions. -/
abbrev Effect (α : Type) := Program (Celled Str HostCall) (CelledReply Str HostOutcome) α

/-- The same, where it may fail. -/
abbrev Attempt (ε α : Type) := Fallible (Celled Str HostCall) (CelledReply Str HostOutcome) ε α

/-- What is known without asking. -/
def known {ε α : Type} (result : Except ε α) : Attempt ε α := ExceptT.mk (pure result)

/-- `Cwd.get!` -/
def Cwd.get : Effect Str := Program.ask Celled.get

/-- `Cwd.set!` -/
def Cwd.set (value : Str) : Effect Unit := Program.ask (Celled.set value)

/-- `CliEnv.cwd!` -/
def CliEnv.cwd : Effect (Except IOErr OsStr) := Program.ask (Celled.own HostCall.cwd)

/-- The hosted function of an operation. -/
def fs (op : Op) : Effect (Outcome op) := Program.ask (Celled.own (HostCall.fs op))

namespace Fs

/-- `read_file_at!` on `root!()`, as all that follow. -/
def readFileAt (path : PathBuf) : Effect (Except IOErr (List UInt8)) := fs (.readFile path)

/-- `write_file_at!` -/
def writeFileAt (path : PathBuf) (data : List UInt8) : Effect (Except IOErr Unit) :=
  fs (.writeFile path data)

/-- `stat_at!`, for its kind -/
def statAt (path : PathBuf) (followSymlinks : Bool) : Effect (Except IOErr FileKind) :=
  fs (.stat path followSymlinks)

/-- `read_dir_at!` -/
def readDirAt (path : PathBuf) : Effect (Except IOErr (List EntryRec)) := fs (.readDir path)

/-- `create_dir_at!` -/
def createDirAt (path : PathBuf) (mode : UInt32) : Effect (Except IOErr Unit) :=
  fs (.createDir path mode)

/-- `create_dir_all_at!` -/
def createDirAllAt (path : PathBuf) : Effect (Except IOErr Unit) := fs (.createDirAll path)

/-- `remove_dir_at!` -/
def removeDirAt (path : PathBuf) : Effect (Except IOErr Unit) := fs (.removeDir path)

/-- `remove_dir_all_at!` -/
def removeDirAllAt (path : PathBuf) : Effect (Except IOErr Unit) := fs (.removeDirAll path)

/-- `unlink_at!` -/
def unlinkAt (path : PathBuf) : Effect (Except IOErr Unit) := fs (.unlink path)

/-- `readlink_at!` -/
def readlinkAt (path : PathBuf) : Effect (Except IOErr PathBuf) := fs (.readlink path)

/-- `copy_file_at!` -/
def copyFileAt (src dst : PathBuf) : Effect (Except IOErr Unit) := fs (.copyFile src dst)

/-- `default_dir_mode` -/
def defaultDirMode : UInt32 := 0o777

end Fs

/-! ### The operations on bytes -/

namespace FsOps

/-- `cwd!` -/
def cwd : Effect (Except CwdError PathBuf) := do
  let c ← Cwd.get
  if c.isEmpty then
    match ← CliEnv.cwd with
    | .ok os => pure (.ok (osBytes os))
    | .error _ => pure (.error .cwdUnavailable)
  else pure (.ok c.toUtf8)

/-- `resolve!` -/
def resolve (p : PathBuf) : Effect PathBuf :=
  if isAbsolute p || p.isEmpty then pure p
  else do
    match ← cwd with
    | .ok c => pure (joinBytes c p)
    | .error .cwdUnavailable => pure []

/-- `followed_kind!` -/
def followedKind (p : PathBuf) : Effect (Except IOErr FileKind) := do
  Fs.statAt (← resolve p) true

/-- `kind!` -/
def kind (p : PathBuf) : Effect (Except IOErr FileKind) := do
  Fs.statAt (← resolve p) false

/-- `set_cwd!` -/
def setCwd (p : Str) : Effect (Except IOErr Unit) := do
  let abs := Str.fromUtf8Lossy (← resolve p.toUtf8)
  match ← followedKind abs.toUtf8 with
  | .ok .dir => do
    Cwd.set abs
    pure (.ok ())
  | .ok _ => pure (.error .notADirectory)
  | .error e => pure (.error e)

/-- `as_file` -/
def asFile {α : Type} (p : Effect (Except IOErr α)) : Attempt FileErr α :=
  ExceptT.adapt FileErr.fileErr (ExceptT.mk p)

/-- `as_dir` -/
def asDir {α : Type} (p : Effect (Except IOErr α)) : Attempt DirErr α :=
  ExceptT.adapt DirErr.dirErr (ExceptT.mk p)

/-- `read!` -/
def read (p : PathBuf) : Attempt FileErr (List UInt8) := asFile do Fs.readFileAt (← resolve p)

/-- `write!` -/
def write (p : PathBuf) (b : List UInt8) : Attempt FileErr Unit :=
  asFile do Fs.writeFileAt (← resolve p) b

/-- `delete!` -/
def delete (p : PathBuf) : Attempt FileErr Unit := asFile do Fs.unlinkAt (← resolve p)

/-- `entries!` -/
def entries (p : PathBuf) : Attempt DirErr (List EntryRec) := asDir do Fs.readDirAt (← resolve p)

/-- `list!` -/
def list (p : PathBuf) : Attempt DirErr (List (List UInt8)) := do
  let entries ← entries p
  return entries.map fun e => e.name

/-- `create_dir_mode!` -/
def createDirMode (p : PathBuf) (mode : UInt32) : Attempt DirErr Unit :=
  asDir do Fs.createDirAt (← resolve p) mode

/-- `create_dir!` -/
def createDir (p : PathBuf) : Attempt DirErr Unit := createDirMode p Fs.defaultDirMode

/-- `create_all!` -/
def createAll (p : PathBuf) : Attempt DirErr Unit := asDir do Fs.createDirAllAt (← resolve p)

/-- `delete_empty!` -/
def deleteEmpty (p : PathBuf) : Attempt DirErr Unit := asDir do Fs.removeDirAt (← resolve p)

/-- `delete_all!` -/
def deleteAll (p : PathBuf) : Attempt DirErr Unit := asDir do Fs.removeDirAllAt (← resolve p)

/-- `copy!` -/
def copy (a b : PathBuf) : Attempt FileErr Unit :=
  asFile do Fs.copyFileAt (← resolve a) (← resolve b)

/-- `read_sym_link!` -/
def readSymLink (p : PathBuf) : Attempt FileErr PathBuf := asFile do Fs.readlinkAt (← resolve p)

end FsOps

/-! ### The host -/

namespace Host

/-- `file_bytes` -/
def fileBytes (p : OsStr) : Except FileErr PathBuf := (nativeBytes p).mapError FileErr.fileErr

/-- `dir_create!` -/
def dirCreate (p : OsStr) : Attempt DirErr Unit := do FsOps.createDir (← known (dirBytes p))

/-- `dir_create_all!` -/
def dirCreateAll (p : OsStr) : Attempt DirErr Unit := do FsOps.createAll (← known (dirBytes p))

/-- `dir_delete_empty!` -/
def dirDeleteEmpty (p : OsStr) : Attempt DirErr Unit := do FsOps.deleteEmpty (← known (dirBytes p))

/-- `dir_delete_all!` -/
def dirDeleteAll (p : OsStr) : Attempt DirErr Unit := do FsOps.deleteAll (← known (dirBytes p))

/-- `dir_list!` -/
def dirList (p : OsStr) : Attempt DirErr (List OsStr) := do
  let dir ← known (dirBytes p)
  let names ← FsOps.list dir
  return names.map fun name => native (joinEntry dir name)

/-- `file_read_bytes!` -/
def fileReadBytes (p : OsStr) : Attempt FileErr (List UInt8) := do
  FsOps.read (← known (fileBytes p))

/-- `file_write_bytes!` -/
def fileWriteBytes (p : OsStr) (bytes : List UInt8) : Attempt FileErr Unit := do
  FsOps.write (← known (fileBytes p)) bytes

/-- `file_read_utf8!` -/
def fileReadUtf8 (p : OsStr) : Attempt FileErr Str := do
  match Str.fromUtf8 (← FsOps.read (← known (fileBytes p))) with
  | .ok s => pure s
  | .error _ => throw (.fileErr (.other "file is not valid UTF-8"))

/-- `file_write_utf8!` -/
def fileWriteUtf8 (p : OsStr) (s : Str) : Attempt FileErr Unit := do
  FsOps.write (← known (fileBytes p)) s.toUtf8

/-- `file_delete!` -/
def fileDelete (p : OsStr) : Attempt FileErr Unit := do FsOps.delete (← known (fileBytes p))

/-- `file_copy!` -/
def fileCopy (src dst : OsStr) : Attempt FileErr Unit := do
  FsOps.copy (← known (fileBytes src)) (← known (fileBytes dst))

/-- `file_read_sym_link!` -/
def fileReadSymLink (p : OsStr) : Attempt FileErr OsStr := do
  let target ← FsOps.readSymLink (← known (fileBytes p))
  return native target

/-- `path_type!` -/
def pathType (p : OsStr) : Attempt IOErr FileKind := do
  let b ← known (nativeBytes p)
  ExceptT.mk (FsOps.kind b)

/-- `env_cwd!` -/
def envCwd : Effect (Except CwdError OsStr) := do return (← FsOps.cwd).map native

/-- `env_set_cwd!` -/
def envSetCwd : OsStr → Effect (Except IOErr Unit)
  | .utf8 s => FsOps.setCwd s
  | .unixBytes b =>
    match Str.fromUtf8 b with
    | .ok s => FsOps.setCwd s
    | .error _ => pure (.error (.other "cwd is not valid UTF-8"))
  | .windowsU16s _ => pure (.error (.other "windows paths are not supported on this host"))

end Host

/-! ### Paths -/

/-- `map_file_result` -/
def mapFileResult {α : Type} (p : Attempt FileErr α) : Attempt PathErr α :=
  ExceptT.adapt FileErr.toPathErr p

/-- `map_dir_result` -/
def mapDirResult {α : Type} (p : Attempt DirErr α) : Attempt PathErr α :=
  ExceptT.adapt DirErr.toPathErr p

namespace Path

/-- `type!` -/
def type (path : Path) : Attempt PathErr PathType :=
  pathTypeFromHost <$> ExceptT.adapt PathErr.pathErr (Host.pathType path.toRaw)

/-- A question about the type of what is there, where nothing is answered `False`. -/
def asks (test : PathType → Bool) (path : Path) : Attempt PathErr Bool := ExceptT.mk do
  match ← (type path).run with
  | .ok t => pure (.ok (test t))
  | .error (.pathErr .notFound) => pure (.ok false)
  | .error err => pure (.error err)

/-- `is_file!` -/
def isFile : Path → Attempt PathErr Bool := asks (· = .isFile)

/-- `is_dir!` -/
def isDir : Path → Attempt PathErr Bool := asks (· = .isDir)

/-- `is_sym_link!` -/
def isSymLink : Path → Attempt PathErr Bool := asks (· = .isSymLink)

/-- `exists!` -/
def exists' : Path → Attempt PathErr Bool := asks fun _ => true

/-- `read_bytes!` -/
def readBytes (path : Path) : Attempt PathErr (List UInt8) :=
  mapFileResult (Host.fileReadBytes path.toRaw)

/-- `write_bytes!` -/
def writeBytes (path : Path) (bytes : List UInt8) : Attempt PathErr Unit :=
  mapFileResult (Host.fileWriteBytes path.toRaw bytes)

/-- `read_utf8!` -/
def readUtf8 (path : Path) : Attempt PathErr Str := mapFileResult (Host.fileReadUtf8 path.toRaw)

/-- `write_utf8!` -/
def writeUtf8 (path : Path) (content : Str) : Attempt PathErr Unit :=
  mapFileResult (Host.fileWriteUtf8 path.toRaw content)

/-- `replace_utf8!` -/
def replaceUtf8 (path : Path) (pattern replacement : Str) : Attempt PathErr Unit := do
  let content ← readUtf8 path
  writeUtf8 path (content.replaceEach pattern replacement)

/-- `delete!` -/
def delete (path : Path) : Attempt PathErr Unit := mapFileResult (Host.fileDelete path.toRaw)

/-- `copy!` -/
def copy (src dst : Path) : Attempt PathErr Unit :=
  mapFileResult (Host.fileCopy src.toRaw dst.toRaw)

/-- `read_sym_link!` -/
def readSymLink (path : Path) : Attempt PathErr Path :=
  Path.fromRaw <$> mapFileResult (Host.fileReadSymLink path.toRaw)

/-- `create_dir!` -/
def createDir (path : Path) : Attempt PathErr Unit := mapDirResult (Host.dirCreate path.toRaw)

/-- `create_all!` -/
def createAll (path : Path) : Attempt PathErr Unit := mapDirResult (Host.dirCreateAll path.toRaw)

/-- `delete_empty!` -/
def deleteEmpty (path : Path) : Attempt PathErr Unit :=
  mapDirResult (Host.dirDeleteEmpty path.toRaw)

/-- `delete_all!` -/
def deleteAll (path : Path) : Attempt PathErr Unit := mapDirResult (Host.dirDeleteAll path.toRaw)

/-- `list!` -/
def list (path : Path) : Attempt PathErr (List Path) := do
  let paths ← mapDirResult (Host.dirList path.toRaw)
  return paths.map Path.fromRaw

end Path

namespace Env

/-- `cwd!` -/
def cwd : Effect (Except CwdError Path) := do return (← Host.envCwd).map Path.fromRaw

/-- `set_cwd!` -/
def setCwd (path : Path) : Effect (Except Env.InvalidCwd Unit) := do
  return (← Host.envSetCwd path.toRaw).mapError .invalidCwd

end Env

/-! ### What an app does -/

/-- What an app does with paths, on both filesystems. -/
inductive PathOp where
  | type (path : Path)
  | isFile (path : Path)
  | isDir (path : Path)
  | isSymLink (path : Path)
  | exists' (path : Path)
  | readBytes (path : Path)
  | writeBytes (path : Path) (bytes : List UInt8)
  | readUtf8 (path : Path)
  | writeUtf8 (path : Path) (content : Str)
  | replaceUtf8 (path : Path) (pattern replacement : Str)
  | delete (path : Path)
  | copy (src dst : Path)
  | readSymLink (path : Path)
  | createDir (path : Path)
  | createAll (path : Path)
  | deleteEmpty (path : Path)
  | deleteAll (path : Path)
  | list (path : Path)
  | cwd
  | setCwd (path : Path)

namespace PathOp

/-- What the app is told. -/
def Outcome : PathOp → Type
  | type _ => Except PathErr PathType
  | isFile _ | isDir _ | isSymLink _ | exists' _ => Except PathErr Bool
  | readBytes _ => Except PathErr (List UInt8)
  | readUtf8 _ => Except PathErr Str
  | readSymLink _ => Except PathErr Path
  | list _ => Except PathErr (List Path)
  | cwd => Except CwdError Path
  | setCwd _ => Except Env.InvalidCwd Unit
  | writeBytes _ _ | writeUtf8 _ _ | replaceUtf8 _ _ _ | delete _ | copy _ _ => Except PathErr Unit
  | createDir _ | createAll _ | deleteEmpty _ | deleteAll _ => Except PathErr Unit

/-- The function that an app calls. -/
def run : Handler PathOp (Celled Str HostCall) Outcome (CelledReply Str HostOutcome)
  | type path => (Path.type path).run
  | isFile path => (Path.isFile path).run
  | isDir path => (Path.isDir path).run
  | isSymLink path => (Path.isSymLink path).run
  | exists' path => (Path.exists' path).run
  | readBytes path => (Path.readBytes path).run
  | writeBytes path bytes => (Path.writeBytes path bytes).run
  | readUtf8 path => (Path.readUtf8 path).run
  | writeUtf8 path content => (Path.writeUtf8 path content).run
  | replaceUtf8 path pattern replacement => (Path.replaceUtf8 path pattern replacement).run
  | delete path => (Path.delete path).run
  | copy src dst => (Path.copy src dst).run
  | readSymLink path => (Path.readSymLink path).run
  | createDir path => (Path.createDir path).run
  | createAll path => (Path.createAll path).run
  | deleteEmpty path => (Path.deleteEmpty path).run
  | deleteAll path => (Path.deleteAll path).run
  | list path => (Path.list path).run
  | cwd => Env.cwd
  | setCwd path => Env.setCwd path

end PathOp

/-! ### On a backend -/

/-- The system calls of an app: those on names, and `std::env::current_dir`. -/
inductive SysCall where
  | currentDir
  | path (c : PathCall)

/-- What a system call answers. -/
def SysAnswer : SysCall → Type
  | .currentDir => Except IoError AbsPath
  | .path c => PathAnswer c

/-- The calls on names among all. -/
def nameCall : Handler PathCall SysCall PathAnswer SysAnswer := fun c =>
  Program.ask (SysCall.path c)

/-- `std::env::current_dir` -/
def currentDir : Program SysCall SysAnswer (Except IoError AbsPath) :=
  Program.ask SysCall.currentDir

/-- The hosted functions on a root, as an app is told of them. -/
def backend (half : (UInt64 × UInt64) × UInt64 → UInt64) (r : Root) :
    Handler HostCall SysCall HostOutcome SysAnswer
  | .cwd => do return ((← currentDir).map fun dir => native dir.bytes).mapError ioerr
  | .fs op => (told half r op).interp nameCall

end Live

end TrantorCli
