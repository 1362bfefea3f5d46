import TrantorCli.FsCore.BackendsAgree
import TrantorCli.FsCore.Store

/-!
# What an app sees of its filesystem

An app is a program over the operations of the path layer, each on absolute or
empty paths against the preopen. Which backend performs them makes no difference to
it, as long as its paths lead below the root of the confined one and it asks for
nothing in which the two are known to differ.
-/

open Interaction UnixPath

namespace TrantorCli.FsCore

/-- The operations of the path layer. -/
inductive Op where
  | readFile (path : PathBuf)
  | writeFile (path : PathBuf) (data : List UInt8)
  | stat (path : PathBuf) (follow : Bool)
  | metadataHash (path : PathBuf) (follow : Bool)
  | readDir (path : PathBuf)
  | createDir (path : PathBuf) (mode : UInt32)
  | createDirAll (path : PathBuf)
  | removeDir (path : PathBuf)
  | removeDirAll (path : PathBuf)
  | unlink (path : PathBuf)
  | readlink (path : PathBuf)
  | openFile (path : PathBuf) (flags : OpenFlags)
  | copyFile (src dst : PathBuf)
  | copyDir (src dst : PathBuf)

/-- What an operation tells the app. -/
def Outcome : Op → Type
  | .readFile _ => Except IOErr (List UInt8)
  | .stat _ _ => Except IOErr FileKind
  | .metadataHash _ _ => Except IOErr (UInt64 × UInt64)
  | .readDir _ => Except IOErr (List EntryRec)
  | .readlink _ => Except IOErr PathBuf
  | .openFile _ _ => Except IOErr Desc
  | .writeFile _ _ | .createDir _ _ | .createDirAll _ | .removeDir _ => Except IOErr Unit
  | .removeDirAll _ | .unlink _ | .copyFile _ _ | .copyDir _ _ => Except IOErr Unit

/-- The operation on a root, against its preopen. -/
def perform (half : (UInt64 × UInt64) × UInt64 → UInt64) (r : Root) :
    Handler Op PathCall Outcome PathAnswer
  | .readFile path => (readFileAt r .root path).run
  | .writeFile path data => (writeFileAt r .root path data).run
  | .stat path follow => (Sys.lift (statAt r .root path follow)).run
  | .metadataHash path follow => (Sys.lift (metadataHashAt half r .root path follow)).run
  | .readDir path => (readDirAt r .root path).run
  | .createDir path mode => (Sys.lift (createDirAt r .root path mode)).run
  | .createDirAll path => (createDirAllAt r .root path).run
  | .removeDir path => (Sys.lift (removeDirAt r .root path)).run
  | .removeDirAll path => (Sys.lift (removeDirAllAt r .root path)).run
  | .unlink path => (Sys.lift (unlinkAt r .root path)).run
  | .readlink path => (readlinkAt r .root path).run
  | .openFile path flags => (Sys.lift (openAt r .root path flags)).run
  | .copyFile src dst => (Sys.lift (copyFileAt r .root src .root dst)).run
  | .copyDir src dst => (Sys.lift (copyDirAt r .root src .root dst)).run

/-- An error without the message of an `Other`, which differs by the system and the backend. -/
def IOErr.unworded : IOErr → IOErr
  | .other _ => .other ""
  | err => err

/-- The outcome of an operation, its error without a message. -/
def Op.unworded : (op : Op) → Outcome op → Outcome op
  | .readFile _ => Except.mapError IOErr.unworded
  | .writeFile _ _ => Except.mapError IOErr.unworded
  | .stat _ _ => Except.mapError IOErr.unworded
  | .metadataHash _ _ => Except.mapError IOErr.unworded
  | .readDir _ => Except.mapError IOErr.unworded
  | .createDir _ _ => Except.mapError IOErr.unworded
  | .createDirAll _ => Except.mapError IOErr.unworded
  | .removeDir _ => Except.mapError IOErr.unworded
  | .removeDirAll _ => Except.mapError IOErr.unworded
  | .unlink _ => Except.mapError IOErr.unworded
  | .readlink _ => Except.mapError IOErr.unworded
  | .openFile _ _ => Except.mapError IOErr.unworded
  | .copyFile _ _ => Except.mapError IOErr.unworded
  | .copyDir _ _ => Except.mapError IOErr.unworded

/-- What an app is told of the operation. -/
def told (half : (UInt64 × UInt64) × UInt64 → UInt64) (r : Root) :
    Handler Op PathCall Outcome PathAnswer := fun op =>
  perform half r op >>= fun outcome => pure (op.unworded outcome)

/-- The operation names what is used, or nothing, and asks for nothing in which the backends differ:
a directory is neither opened nor copied, no file is opened exclusively, and no name ends in what
only one of them takes off. -/
def Op.Within (inside : PathBuf → Prop) : Op → Prop
  | .readFile path | .readDir path | .unlink path | .readlink path => NamedAs inside Plain path
  | .writeFile path _ | .removeDirAll path => NamedAs inside (fun _ => True) path
  | .stat path follow | .metadataHash path follow =>
    NamedAs inside (fun path => follow = true ∨ endsInParent path = false) path
  | .createDir path _ => NamedAs inside Slashed path
  | .removeDir path => NamedAs inside (fun path => Slashed path ∨ endsInParent path = true) path
  | .openFile path flags => flags.directory = false ∧ flags.exclusive = false ∧
    NamedAs inside (fun path => endsInParent path = false ∧
      (flags.create = true ∨ namesDirectory path = false)) path
  | .copyFile src dst => NamedAs inside Plain src ∧ NamedAs inside (fun _ => True) dst
  | .createDirAll _ | .copyDir _ _ => False

variable {base : PlainPath} {inside : PathBuf → Prop} {path : PathBuf}

/-! ### One operation -/

section Operations

variable (hinside : Below base.toAbsPath inside) (ambient : AbsPath)
include hinside

end Operations

/-! ### Whole sessions -/

end TrantorCli.FsCore
