import TrantorCli.FsCore.Copy
import TrantorCli.FsOps
import TrantorCli.Lib.Interaction.Interp

/-!
# The operations on names

The calls that read, list, rename and link come on top of the ones a copy or a
removal makes. A rename or a link beneath a confined root looks first at where a
symlink it moves would lead, and a symlink is only made where its target is.
-/

open Interaction UnixPath

namespace TrantorCli.FsCore

/-- `std::fs::FileType` -/
structure FileType where
  isDir : Bool
  isFile : Bool
  isSymlink : Bool
  deriving DecidableEq, Repr

/-- `std::fs::DirEntry`, with what `file_type` answers on it. -/
structure DirEntry where
  fileName : List UInt8
  fileType : Except IoError FileType

/-- The system calls of the operations on names. -/
inductive PathCall where
  | sys (c : Call)
  /-- `read`: the contents of a file. -/
  | readFile (tg : Target)
  /-- `write`: creates or truncates a file and writes it. -/
  | writeFile (tg : Target) (data : List UInt8)
  /-- `read_dir`, to its end. -/
  | readDir (tg : Target)
  | createDirAll (tg : Target)
  | rename (src dst : Target)
  | hardLink (src dst : Target)
  /-- `symlink_contents`: a link at `link` that holds `contents`. -/
  | symlink (contents : PathBuf) (link : Target)
  /-- `read_link_contents` -/
  | readLink (tg : Target)

/-- What a call gives when it succeeds. -/
def PathReply : PathCall → Type
  | .sys c => Reply c
  | .readFile _ => List UInt8
  | .readDir _ => List (Except IoError DirEntry)
  | .writeFile _ _ | .createDirAll _ | .rename _ _ | .hardLink _ _ | .symlink _ _ => Unit
  | .readLink _ => PathBuf

/-- The result of a call. -/
abbrev PathAnswer (c : PathCall) := Except IoError (PathReply c)

/-- A program of system calls on names that ends in a result or an error. -/
abbrev PathSys (α : Type) := Fallible PathCall PathAnswer IoError α

/-- The calls of a copy or a removal as calls on names. -/
def sysHandler : Handler Call PathCall Answer PathAnswer := fun c =>
  Program.ask (PathCall.sys c)

/-- A copy or a removal among the operations on names. -/
def Sys.lift {ε α : Type} (p : Fallible Call Answer ε α) : Fallible PathCall PathAnswer ε α :=
  Fallible.interp sysHandler p

/-- The program that makes a call on names. -/
def pathSys (c : PathCall) : PathSys (PathReply c) := Fallible.ask c

/-- `read` -/
def readFile (tg : Target) : PathSys (List UInt8) := pathSys (.readFile tg)

/-- `write` -/
def writeFile (tg : Target) (data : List UInt8) : PathSys Unit := pathSys (.writeFile tg data)

/-- `read_dir` -/
def readDir (tg : Target) : PathSys (List (Except IoError DirEntry)) := pathSys (.readDir tg)

/-- `create_dir_all` -/
def createDirAll (tg : Target) : PathSys Unit := pathSys (.createDirAll tg)

/-- `rename` -/
def rename (src dst : Target) : PathSys Unit := pathSys (.rename src dst)

/-- `hard_link` -/
def hardLink (src dst : Target) : PathSys Unit := pathSys (.hardLink src dst)

/-- `symlink` -/
def symlink (contents : PathBuf) (link : Target) : PathSys Unit :=
  pathSys (.symlink contents link)

/-- `read_link` -/
def readLink (tg : Target) : PathSys PathBuf := pathSys (.readLink tg)

/-- The result of an operation as it is reported. -/
def reported {α : Type} (p : PathSys α) : Fallible PathCall PathAnswer IOErr α :=
  ExceptT.mk (p.run >>= fun result => pure (result.mapError ioerr))

/-- `with_path`, for an operation that makes calls on names. -/
def atPath {α : Type} (r : Root) (d : Desc) (path : PathBuf) (f : Target → PathSys α) :
    PathSys α := do
  let tg ← Sys.lift (resolveAt r d path)
  f tg

/-! ### One name -/

/-- `read_file_at` -/
def readFileAt (r : Root) (d : Desc) (path : PathBuf) :
    Fallible PathCall PathAnswer IOErr (List UInt8) :=
  reported (atPath r d path readFile)

/-- `write_file_at` -/
def writeFileAt (r : Root) (d : Desc) (path : PathBuf) (data : List UInt8) :
    Fallible PathCall PathAnswer IOErr Unit :=
  reported (atPath r d path fun tg => do
    Sys.lift (refuseDirectoryName tg)
    writeFile tg data)

/-- `read_dir_at!`'s entry record. -/
structure EntryRec where
  name : List UInt8
  kind : FileKind
  deriving DecidableEq, Repr

/-- The entries up to the first that cannot be read. -/
def collectEntries : List (Except IoError DirEntry) → Except IoError (List EntryRec)
  | [] => .ok []
  | entry :: entries => do
    let entry ← entry
    let t ← entry.fileType
    let rest ← collectEntries entries
    return ⟨entry.fileName, kindOf t.isDir t.isFile t.isSymlink⟩ :: rest

/-- `read_dir_at` -/
def readDirAt (r : Root) (d : Desc) (path : PathBuf) :
    Fallible PathCall PathAnswer IOErr (List EntryRec) :=
  reported (atPath r d path fun tg => do
    let found ← readDir tg
    let entries ← ExceptT.mk (pure (collectEntries found))
    pure (entries.mergeSort fun a b => decide (a.name ≤ b.name)))

/-- `create_dir_at` -/
def createDirAt (r : Root) (d : Desc) (path : PathBuf) (mode : UInt32) :
    Fallible Call Answer IOErr Unit :=
  dirUnit (withPath r d path fun tg => do
    let tg ← newDirectoryName tg
    makeDir tg mode)

/-- Whether the name asks for a directory, by its slashes, and leads to one. -/
def isDirectoryAlready (tg : Target) : Sys Bool :=
  if (slashesStripped tg.path).isSome then do
    match ← Sys.ofProgram (metadataFollowed tg).run with
    | .ok (isDir, _) => pure isDir
    | .error _ => pure false
  else pure false

/-- `create_dir_all_at`: a directory that is already there is success. -/
def createDirAllAt (r : Root) (d : Desc) (path : PathBuf) :
    Fallible PathCall PathAnswer IOErr Unit :=
  reported (atPath r d path fun tg => do
    if ← Sys.lift (isDirectoryAlready tg) then pure ()
    else
      let tg ← Sys.lift (newDirectoryName tg)
      createDirAll tg)

/-- `unlink_at` -/
def unlinkAt (r : Root) (d : Desc) (path : PathBuf) : Fallible Call Answer IOErr Unit :=
  unit (withPath r d path removeFile)

/-- `readlink_at` -/
def readlinkAt (r : Root) (d : Desc) (path : PathBuf) :
    Fallible PathCall PathAnswer IOErr PathBuf :=
  reported (atPath r d path readLink)

/-- What `metadata_hash_at` takes of the object at a name. -/
def identityOf (tg : Target) (follow : Bool) : Sys (UInt64 × UInt64) :=
  match tg with
  | .ambient path => do
    let m ← if follow then metadata (.ambient path) else symlinkMetadata (.ambient path)
    pure (m.dev, m.ino)
  | .beneath path => do
    let m ← if follow then metadata (.beneath path) else beneathLstat path
    pure (m.dev, m.ino)

/-- `metadata_hash_at`; `half` is the hash under the keys of the process. -/
def metadataHashAt (half : (UInt64 × UInt64) × UInt64 → UInt64) (r : Root) (d : Desc)
    (path : PathBuf) (follow : Bool) : Fallible Call Answer IOErr (UInt64 × UInt64) :=
  ExceptT.mk ((withPath r d path fun tg => identityOf tg follow).run >>= fun result =>
    pure ((result.map fun id => (half (id, 0), half (id, 1))).mapError ioerr))

/-- `open_with_flags_at`, as it is reported. -/
def openAt (r : Root) (d : Desc) (path : PathBuf) (flags : OpenFlags) :
    Fallible Call Answer IOErr Desc :=
  ExceptT.mk ((openWithFlagsAt r d path flags).run >>= fun result =>
    pure (result.mapError ioerr))

/-! ### Two names -/

/-- `two`: both names against one descriptor. -/
def atTwo (r : Root) (d : Desc) (a b : PathBuf) (f : Target → Target → PathSys Unit) :
    Fallible PathCall PathAnswer IOErr Unit :=
  reported do
    let dir ← Sys.lift (Sys.ofExcept (dirOf r d))
    let tgA ← Sys.lift (resolve r dir a)
    let tgB ← Sys.lift (resolve r dir b)
    f tgA tgB

/-- `mixed` -/
def mixed : IoError := ⟨.unsupported, "paths resolved under different roots"⟩

/-- `renamed_source`: where either name asks for a directory, the source has to be one. -/
def renamedSource (src : Target) (destinationNamesDirectory : Bool) : Sys Target :=
  if !namesDirectory src.path && !destinationNamesDirectory then pure src
  else do
    let (isDir, _) ← metadataAsNamed src
    if isDir then pure src else throw directoryName

/-- `Path::parent`, by its components. -/
def parent (path : PathBuf) : Option (List Component) :=
  match (components path).getLast? with
  | some .rootDir | none => none
  | some _ => some (components path).dropLast

/-- `target_inside`: the target a link at `link` would reach, resolved beneath the root. -/
def targetInside (link contents : PathBuf) : Sys Unit := do
  let dir := ((parent link).map ofComponents).getD [46]
  let _ ← metadata (.beneath (join dir contents))
  pure ()

/-- The refusal of `link_stays_inside`. -/
def reaimed : IoError :=
  ⟨.permissionDenied, "the moved symlink's target would not exist inside the root"⟩

/-- `link_stays_inside` -/
def linkStaysInside (src dst : PathBuf) : PathSys Unit := do
  let isSymlink ← Sys.lift (Sys.ofProgram do
    match ← (symlinkMetadata (.beneath src)).run with
    | .ok m => pure m.isSymlink
    | .error _ => pure false)
  if !isSymlink then pure ()
  else
    let contents ← readLink (.beneath src)
    if isAbsolute contents || decide (parent src = parent dst) then pure ()
    else
      match ← ExceptT.mk ((Sys.lift (targetInside dst contents)).run >>= fun result =>
          pure (.ok result)) with
      | .ok () => pure ()
      | .error _ => throw reaimed

/-- `rename_at` -/
def renameAt (r : Root) (d : Desc) (a b : PathBuf) : Fallible PathCall PathAnswer IOErr Unit :=
  atTwo r d a b fun
    | .ambient a, .ambient b => do
      match ← Sys.lift (renamedSource (.ambient a) (namesDirectory b)) with
      | .ambient a => rename (.ambient a) (.ambient b)
      | .beneath _ => throw mixed
    | .beneath a, .beneath b => do
      match ← Sys.lift (renamedSource (.beneath a) (namesDirectory b)) with
      | .beneath a => do
        linkStaysInside a b
        rename (.beneath a) (.beneath b)
      | .ambient _ => throw mixed
    | _, _ => throw mixed

/-- `link_at` -/
def linkAt (r : Root) (d : Desc) (a b : PathBuf) : Fallible PathCall PathAnswer IOErr Unit :=
  atTwo r d a b fun tgA tgB =>
    if namesDirectory tgB.path then throw directoryName
    else
      match tgA, tgB with
      | .ambient a, .ambient b => hardLink (.ambient a) (.ambient b)
      | .beneath a, .beneath b => do
        linkStaysInside a b
        hardLink (.beneath a) (.beneath b)
      | _, _ => throw mixed

/-- `symlink_at` -/
def symlinkAt (r : Root) (d : Desc) (target link : PathBuf) :
    Fallible PathCall PathAnswer IOErr Unit :=
  reported (atPath r d link fun tg =>
    if target = [] then throw ⟨.notFound, "an empty symlink target names nothing"⟩
    else do
      Sys.lift (refuseDirectoryName tg)
      match tg with
      | .ambient path => symlink target (.ambient path)
      | .beneath path => do
        Sys.lift (targetInside path target)
        symlink target (.beneath path))

end TrantorCli.FsCore
