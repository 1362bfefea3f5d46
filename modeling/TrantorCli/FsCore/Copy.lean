import TrantorCli.FsCore.Remove

/-!
# Copying a file and making a directory like another

One copy for both backends: the backend opens, and everything after moves
between open handles.
-/

open Interaction UnixPath

namespace TrantorCli.FsCore

/-- `SPECIAL_BITS`: setuid, setgid and sticky, not carried to a copy. -/
def specialBits : UInt32 := 0o7000

/-- `OWNER_ALL` -/
def ownerAll : UInt32 := 0o700

/-- `open_source` -/
def openSource (src : Target) : Sys Handle := openRead src

/-- `create_destination`: beneath a root an existing directory is reported as anything existing. -/
def createDestination (dst : Target) (mode : UInt32) : Sys Handle :=
  match dst with
  | .ambient path => createNew (.ambient path) mode
  | .beneath path => do
    match ← Sys.ofProgram (createNew (.beneath path) mode).run with
    | .ok file => pure file
    | .error e => throw (if e.kind = .isADirectory then ⟨.alreadyExists, e.message⟩ else e)

/-- `remove_if_same`: removes the partial copy if the name still holds the file just created. -/
def removeIfSame (dst : Target) (created : Handle) : Program Call Answer Unit := do
  match ← (fileMetadata created).run with
  | .error _ => pure ()
  | .ok ours =>
    match ← (symlinkMetadata dst).run with
    | .error _ => pure ()
    | .ok m =>
      if (m.dev, m.ino) = (ours.dev, ours.ino) then do
        let _ ← (removeFile dst).run
        pure ()
      else pure ()

/-- What `copy_file` does with its two open files. -/
def copyContents (src dst : Handle) (mode : UInt32) : Sys Unit := do
  copyData src dst
  setPermissions dst mode

/-- `copy_file` -/
def copyFile (src dst : Target) : Sys Unit := do
  let file ← openSource src
  let m ← fileMetadata file
  if !m.isFile then
    throw (if m.isDir then ⟨.isADirectory, "the copy source is a directory"⟩
      else ⟨.invalidInput, "the copy source is not a regular file"⟩)
  else
    let mode := m.mode &&& ~~~specialBits &&& 0o7777
    let created ← createDestination dst mode
    match ← Sys.ofProgram (copyContents file created mode).run with
    | .ok () => pure ()
    | .error e => do
      Sys.ofProgram (removeIfSame dst created)
      throw e

/-- `new_directory_name` -/
def newDirectoryName (tg : Target) : Sys Target :=
  match slashesStripped tg.path with
  | none => pure tg
  | some name => do
    let named := tg.withPath name
    match ← Sys.ofProgram (symlinkMetadata named).run with
    | .ok _ => throw ⟨.alreadyExists, "something already exists at the directory name"⟩
    | .error e => if e.kind = .notFound then pure named else throw e

/-- `make_dir` -/
def makeDir (dst : Target) (mode : UInt32) : Sys Unit := createDir dst mode

/-- `make_owner_only` -/
def makeOwnerOnly (dst : Target) : Sys Unit := makeDir dst ownerAll

/-- `open_made`: opens the directory just made without following a link. -/
def openMade (dst : Target) : Sys Handle := openDirectory dst false

/-- What `copy_dir` does with the directory just made. -/
def chmodMade (dst : Target) (mode : UInt32) : Sys Unit := do
  let made ← openMade dst
  setPermissions made mode

/-- `copy_dir` -/
def copyDir (src dst : Target) : Sys Unit := do
  let (isDir, sourceMode) ← metadataAsNamed src
  if !isDir then throw ⟨.notADirectory, "the directory copy source is not a directory"⟩
  else
    let mode := (sourceMode &&& 0o777 &&& ~~~specialBits) ||| ownerAll
    let named ← newDirectoryName dst
    makeOwnerOnly named
    match ← Sys.ofProgram (chmodMade named mode).run with
    | .ok () => pure ()
    | .error e => do
      let _ ← Sys.ofProgram (removeDir named).run
      throw e

/-- `refuse_directory_name` -/
def refuseDirectoryName (tg : Target) : Sys Unit :=
  if endsInParent tg.path then do
    match ← Sys.ofProgram (metadataFollowed tg).run with
    | .ok _ => throw ⟨.alreadyExists, "a directory is already at that name"⟩
    | .error e => throw e
  else if namesDirectory tg.path then throw directoryName
  else pure ()

/-- `unit`: the result of an operation as it is reported. -/
def unit (p : Sys Unit) : Fallible Call Answer IOErr Unit := dirUnit p

/-- `copy_file_at` -/
def copyFileAt (r : Root) (sd : Desc) (sp : PathBuf) (dd : Desc) (dp : PathBuf) :
    Fallible Call Answer IOErr Unit :=
  unit do
    let srcDir ← Sys.ofExcept (dirOf r sd)
    let dstDir ← Sys.ofExcept (dirOf r dd)
    let src ← resolve r srcDir sp
    let dst ← resolve r dstDir dp
    refuseDirectoryName dst
    copyFile src dst

/-- `copy_dir_at` -/
def copyDirAt (r : Root) (sd : Desc) (sp : PathBuf) (dd : Desc) (dp : PathBuf) :
    Fallible Call Answer IOErr Unit :=
  unit do
    let srcDir ← Sys.ofExcept (dirOf r sd)
    let dstDir ← Sys.ofExcept (dirOf r dd)
    let src ← resolve r srcDir sp
    let dst ← resolve r dstDir dp
    copyDir src dst

end TrantorCli.FsCore
