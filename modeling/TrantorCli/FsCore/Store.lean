import TrantorCli.FsCore.Twins
import TrantorCli.Lib.Interaction.Determined

/-!
# A store that both backends work on

Directories, files and links, kept by where they are. The two backends word their
errors differently, spell a name with a slash at its end differently, and do not
follow the same links; on names as they are, and as long as nothing inside is a
link, they act alike on it.
-/

open Interaction UnixPath

namespace TrantorCli.FsCore

/-- What stands at a place. -/
inductive Node where
  | dir
  | file (data : List UInt8)
  | link (contents : PathBuf)
  deriving DecidableEq, Repr

/-- What is where, by the components of its absolute path. -/
abbrev Store := List (List Component × Node)

namespace Store

/-- The place of a target, below `root` when it is beneath the handle. -/
def place (root : AbsPath) : Target → List Component
  | .ambient path => components path
  | .beneath path => components root.bytes ++ components path

/-- The same place whatever stands there, with `node` put at it. -/
def put (s : Store) (at' : List Component) (node : Node) : Store :=
  (at', node) :: s.filter fun entry => entry.1 ≠ at'

/-- Nothing is left at the place. -/
def drop (s : Store) (at' : List Component) : Store := s.filter fun entry => entry.1 ≠ at'

/-- What stands at the place. -/
def look (s : Store) (at' : List Component) : Option Node :=
  (s.find? fun entry => entry.1 = at').map (·.2)

/-- Where a name leads: the kernel follows a link wherever it leads, and beneath the handle links
are refused. -/
def leads (root : AbsPath) (s : Store) (tg : Target) : Except ErrorKind (List Component) :=
  match tg, s.look (place root tg) with
  | .ambient _, some (.link contents) => .ok (components contents)
  | .beneath _, some (.link _) => .error .permissionDenied
  | _, _ => .ok (place root tg)

/-- A name that asks for a directory is none of a file to the kernel; beneath the handle it loses
what it ends in. -/
def asFile (tg : Target) (at' : List Component) : Except ErrorKind (List Component) :=
  match tg with
  | .ambient path => if namesDirectory path then .error .notADirectory else .ok at'
  | .beneath _ => .ok at'

/-- How each backend words an error. -/
def worded (tg : Target) (kind : ErrorKind) : IoError :=
  match tg with
  | .ambient _ => ⟨kind, "as the kernel says"⟩
  | .beneath _ => ⟨kind, "as the library says"⟩

/-- The bytes of the file at the place. -/
def contentsAt (s : Store) (at' : List Component) : Except ErrorKind (List UInt8) :=
  match s.look at' with
  | some (.file data) => .ok data
  | some _ => .error .isADirectory
  | none => .error .notFound

/-- A file of these bytes at the place, where a directory holds it. -/
def writeAt (s : Store) (data : List UInt8) (at' : List Component) : Except ErrorKind Store :=
  match s.look at', s.look at'.dropLast with
  | some .dir, _ => .error .isADirectory
  | _, some .dir => .ok (s.put at' (.file data))
  | _, _ => .error .notFound

/-- A new directory at the place. -/
def createAt (s : Store) (at' : List Component) : Except ErrorKind Store :=
  match s.look at', s.look at'.dropLast with
  | some _, _ => .error .alreadyExists
  | none, some .dir => .ok (s.put at' .dir)
  | none, _ => .error .notFound

/-- The file at the place is gone. -/
def removeAt (s : Store) (at' : List Component) : Except ErrorKind Store :=
  match s.look at' with
  | some .dir => .error .isADirectory
  | some _ => .ok (s.drop at')
  | none => .error .notFound

/-- What is told of the node at the place, which may have to be a directory. -/
def metadataAt (s : Store) (asked : Bool) (at' : List Component) : Except ErrorKind Metadata :=
  match s.look at' with
  | some .dir => .ok ⟨true, false, false, 0o755, 0, 0⟩
  | some (.file _) =>
    if asked then .error .notADirectory else .ok ⟨false, true, false, 0o644, 0, 0⟩
  | some (.link _) =>
    if asked then .error .notADirectory else .ok ⟨false, false, true, 0o777, 0, 0⟩
  | none => .error .notFound

/-- What a link leads to. -/
def followed (root : AbsPath) (s : Store) (tg : Target) : Except ErrorKind Metadata :=
  s.leads root tg >>= s.metadataAt (namesDirectory tg.path)

/-- What stands at a name: where it asks for a directory, the kernel follows it, and beneath the
handle there is no answer. -/
def unfollowed (root : AbsPath) (s : Store) (tg : Target) : Except ErrorKind Metadata :=
  if namesDirectory tg.path then
    match tg with
    | .ambient path => s.followed root (.ambient path)
    | .beneath _ => .error .notADirectory
  else s.metadataAt false (place root tg)

/-- An answer that leaves the store as it is. -/
def told {α : Type} (tg : Target) (s : Store) (result : Except ErrorKind α) :
    Except IoError α × Store := (result.mapError (worded tg), s)

/-- An answer that says whether the store was changed. -/
def changed (tg : Target) (s : Store) : Except ErrorKind Store → Except IoError Unit × Store
  | .ok t => (.ok (), t)
  | .error kind => (.error (worded tg kind), s)

/-- What each call answers and leaves. Files are not held open, and links not made. -/
def act (root : AbsPath) : Act PathCall PathAnswer Store
  | .readFile tg, s => told tg s (s.leads root tg >>= asFile tg >>= s.contentsAt)
  | .writeFile tg data, s => changed tg s (s.leads root tg >>= asFile tg >>= s.writeAt data)
  | .sys (.createDir tg _), s => changed tg s (s.createAt (place root tg))
  | .sys (.removeFile tg), s => changed tg s (asFile tg (place root tg) >>= s.removeAt)
  | .sys (.metadata tg), s => told tg s (s.followed root tg)
  | .sys (.symlinkMetadata tg), s => told tg s (s.unfollowed root tg)
  | .sys (.openFile tg _), s | .sys (.openDirectory tg _), s | .sys (.openRead tg), s
  | .sys (.createNew tg _), s | .readDir tg, s | .readLink tg, s => told tg s (.error .unsupported)
  | .sys (.removeDir tg), s | .sys (.removeDirAll tg), s | .createDirAll tg, s | .rename tg _, s
  | .hardLink tg _, s | .symlink _ tg, s => told tg s (.error .unsupported)
  | .sys (.canonicalize path), s => told (.ambient path) s (.error .unsupported)
  | .sys (.fileMetadata _), s | .sys (.copyData _ _), s | .sys (.setPermissions _ _), s =>
    (.error ⟨.unsupported, "no file is open"⟩, s)

/-- Nothing inside the root is a link. -/
def NoLinks (root : AbsPath) (s : Store) : Prop :=
  ∀ entry ∈ s, components root.bytes <+: entry.1 → ∀ contents, entry.2 ≠ .link contents

variable {root : AbsPath} {inside : PathBuf → Prop} {tg tg' : Target} {s t : Store}
  {at' : List Component}

private theorem NoLinks.put (h : s.NoLinks root) {node : Node}
    (hnode : ∀ contents, node ≠ .link contents) :
    (s.put at' node).NoLinks root := by
  intro entry hentry hbelow
  rcases List.mem_cons.mp hentry with rfl | hrest
  · exact hnode
  · exact h entry (List.mem_of_mem_filter hrest) hbelow

private theorem NoLinks.writeAt (h : s.NoLinks root) {data : List UInt8}
    (hwrite : s.writeAt data at' = .ok t) : t.NoLinks root := by
  unfold Store.writeAt at hwrite
  split at hwrite
  · cases hwrite
  · obtain rfl := Except.ok.inj hwrite
    exact h.put fun _ hnode => by cases hnode
  · cases hwrite

private theorem NoLinks.createAt (h : s.NoLinks root) (hcreate : s.createAt at' = .ok t) :
    t.NoLinks root := by
  unfold Store.createAt at hcreate
  split at hcreate
  · cases hcreate
  · obtain rfl := Except.ok.inj hcreate
    exact h.put fun _ hnode => by cases hnode
  · cases hcreate

private theorem NoLinks.removeAt (h : s.NoLinks root) (hremove : s.removeAt at' = .ok t) :
    t.NoLinks root := by
  unfold Store.removeAt at hremove
  split at hremove
  · cases hremove
  · obtain rfl := Except.ok.inj hremove
    exact fun entry hentry => h entry (List.mem_of_mem_filter hentry)
  · cases hremove

/-! ### Both backends -/

end Store

end TrantorCli.FsCore
