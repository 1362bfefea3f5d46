import TrantorCli.FsCore.Operations
import TrantorCli.Lib.Interaction.Agree
import TrantorCli.Lib.Interaction.Once
import TrantorCli.Lib.UnixPath.Parent

/-!
# The root of a confined filesystem

A confined root is found and opened by the first operation that needs it, and what
came of it is kept for the process, its failure included. So a run of an app is one
on a root that was fixed from the start, as the operations are given theirs, and
the working directory is looked up at most once.
-/

open Interaction UnixPath

namespace TrantorCli.FsCore

/-! ### Establishing the root -/

/-- `Failed`: a root that could not be established. -/
structure Failed where
  kind : ErrorKind
  message : String
  deriving DecidableEq, Repr

/-- `From<std::io::Error> for Failed` -/
def Failed.ofError (e : IoError) : Failed := ⟨e.kind, e.message⟩

/-- `Failed::error` -/
def Failed.error (f : Failed) : IoError := ⟨f.kind, f.message⟩

/-- `Opened`: a confined root once established. -/
structure Opened where
  base : PlainPath
  dir : Handle

/-- The system calls of an app on a confined filesystem. -/
inductive RootCall where
  /-- `std::env::current_dir` -/
  | currentDir
  /-- `Dir::open_ambient_dir` -/
  | openAmbientDir (base : PlainPath)
  | path (c : PathCall)

/-- What a call gives when it succeeds. -/
def RootReply : RootCall → Type
  | .currentDir => PlainPath
  | .openAmbientDir _ => Handle
  | .path c => PathReply c

/-- The result of a call. -/
abbrev RootAnswer (c : RootCall) := Except IoError (RootReply c)

namespace Confinement

/-- `Confinement::open`, where `find_base` is `current_dir` -/
def open' : Fallible RootCall RootAnswer IoError Opened := do
  let base ← Fallible.ask RootCall.currentDir
  let dir ← Fallible.ask (RootCall.openAmbientDir base)
  return ⟨base, dir⟩

/-- What `Confinement::opened` keeps when it is first called. -/
def init : Program RootCall RootAnswer (Except Failed Opened) :=
  ExceptT.run open' >>= fun result => pure (result.mapError Failed.ofError)

/-- `Confinement::opened`, once something is kept -/
def opened (kept : Except Failed Opened) : Except IoError Opened := kept.mapError Failed.error

end Confinement

/-- The confined root, once something is kept. -/
def Root.ofKept (kept : Except Failed Opened) : Root :=
  .confined ((Confinement.opened kept).map (·.base))

/-! ### Operations on descriptors -/

/-- The operations on names, each against the descriptors it is given. -/
inductive AtOp where
  | readFile (d : Desc) (path : PathBuf)
  | writeFile (d : Desc) (path : PathBuf) (data : List UInt8)
  | stat (d : Desc) (path : PathBuf) (follow : Bool)
  | metadataHash (d : Desc) (path : PathBuf) (follow : Bool)
  | readDir (d : Desc) (path : PathBuf)
  | createDir (d : Desc) (path : PathBuf) (mode : UInt32)
  | createDirAll (d : Desc) (path : PathBuf)
  | removeDir (d : Desc) (path : PathBuf)
  | removeDirAll (d : Desc) (path : PathBuf)
  | unlink (d : Desc) (path : PathBuf)
  | readlink (d : Desc) (path : PathBuf)
  | openFile (d : Desc) (path : PathBuf) (flags : OpenFlags)
  | symlink (d : Desc) (target link : PathBuf)
  | rename (d : Desc) (a b : PathBuf)
  | link (d : Desc) (a b : PathBuf)
  | copyFile (sd : Desc) (sp : PathBuf) (dd : Desc) (dp : PathBuf)
  | copyDir (sd : Desc) (sp : PathBuf) (dd : Desc) (dp : PathBuf)

namespace AtOp

/-- What an operation reports when it succeeds. -/
def Result : AtOp → Type
  | readFile _ _ => List UInt8
  | stat _ _ _ => FileKind
  | metadataHash _ _ _ => UInt64 × UInt64
  | readDir _ _ => List EntryRec
  | readlink _ _ => PathBuf
  | openFile _ _ _ => Desc
  | writeFile _ _ _ | createDir _ _ _ | createDirAll _ _ | removeDir _ _ | removeDirAll _ _ => Unit
  | unlink _ _ | symlink _ _ _ | rename _ _ _ | link _ _ _ | copyFile _ _ _ _ => Unit
  | copyDir _ _ _ _ => Unit

/-- What an operation reports. -/
abbrev Outcome (op : AtOp) := Except IOErr op.Result

/-- The operation on a root. -/
def perform (half : (UInt64 × UInt64) × UInt64 → UInt64) (r : Root) :
    Handler AtOp PathCall Outcome PathAnswer
  | readFile d path => (readFileAt r d path).run
  | writeFile d path data => (writeFileAt r d path data).run
  | stat d path follow => (Sys.lift (statAt r d path follow)).run
  | metadataHash d path follow => (Sys.lift (metadataHashAt half r d path follow)).run
  | readDir d path => (readDirAt r d path).run
  | createDir d path mode => (Sys.lift (createDirAt r d path mode)).run
  | createDirAll d path => (createDirAllAt r d path).run
  | removeDir d path => (Sys.lift (removeDirAt r d path)).run
  | removeDirAll d path => (Sys.lift (removeDirAllAt r d path)).run
  | unlink d path => (Sys.lift (unlinkAt r d path)).run
  | readlink d path => (readlinkAt r d path).run
  | openFile d path flags => (Sys.lift (openAt r d path flags)).run
  | symlink d target path => (symlinkAt r d target path).run
  | rename d a b => (renameAt r d a b).run
  | link d a b => (linkAt r d a b).run
  | copyFile sd sp dd dp => (Sys.lift (copyFileAt r sd sp dd dp)).run
  | copyDir sd sp dd dp => (Sys.lift (copyDirAt r sd sp dd dp)).run

/-- The descriptors that `dir_of` is asked about, in order. -/
def descs : AtOp → List Desc
  | readFile d _ | writeFile d _ _ | stat d _ _ | metadataHash d _ _ | readDir d _
  | createDir d _ _ | createDirAll d _ | removeDir d _ | removeDirAll d _ | unlink d _
  | readlink d _ | openFile d _ _ | symlink d _ _ | rename d _ _ | link d _ _ => [d]
  | copyFile sd _ dd _ | copyDir sd _ dd _ => [sd, dd]

/-- The path that `resolve` is first asked about. -/
def firstPath : AtOp → PathBuf
  | readFile _ path | writeFile _ path _ | stat _ path _ | metadataHash _ path _ | readDir _ path
  | createDir _ path _ | createDirAll _ path | removeDir _ path | removeDirAll _ path
  | unlink _ path | readlink _ path | openFile _ path _ | symlink _ _ path | rename _ path _
  | link _ path _ | copyFile _ path _ _ | copyDir _ path _ _ => path

end AtOp

/-- `dir_of` calls `base` on the preopen. -/
def Desc.isRoot : Desc → Bool
  | .root => true
  | .dir _ | .file _ => false

/-- `dir_of` knows the directory without the root. -/
def Desc.isDir : Desc → Bool
  | .dir _ => true
  | .root | .file _ => false

/-- Whether the operation calls `Root::opened`: `dir_of` does for the preopen, and `resolve` for a
path that is not empty, once there is a directory for it. -/
def AtOp.asksRoot (op : AtOp) : Bool :=
  op.descs.any Desc.isRoot || (op.descs.all Desc.isDir && op.firstPath ≠ [])

/-- A program on names among those of the app. -/
def pathHandler : Handler PathCall RootCall PathAnswer RootAnswer := fun c =>
  Program.ask (RootCall.path c)

/-- The operation on a root that may still have to be found; one that does not ask for it is the
same on every root. -/
def AtOp.performAsking (half : (UInt64 × UInt64) × UInt64 → UInt64) :
    Handler AtOp (Asking RootCall) Outcome (AskingReply RootAnswer (Except Failed Opened)) :=
      fun op =>
  if op.asksRoot then
    .call .value fun kept => ((op.perform half (.ofKept kept)).interp pathHandler).interp owned
  else ((op.perform half (.unconfined .slash)).interp pathHandler).interp owned

section Unasked

variable {d sd dd : Desc} {path : PathBuf}

/-- Nothing is asked when there is no directory, or one and no path. -/
theorem unasked_cases
    (h : ([d].any Desc.isRoot || ([d].all Desc.isDir && path ≠ [])) = false) :
    (∃ file, d = .file file) ∨ (∃ dir, d = .dir dir) ∧ path = [] := by
  cases d with
  | dir dir => exact .inr ⟨⟨dir, rfl⟩, by simpa [Desc.isRoot, Desc.isDir] using h⟩
  | file file => exact .inl ⟨file, rfl⟩
  | root => simp [Desc.isRoot] at h

/-- The same for two descriptors. -/
theorem unasked_cases_two
    (h : ([sd, dd].any Desc.isRoot || ([sd, dd].all Desc.isDir && path ≠ [])) = false) :
    (∃ file, sd = .file file) ∨ (∃ dir file, sd = .dir dir ∧ dd = .file file) ∨
      (∃ dir dir', sd = .dir dir ∧ dd = .dir dir') ∧ path = [] := by
  cases sd with
  | file file => exact .inl ⟨file, rfl⟩
  | root => simp [Desc.isRoot] at h
  | dir dir =>
    cases dd with
    | file file => exact .inr (.inl ⟨dir, file, rfl, rfl⟩)
    | root => simp [Desc.isRoot] at h
    | dir dir' =>
      exact .inr (.inr ⟨⟨dir, dir', rfl, rfl⟩, by simpa [Desc.isRoot, Desc.isDir] using h⟩)

end Unasked

/-- An operation that does not ask for the root is the same on every root. -/
theorem AtOp.perform_of_not_asksRoot {half : (UInt64 × UInt64) × UInt64 → UInt64} {op : AtOp}
    (h : op.asksRoot = false) (r r' : Root) : op.perform half r = op.perform half r' := by
  cases op with
  | copyFile sd sp dd dp =>
    rcases unasked_cases_two h with ⟨file, rfl⟩ | ⟨dir, file, rfl, rfl⟩ |
      ⟨⟨dir, dir', rfl, rfl⟩, rfl⟩
      <;> rfl
  | copyDir sd sp dd dp =>
    rcases unasked_cases_two h with ⟨file, rfl⟩ | ⟨dir, file, rfl, rfl⟩ |
      ⟨⟨dir, dir', rfl, rfl⟩, rfl⟩
      <;> rfl
  | _ => rcases unasked_cases h with ⟨file, rfl⟩ | ⟨⟨dir, rfl⟩, rfl⟩ <;> rfl

/-! ### Given a root -/

/-- Asked with something kept, the operation is the one on the root that was kept. -/
theorem AtOp.performAsking_given (half : (UInt64 × UInt64) × UInt64 → UInt64) (op : AtOp)
    (kept : Except Failed Opened) :
    (op.performAsking half).interp (given kept) =
      (op.perform half (.ofKept kept)).interp pathHandler := by
  unfold performAsking
  split
  · exact Program.interp_owned kept _
  · next hasks =>
    rw [Program.interp_owned,
      perform_of_not_asksRoot (by simpa using hasks) _ (.ofKept kept)]

/-- The operations call for the root in no other way than by asking. -/
def Establishes : RootCall → Prop
  | .currentDir | .openAmbientDir _ => True
  | .path _ => False

private theorem onlyCalls_owned_pathHandler {α : Type} (p : Program PathCall PathAnswer α) :
    ((p.interp pathHandler).interp
      (owned : Handler RootCall _ RootAnswer
        (AskingReply RootAnswer (Except Failed Opened)))).OnlyCalls
        (Asking.Owns fun c => ¬Establishes c) := by
  induction p with
  | done a => trivial
  | call c next ih => exact ⟨not_false, ih⟩

private theorem AtOp.onlyCalls_performAsking (half : (UInt64 × UInt64) × UInt64 → UInt64)
    (op : AtOp) :
    (op.performAsking half).OnlyCalls (Asking.Owns fun c => ¬Establishes c) := by
  unfold performAsking
  split
  · exact ⟨trivial, fun kept => onlyCalls_owned_pathHandler _⟩
  · exact onlyCalls_owned_pathHandler _

/-- The filesystem alone, without the calls that establish the root. -/
def paths {σ : Type} (S : System RootCall RootAnswer σ) : System PathCall PathAnswer σ where
  perform c s answer t := S.perform (.path c) s answer t
  others := S.others

/-- A call on a name, as the app makes it and as the filesystem answers it. -/
inductive OnPaths : Correspondence RootCall PathCall RootAnswer PathAnswer where
  | path (c : PathCall) : OnPaths (.path c) c Eq

private theorem agree_pathHandler {α : Type} (p : Program PathCall PathAnswer α) :
    Program.Agree OnPaths Eq (p.interp pathHandler) p := by
  induction p with
  | done a => exact .done rfl
  | call c next ih =>
    apply Program.Agree.call (OnPaths.path c)
    rintro answer _ rfl
    exact ih answer

private theorem simulates_paths {σ : Type} (S : System RootCall RootAnswer σ) :
    Simulates OnPaths S (paths S) Eq := by
  constructor
  · rintro _ _ _ ⟨c⟩ s _ answer t rfl hperform
    exact ⟨answer, t, hperform, rfl, rfl⟩
  · rintro s _ t rfl hothers
    exact ⟨t, hothers, rfl⟩

/-- A run of calls on names is one on the filesystem alone. -/
theorem reaches_paths {σ α : Type} {S : System RootCall RootAnswer σ}
    {p : Program PathCall PathAnswer α} {s t : σ} {a : α}
    (h : Reaches S (p.interp pathHandler, s) (.done a, t)) :
    Reaches (paths S) (p, s) (.done a, t) := by
  obtain ⟨q, t', hrun, hagree, rfl⟩ := (agree_pathHandler p).reaches (simulates_paths S) rfl h
  cases hagree with
  | done hab => exact hab ▸ hrun

/-! ### Whole runs -/

/-- An app, run from a process start: the root is found when an operation first asks for it. -/
def confinedRun {α : Type} (half : (UInt64 × UInt64) × UInt64 → UInt64)
    (app : Program AtOp AtOp.Outcome α) :
    Program RootCall RootAnswer (α × Option (Except Failed Opened)) :=
  (app.interp (AtOp.performAsking half)).once Confinement.init none

/-- `current_dir` is called. -/
def IsCurrentDir (c : RootCall) : Prop := c = .currentDir

/-- `open_ambient_dir` is called. -/
def IsOpenAmbientDir (c : RootCall) : Prop := ∃ base, c = .openAmbientDir base

private theorem onlyCalls_init : Confinement.init.OnlyCalls Establishes := by
  refine ⟨trivial, fun answer => ?_⟩
  cases answer with
  | error e => trivial
  | ok base => exact ⟨trivial, fun answer => by cases answer <;> trivial⟩

private theorem callsAtMost_init_currentDir : Confinement.init.CallsAtMost IsCurrentDir 1 := by
  apply Program.CallsAtMost.counted
  intro answer
  cases answer with
  | error e => exact .done _
  | ok base =>
    apply Program.CallsAtMost.other (by simp [IsCurrentDir])
    intro answer
    cases answer <;> exact .done _

private theorem callsAtMost_init_openAmbientDir :
    Confinement.init.CallsAtMost IsOpenAmbientDir 1 := by
  apply Program.CallsAtMost.other (by simp [IsOpenAmbientDir])
  intro answer
  cases answer with
  | error e => exact .done _
  | ok base =>
    apply Program.CallsAtMost.counted
    intro answer
    cases answer <;> exact .done _

private theorem onlyCalls_asking {α : Type} (half : (UInt64 × UInt64) × UInt64 → UInt64)
    (app : Program AtOp AtOp.Outcome α) {P : RootCall → Prop} (hP : ∀ c, P c → Establishes c) :
    (app.interp (AtOp.performAsking half)).OnlyCalls (Asking.Owns fun c => ¬P c) := by
  induction app with
  | done a => trivial
  | call op next ih =>
    apply Program.OnlyCalls.bind _ ih
    apply (AtOp.onlyCalls_performAsking half op).mono
    rintro (_ | c) hc
    · trivial
    · exact mt (hP c) hc

/-- Given what was kept, the app is the one on the root that was kept. -/
theorem asking_given {α : Type} (half : (UInt64 × UInt64) × UInt64 → UInt64)
    (app : Program AtOp AtOp.Outcome α) (kept : Except Failed Opened) :
    (app.interp (AtOp.performAsking half)).interp (given kept) =
      (app.interp (AtOp.perform half (.ofKept kept))).interp pathHandler := by
  rw [Program.interp_interp, Program.interp_interp]
  congr
  funext op
  exact AtOp.performAsking_given half op kept

/-- However an app goes on from what it is told, and whatever others do in between, all its
operations are those of one fixed root: what `opened` kept at the end, or any root while nothing
was asked of it. The working directory is looked up and opened at most once, a failure included. -/
theorem root_is_fixed {σ α : Type} (half : (UInt64 × UInt64) × UInt64 → UInt64)
    (S : System RootCall RootAnswer σ)
    (hlooks : ∀ c s answer t, Establishes c → S.perform c s answer t → t = s)
    (app : Program AtOp AtOp.Outcome α) :
    (confinedRun half app).CallsAtMost IsCurrentDir 1 ∧
    (confinedRun half app).CallsAtMost IsOpenAmbientDir 1 ∧
    ∀ s a cell t, Reaches S (confinedRun half app, s) (.done (a, cell), t) →
      (∀ kept, (∀ found, cell = some found → found = kept) →
        Reaches (paths S) (app.interp (AtOp.perform half (.ofKept kept)), s) (.done a, t)) ∧
      ∀ kept, cell = some kept →
        Program.Finds S Confinement.init kept (confinedRun half app, s) (.done (a, cell), t) := by
  refine ⟨?_, ?_, fun s a cell t hrun => ?_⟩
  · exact Program.callsAtMost_once callsAtMost_init_currentDir
      (onlyCalls_asking half app fun c hc => hc ▸ trivial)
  · apply Program.callsAtMost_once callsAtMost_init_openAmbientDir
    apply onlyCalls_asking half app
    rintro _ ⟨base, rfl⟩
    trivial
  · obtain ⟨hcell, hgiven⟩ :=
      (Program.once_ensuresAmid hlooks onlyCalls_init none _ s).reaches hrun
    constructor
    · intro kept hkept
      have hfixed := hgiven kept hkept
      rw [asking_given] at hfixed
      exact reaches_paths hfixed
    · intro kept hkept
      exact (hcell.found kept hkept).resolve_left (by simp)

/-- A working directory that is gone. -/
def goneSystem : System RootCall RootAnswer Unit where
  perform _ _ answer _ := answer = .error ⟨.notFound, "gone"⟩
  others _ _ := False

/-- Two files deleted without a root: neither operation is on one, and one call was made. -/
theorem root_is_fixed_gone :
    Reaches (paths goneSystem)
      (Program.interp (AtOp.perform (fun _ => 0) (.ofKept (.error ⟨.notFound, "gone"⟩)))
        (.call (AtOp.unlink .root [102]) fun _ => Program.ask (AtOp.unlink .root [103])), ())
      (.done (.error IOErr.notFound), ()) := by
  have hanswer : goneSystem.perform .currentDir () (.error ⟨.notFound, "gone"⟩) () := rfl
  have hrun : Reaches goneSystem
      (confinedRun (fun _ => 0)
        (.call (AtOp.unlink .root [102]) fun _ => Program.ask (AtOp.unlink .root [103])), ())
      (.done (.error IOErr.notFound, some (.error ⟨.notFound, "gone"⟩)), ()) :=
    .single (.call hanswer)
  refine ((root_is_fixed (fun _ => 0) goneSystem (fun _ _ _ _ _ _ => rfl) _).2.2 () _ _ () hrun).1
    _ fun found hfound => ?_
  exact (Option.some.inj hfound).symm

end TrantorCli.FsCore
