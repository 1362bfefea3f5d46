import TrantorCli.FsCore.Remove
import TrantorCli.OsStr

/-!
# The working directory

The path layer keeps a working directory of its own, as text, and resolves
relative paths against it, or against the process's while it is empty. Setting
it resolves the path, reads the bytes as text, checks that a directory is there
and stores the text, so what is stored is what was named only while the bytes
are text.
-/

open Interaction UnixPath Roc

namespace TrantorCli

open FsCore

/-- `kind` of the `stat_at!` record -/
inductive FileKind where
  | file
  | dir
  | symLink
  | other
  deriving DecidableEq, Repr

namespace FsCore

/-- `kind_of` -/
def kindOf (isDir isFile isSymlink : Bool) : FileKind :=
  if isDir then .dir
  else if isFile then .file
  else if isSymlink then .symLink
  else .other

/-- `stat_of`, for its kind -/
def statOf (tg : Target) (follow : Bool) : Sys FileKind :=
  match tg with
  | .ambient path => do
    let m ← if follow then metadata (.ambient path) else symlinkMetadata (.ambient path)
    pure (kindOf m.isDir m.isFile m.isSymlink)
  | .beneath path => do
    let m ← if follow then metadata (.beneath path) else beneathLstat path
    pure (kindOf m.isDir m.isFile m.isSymlink)

/-- `stat_at`, for its kind -/
def statAt (r : Root) (d : Desc) (path : PathBuf) (follow : Bool) :
    Fallible Call Answer IOErr FileKind :=
  ExceptT.mk ((withPath r d path fun tg => statOf tg follow).run >>= fun result =>
    pure (result.mapError ioerr))

end FsCore

/-- `native`: the bytes of the operating system, as text when they are text. -/
def native (path : PathBuf) : OsStr :=
  match Str.fromUtf8 path with
  | .ok text => .utf8 text
  | .error _ => .unixBytes path

namespace FsOps

/-- A process: its userland working directory, and what the operating system answers. -/
structure Process where
  /-- `SLOT`, read by `Cwd.get!` and written by `Cwd.set!`; empty means the process's own. -/
  slot : Str
  /-- `current_dir` -/
  currentDir : Except IoError AbsPath
  root : Root
  os : Os

/-- `CwdUnavailable` -/
inductive CwdError where
  | cwdUnavailable
  deriving DecidableEq, Repr

/-- `os_bytes` -/
def osBytes : OsStr → PathBuf
  | .utf8 str => str.toUtf8
  | .unixBytes bytes => bytes
  | .windowsU16s u16s => (OsStr.windowsU16s u16s).display.toUtf8

/-- `join_bytes` -/
def joinBytes (a b : PathBuf) : PathBuf :=
  match a.getLast? with
  | some c => if c = 47 then a ++ b else (a ++ [47]) ++ b
  | none => b

/-- `CliEnv.cwd!` -/
def cliEnvCwd (s : Process) : Except IOErr OsStr :=
  (s.currentDir.map fun dir => native dir.bytes).mapError ioerr

/-- `cwd!` -/
def cwd (s : Process) : Except CwdError PathBuf :=
  if s.slot.isEmpty then
    match cliEnvCwd s with
    | .ok os => .ok (osBytes os)
    | .error _ => .error .cwdUnavailable
  else .ok s.slot.toUtf8

/-- `resolve!` -/
def resolve (s : Process) (path : PathBuf) : PathBuf :=
  if isAbsolute path || path.isEmpty then path
  else
    match cwd s with
    | .ok dir => joinBytes dir path
    | .error .cwdUnavailable => []

/-- `followed_kind!` -/
def followedKind (s : Process) (path : PathBuf) : Except IOErr FileKind :=
  Fallible.eval s.os (statAt s.root .root (resolve s path) true)

/-- `set_cwd!` -/
def setCwd (s : Process) (path : Str) : Except IOErr Unit × Process :=
  let abs := Str.fromUtf8Lossy (resolve s path.toUtf8)
  match followedKind s abs.toUtf8 with
  | .ok .dir => (.ok (), { s with slot := abs })
  | .ok _ => (.error .notADirectory, s)
  | .error e => (.error e, s)

end FsOps

/-- `Host.env_set_cwd!` -/
def envSetCwd (s : FsOps.Process) : OsStr → Except IOErr Unit × FsOps.Process
  | .utf8 str => FsOps.setCwd s str
  | .unixBytes bytes =>
    match Str.fromUtf8 bytes with
    | .ok str => FsOps.setCwd s str
    | .error _ => (.error (.other "cwd is not valid UTF-8"), s)
  | .windowsU16s _ => (.error (.other "windows paths are not supported on this host"), s)

namespace Env

/-- `InvalidCwd` -/
inductive InvalidCwd where
  | invalidCwd (err : IOErr)
  deriving DecidableEq, Repr

/-- `Env.set_cwd!` -/
def setCwd (s : FsOps.Process) (path : Path) : Except InvalidCwd Unit × FsOps.Process :=
  let (result, s') := envSetCwd s path.toRaw
  (result.mapError .invalidCwd, s')

end Env

namespace FsOps

/-- What setting the working directory to `path` means: if it succeeds, then as long as the slot is
left alone, the working directory is what `path` named, and relative paths are under it. -/
def MeansNamed (s : Process) (path : Path) : Prop :=
  ∀ s', Env.setCwd s path = (.ok (), s') → ∀ later : Process, later.slot = s'.slot →
    cwd later = .ok (resolve s (osBytes path.toRaw)) ∧
      ∀ q, q ≠ [] → isAbsolute q = false →
        resolve later q = joinBytes (resolve s (osBytes path.toRaw)) q

/-- Where a relative path meets a working directory of the process that is not text, no directory
stands where the joined path read as text leads. -/
def NoLossyDirectory (s : Process) (path : Path) : Prop :=
  ∀ (text : Str) (dir : AbsPath), path.toRaw = .utf8 text ∨ path.toRaw = .unixBytes text.bytes →
    text.bytes ≠ [] → isAbsolute text.bytes = false → s.slot.bytes = [] →
    s.currentDir = .ok dir → ¬Utf8.Valid dir.bytes →
    followedKind s (Str.fromUtf8Lossy (joinBytes dir.bytes text.bytes)).bytes ≠ .ok .dir

/-! ### Bytes -/

/-- What the operating system gives comes back as it was. -/
theorem osBytes_native (path : PathBuf) : osBytes (native path) = path := by
  rw [native]
  cases htext : Str.fromUtf8 path with
  | ok text => exact Str.bytes_of_fromUtf8 htext
  | error index => rfl

/-- A slash is text. -/
theorem valid_slash : Utf8.Valid [47] := Utf8.Ascii.valid (by simp)

/-- Joining text to text gives text. -/
theorem valid_joinBytes {a b : PathBuf} (ha : Utf8.Valid a) (hb : Utf8.Valid b) :
    Utf8.Valid (joinBytes a b) := by
  unfold joinBytes
  split
  · split
    · exact ha.append hb
    · exact (ha.append valid_slash).append hb
  · exact hb

/-- A path joined to a directory is text only if the directory is. -/
theorem valid_of_joinBytes {a b : PathBuf} (hb : Utf8.Valid b) (h : Utf8.Valid (joinBytes a b)) :
    Utf8.Valid a := by
  unfold joinBytes at h
  split at h
  · split at h
    · exact hb.of_append_right h
    · exact valid_slash.of_append_right (hb.of_append_right h)
  · rename_i hlast
    rw [List.getLast?_eq_none_iff.mp hlast]
    exact .nil

/-! ### The slot and the process -/

variable {s : Process}

/-- A slot that is set is the working directory. -/
theorem cwd_of_slot (h : s.slot.bytes ≠ []) : cwd s = .ok s.slot.bytes := by
  rw [cwd, if_neg (by simpa using h)]

/-- With nothing in the slot the process is where it was started. -/
theorem cwd_of_process {dir : AbsPath} (hslot : s.slot.bytes = []) (hdir : s.currentDir = .ok dir) :
    cwd s = .ok dir.bytes := by
  rw [cwd, if_pos (by simpa using hslot), cliEnvCwd, hdir]
  exact congrArg Except.ok (osBytes_native dir.bytes)

/-- A relative path is joined to the working directory. -/
theorem resolve_of_relative {path dir : PathBuf} (hne : path ≠ []) (hrel : isAbsolute path = false)
    (hcwd : cwd s = .ok dir) : resolve s path = joinBytes dir path := by
  rw [resolve, hrel, hcwd, if_neg (by simpa using hne)]

private theorem eval_statAt (os : Os) (r : Root) (d : Desc) (path : PathBuf) (follow : Bool) :
    Fallible.eval os (statAt r d path follow) =
      (Fallible.eval os (withPath r d path fun tg => statOf tg follow)).mapError ioerr := by
  rw [Fallible.eval, statAt, ExceptT.run_mk, Program.eval_bind, Program.eval_pure, eval_run]

/-- Nothing is at the empty path. -/
theorem followedKind_nil (s : Process) : followedKind s [] ≠ .ok .dir := by
  have hresolve : ∀ dir, FsCore.resolve s.root dir [] =
      throw ⟨.notFound, "an empty path names nothing"⟩ :=
    fun dir => if_pos rfl
  have hnil : resolve s [] = [] := rfl
  rw [followedKind, hnil, eval_statAt, eval_withPath]
  cases dirOf s.root .root with
  | error e => simp [Except.mapError, bind, Except.bind]
  | ok dir => simp [Except.mapError, bind, Except.bind, hresolve]

/-- Setting the working directory stores what the path names, read as text, if a directory is
there. -/
theorem setCwd_eq_ok {text : Str} {s' : Process} :
    setCwd s text = (.ok (), s') ↔
      followedKind s (Str.fromUtf8Lossy (resolve s text.bytes)).bytes = .ok .dir ∧
        s' = { s with slot := Str.fromUtf8Lossy (resolve s text.bytes) } := by
  rw [setCwd]
  cases hkind : followedKind s (Str.fromUtf8Lossy (resolve s text.toUtf8)).toUtf8 with
  | error e => simp
  | ok kind => cases kind <;> simp [eq_comm]

/-- Only paths that are text are taken. -/
theorem envSetCwd_eq_ok {raw : OsStr} {s' : Process} :
    envSetCwd s raw = (.ok (), s') ↔
      ∃ text : Str, (raw = .utf8 text ∨ raw = .unixBytes text.bytes) ∧
        setCwd s text = (.ok (), s') := by
  cases raw with
  | utf8 str => simp [envSetCwd]
  | unixBytes bytes =>
    cases htext : Str.fromUtf8 bytes with
    | ok text =>
      obtain rfl := Str.bytes_of_fromUtf8 htext
      constructor
      · intro h
        exact ⟨text, .inr rfl, by simpa [envSetCwd] using h⟩
      · rintro ⟨other, hother | hother, h⟩
        · exact absurd hother (by simp)
        · obtain rfl : text = other := Str.ext (OsStr.unixBytes.inj hother)
          simpa [envSetCwd] using h
    | error index =>
      constructor
      · intro h
        simp [envSetCwd, htext] at h
      · rintro ⟨text, hraw | hraw, -⟩
        · exact absurd hraw (by simp)
        · rw [OsStr.unixBytes.inj hraw, Str.fromUtf8_bytes] at htext
          exact absurd htext (by simp)
  | windowsU16s u16s => simp [envSetCwd]

private theorem env_setCwd_eq_ok {path : Path} {s' : Process} :
    Env.setCwd s path = (.ok (), s') ↔ envSetCwd s path.toRaw = (.ok (), s') := by
  rw [Env.setCwd]
  rcases envSetCwd s path.toRaw with ⟨result, t⟩
  cases result <;> simp [Except.mapError]

/-- The bytes that a relative or absolute path stands for are text, but for a relative path that is
joined to a working directory of the process that is not. -/
theorem valid_resolve {text : Str}
    (h : text.bytes ≠ [] → isAbsolute text.bytes = false → s.slot.bytes = [] →
      ∀ dir, s.currentDir = .ok dir → Utf8.Valid dir.bytes) :
    Utf8.Valid (resolve s text.bytes) := by
  unfold resolve
  split
  · exact text.valid
  · rename_i hrel
    simp only [Bool.or_eq_true, not_or, Bool.not_eq_true, List.isEmpty_eq_false_iff] at hrel
    split
    · rename_i dir hcwd
      refine valid_joinBytes ?_ text.valid
      by_cases hslot : s.slot.bytes = []
      · cases hdir : s.currentDir with
        | error e =>
          rw [cwd, if_pos (by simpa using hslot), cliEnvCwd, hdir] at hcwd
          exact absurd hcwd (by simp [Except.map, Except.mapError])
        | ok current =>
          rw [cwd_of_process hslot hdir, Except.ok.injEq] at hcwd
          exact hcwd ▸ h hrel.2 hrel.1 hslot current hdir
      · rw [cwd_of_slot hslot, Except.ok.injEq] at hcwd
        exact hcwd ▸ s.slot.valid
    · exact .nil

private theorem osBytes_of_text {raw : OsStr} {text : Str}
    (h : raw = .utf8 text ∨ raw = .unixBytes text.bytes) : osBytes raw = text.bytes := by
  rcases h with rfl | rfl <;> rfl

/-- Setting the working directory means the directory that was named, exactly when no directory is
mistaken for it by reading its bytes as text. -/
theorem meansNamed_iff (s : Process) (path : Path) :
    MeansNamed s path ↔ NoLossyDirectory s path := by
  constructor
  · intro hmeans text dir htext hne hrel hslot hdir hvalid hkind
    have hnamed : resolve s text.bytes = joinBytes dir.bytes text.bytes :=
      resolve_of_relative hne hrel (cwd_of_process hslot hdir)
    have hset : Env.setCwd s path =
        (.ok (), { s with slot := Str.fromUtf8Lossy (resolve s text.bytes) }) :=
      env_setCwd_eq_ok.mpr (envSetCwd_eq_ok.mpr
        ⟨text, htext, setCwd_eq_ok.mpr ⟨by rw [hnamed, hkind], rfl⟩⟩)
    obtain ⟨hcwd, -⟩ := hmeans _ hset _ rfl
    have hslot' : (Str.fromUtf8Lossy (resolve s text.bytes)).bytes ≠ [] := by
      intro hnil
      rw [hnamed] at hnil
      exact followedKind_nil s (hnil ▸ hkind)
    -- the slot holds text, what was named is not text
    rw [cwd_of_slot hslot', Except.ok.injEq, osBytes_of_text htext, Str.fromUtf8Lossy_bytes_iff,
      hnamed] at hcwd
    exact hvalid (valid_of_joinBytes text.valid hcwd)
  · intro hno s' hset later hlater
    obtain ⟨text, htext, hset⟩ := envSetCwd_eq_ok.mp (env_setCwd_eq_ok.mp hset)
    obtain ⟨hkind, rfl⟩ := setCwd_eq_ok.mp hset
    have hvalid : Utf8.Valid (resolve s text.bytes) := by
      refine valid_resolve fun hne hrel hslot dir hdir => ?_
      by_contra hdirValid
      refine hno text dir htext hne hrel hslot hdir hdirValid ?_
      rw [← resolve_of_relative hne hrel (cwd_of_process hslot hdir), hkind]
    have hbytes : (Str.fromUtf8Lossy (resolve s text.bytes)).bytes = resolve s text.bytes :=
      Str.fromUtf8Lossy_bytes hvalid
    have hslot : later.slot.bytes = resolve s text.bytes := by rw [hlater, hbytes]
    have hne : later.slot.bytes ≠ [] := by
      intro hnil
      rw [hbytes, ← hslot, hnil] at hkind
      exact followedKind_nil s hkind
    have hcwd : cwd later = .ok (resolve s (osBytes path.toRaw)) := by
      rw [cwd_of_slot hne, hslot, osBytes_of_text htext]
    exact ⟨hcwd, fun q hq hrel => resolve_of_relative hq hrel hcwd⟩

/-- A process in the directory `/a\xFF`, where only `/a\uFFFD/sub` is a directory. -/
def lossyProcess : Process where
  slot := ⟨[], .nil⟩
  currentDir := .ok ⟨[47, 97, 0xFF], rfl⟩
  root := .unconfined ⟨[47], rfl⟩
  os
    | .metadata tg =>
      if tg = .ambient ([47, 97] ++ Utf8.replacement ++ [47, 115, 117, 98]) then
        .ok ⟨true, false, false, 0o755, 0, 0⟩
      else .error ⟨.notFound, ""⟩
    | _ => .error ⟨.notFound, ""⟩

/-- `sub` set from there is taken, and leads to the other directory. -/
theorem not_meansNamed_lossy : ¬MeansNamed lossyProcess (.utf8 (.lit "sub")) := by
  intro hmeans
  have hnamed : resolve lossyProcess (Str.lit "sub").bytes = [47, 97, 0xFF, 47, 115, 117, 98] := by
    decide +kernel
  have hlossy : (Str.fromUtf8Lossy [47, 97, 0xFF, 47, 115, 117, 98]).bytes =
      [47, 97] ++ Utf8.replacement ++ [47, 115, 117, 98] := by
    decide +kernel
  have hkind : followedKind lossyProcess ([47, 97] ++ Utf8.replacement ++ [47, 115, 117, 98]) =
      .ok .dir := by
    decide +kernel
  have hset : setCwd lossyProcess (.lit "sub") = (.ok (),
      { lossyProcess with slot := Str.fromUtf8Lossy [47, 97, 0xFF, 47, 115, 117, 98] }) :=
    setCwd_eq_ok.mpr (by rw [hnamed, hlossy]; exact ⟨hkind, rfl⟩)
  obtain ⟨hcwd, -⟩ := hmeans _ (env_setCwd_eq_ok.mpr hset) _ rfl
  rw [cwd_of_slot (by rw [hlossy]; simp), hlossy, Except.ok.injEq] at hcwd
  have hnamed' := hcwd.trans hnamed
  revert hnamed'
  decide +kernel

end FsOps

end TrantorCli
