import TrantorCli.FsCore.Copy
import TrantorCli.FsCore.Kernel

/-!
# Copying a directory while others act

After its `mkdir`, `copy_dir` goes back to the name, and the no-follow open only
keeps it from a link. Whenever the name does not hold somebody else's directory
at those steps, it changes and removes nothing but what it made.
-/

open Interaction UnixPath

namespace TrantorCli.FsCore

variable {Name : Type} [DecidableEq Name]

/-- What another process may do to the namespace. -/
inductive Interference : World Name → World Name → Prop where
  | rename {w : World Name} {n m : Name} {id : Nat} (h : w.entries n = some id) :
      Interference w
        { w with entries := Function.update (Function.update w.entries n none) m (some id) }
  | remove {w : World Name} {n : Name} {id : Nat} (h : w.entries n = some id) :
      Interference w { w with entries := Function.update w.entries n none }
  | create {w : World Name} {n : Name} (o : Object) (h : w.entries n = none) :
      Interference w
        { w with entries := Function.update w.entries n (some w.nextObject),
                 objects := Function.update w.objects w.nextObject o,
                 nextObject := w.nextObject + 1 }

/-- A state in which the program has not acted yet. -/
structure World.Start (w : World Name) : Prop where
  closed : ∀ file, w.handles file = none
  made : w.made = []
  chmodded : w.chmodded = []
  removed : w.removed = []
  known : ∀ n id, w.entries n = some id → id < w.nextObject

/-- The program changed the mode of nothing, and removed nothing, but what it made. -/
structure World.OwnOnly (w : World Name) : Prop where
  chmodded : ∀ id ∈ w.chmodded, id ∈ w.made
  removed : ∀ id ∈ w.removed, id ∈ w.made

namespace Kernel

variable (K : Kernel Name)

/-- The kernel with another process acting on the namespace. -/
def raced : System Call Answer (World Name) := ⟨K.perform, Interference⟩

/-- Where a directory is opened or removed by its name, the name holds no directory but one that
the program made. -/
def Undisturbed (c : Call) (w : World Name) : Prop :=
  match c with
  | .openDirectory tg _ | .removeDir tg =>
    ∀ id, K.lstat w tg = some id → (w.objects id).kind = .directory → id ∈ w.made
  | _ => True

/-- The runs of `raced` in which every step of the program is undisturbed. -/
def undisturbed : System Call Answer (World Name) :=
  ⟨fun c w answer w' => K.Undisturbed c w ∧ K.perform c w answer w', Interference⟩

end Kernel

/-! ### The calls of a directory copy -/

/-- The calls `copy_dir_at` makes. -/
def Call.ofCopyDir : Call → Prop
  | .canonicalize _ | .metadata _ | .symlinkMetadata _ => True
  | .createDir _ _ | .removeDir _ | .setPermissions _ _ => True
  | .openDirectory _ follow => follow = false
  | _ => False

private theorem onlyCalls_metadataAsNamed (tg : Target) :
    Fallible.OnlyCalls Call.ofCopyDir (metadataAsNamed tg) := by
  cases tg with
  | ambient path =>
    exact Fallible.onlyCalls_bind (Fallible.onlyCalls_ask trivial) fun _ =>
      Fallible.onlyCalls_pure _
  | beneath path =>
    refine Fallible.onlyCalls_bind ?_ fun _ => Fallible.onlyCalls_pure _
    unfold beneathLstat
    split <;> exact Fallible.onlyCalls_ask trivial

private theorem onlyCalls_newDirectoryName (tg : Target) :
    Fallible.OnlyCalls Call.ofCopyDir (newDirectoryName tg) := by
  unfold newDirectoryName
  split
  · exact Fallible.onlyCalls_pure _
  · refine Fallible.onlyCalls_bind (onlyCalls_ofProgram (Fallible.onlyCalls_ask trivial))
      fun answer => ?_
    split
    · exact Fallible.onlyCalls_throw _
    · split
      · exact Fallible.onlyCalls_pure _
      · exact Fallible.onlyCalls_throw _

private theorem onlyCalls_copyDir (src dst : Target) :
    Fallible.OnlyCalls Call.ofCopyDir (copyDir src dst) := by
  refine Fallible.onlyCalls_bind (onlyCalls_metadataAsNamed src) fun (isDir, sourceMode) => ?_
  simp only
  split
  · exact Fallible.onlyCalls_throw _
  · refine Fallible.onlyCalls_bind (onlyCalls_newDirectoryName dst) fun named => ?_
    refine Fallible.onlyCalls_bind (Fallible.onlyCalls_ask trivial) fun _ => ?_
    have hchmod : Fallible.OnlyCalls Call.ofCopyDir
        (chmodMade named ((sourceMode &&& 0o777 &&& ~~~specialBits) ||| ownerAll)) :=
      Fallible.onlyCalls_bind (Fallible.onlyCalls_ask rfl) fun _ =>
        Fallible.onlyCalls_ask trivial
    refine Fallible.onlyCalls_bind (onlyCalls_ofProgram hchmod) fun result => ?_
    split
    · exact Fallible.onlyCalls_pure _
    · exact Fallible.onlyCalls_bind (onlyCalls_ofProgram (Fallible.onlyCalls_ask trivial))
        fun _ => Fallible.onlyCalls_throw _

private theorem onlyCalls_copyDirAt (r : Root) (sd : Desc) (sp : PathBuf) (dd : Desc)
    (dp : PathBuf) :
    Fallible.OnlyCalls Call.ofCopyDir (copyDirAt r sd sp dd dp) := by
  have hresolve : ∀ dir rel, Fallible.OnlyCalls Call.ofCopyDir (resolve r dir rel) := by
    intro dir rel
    refine (onlyCalls_resolve r dir rel).mono fun c hc => ?_
    cases c <;> trivial
  refine Program.OnlyCalls.bind ?_ fun _ => trivial
  refine Fallible.onlyCalls_bind (onlyCalls_ofExcept _) fun srcDir => ?_
  refine Fallible.onlyCalls_bind (onlyCalls_ofExcept _) fun dstDir => ?_
  refine Fallible.onlyCalls_bind (hresolve _ _) fun src => ?_
  exact Fallible.onlyCalls_bind (hresolve _ _) fun dst => onlyCalls_copyDir src dst

/-! ### What the calls keep -/

/-- What the program holds open and has acted on is its own. -/
structure World.Owned (w : World Name) : Prop extends w.OwnOnly where
  handles : ∀ file id, w.handles file = some id → id ∈ w.made

variable {K : Kernel Name}

omit [DecidableEq Name] in
private theorem World.Start.owned {w : World Name} (h : w.Start) : w.Owned := by
  refine ⟨⟨by simp [h.chmodded], by simp [h.removed]⟩, fun file id hfile => ?_⟩
  rw [h.closed] at hfile
  exact absurd hfile (by simp)

/-- An undisturbed step of a directory copy keeps to what is its own. -/
theorem owned_of_perform {c : Call} {w w' : World Name} {answer : Answer c} (hc : c.ofCopyDir)
    (hundisturbed : K.Undisturbed c w) (hperform : K.perform c w answer w') (hw : w.Owned) :
    w'.Owned := by
  cases answer with
  | error e =>
    have hcopy : ∀ src dst, c ≠ .copyData src dst := by
      rintro src dst rfl
      exact hc
    exact Kernel.eq_of_failure hcopy hperform ▸ hw
  | ok reply =>
    cases c with
    | canonicalize path =>
      obtain ⟨-, rfl⟩ := hperform
      exact hw
    | metadata tg =>
      obtain ⟨_, -, -, rfl⟩ := hperform
      exact hw
    | symlinkMetadata tg =>
      obtain ⟨_, -, -, rfl⟩ := hperform
      exact hw
    | createDir tg mode =>
      obtain ⟨n, _, _, -, -, rfl⟩ := hperform
      have hmade : ∀ id ∈ w.made, id ∈ w.nextObject :: w.made := fun id => List.mem_cons_of_mem _
      exact ⟨⟨fun id h => hmade id (hw.chmodded id h), fun id h => hmade id (hw.removed id h)⟩,
        fun file id h => hmade id (hw.handles file id h)⟩
    | openDirectory tg follow =>
      obtain ⟨id, hid, hkind, -, rfl⟩ := hperform
      rw [Call.ofCopyDir] at hc
      rw [hc] at hid
      have hmade : id ∈ w.made := hundisturbed id hid hkind
      refine ⟨⟨hw.chmodded, hw.removed⟩, fun file id' hfile => ?_⟩
      by_cases hnew : file = w.nextHandle
      · obtain rfl : id = id' := by simpa [World.openHandle, hnew] using hfile
        exact hmade
      · exact hw.handles file id' (by simpa [World.openHandle, hnew] using hfile)
    | setPermissions file mode =>
      obtain ⟨id, hid, rfl⟩ := hperform
      refine ⟨⟨fun id' h => ?_, hw.removed⟩, hw.handles⟩
      rcases List.mem_cons.mp h with rfl | h
      · exact hw.handles file _ hid
      · exact hw.chmodded id' h
    | removeDir tg =>
      obtain ⟨n, id, hentry, hid, hkind, rfl⟩ := hperform
      have hmade : id ∈ w.made := hundisturbed id (by rw [Kernel.lstat, hentry]; exact hid) hkind
      refine ⟨⟨hw.chmodded, fun id' h => ?_⟩, hw.handles⟩
      rcases List.mem_cons.mp h with rfl | h
      · exact hmade
      · exact hw.removed id' h
    | openFile _ _ | openRead _ | createNew _ _ | removeDirAll _ | removeFile _ => exact hc.elim
    | fileMetadata _ | copyData _ _ => exact hc.elim

/-- In every run of `copy_dir_at` against a process that renames, removes and creates entries, as
long as each time it opens or removes a directory by its name the name holds none but its own, the
only directory it changes or removes is its own. -/
theorem copyDirAt_ownOnly (K : Kernel Name) (r : Root) (sd : Desc) (sp : PathBuf) (dd : Desc)
    (dp : PathBuf) {w w' : World Name} {p : Program Call Answer (Except IOErr Unit)} (hw : w.Start)
    (hrun : Reaches K.undisturbed ((copyDirAt r sd sp dd dp).run, w) (p, w')) : w'.OwnOnly := by
  have howned : w'.Owned := by
    refine invariant_of_onlyCalls ?_ ?_ (onlyCalls_copyDirAt r sd sp dd dp) hw.owned hrun
    · intro c s reply s' hc hperform hs
      exact owned_of_perform hc hperform.1 hperform.2 hs
    · intro s s' hothers hs
      cases hothers with
      | rename => exact ⟨⟨hs.chmodded, hs.removed⟩, hs.handles⟩
      | remove => exact ⟨⟨hs.chmodded, hs.removed⟩, hs.handles⟩
      | create => exact ⟨⟨hs.chmodded, hs.removed⟩, hs.handles⟩
  exact howned.toOwnOnly

/-! ### Runs -/

/-- A kernel whose paths are entries of their own. -/
def flatKernel : Kernel PathBuf where
  entry tg := some tg.path
  follow w tg := (w.entries tg.path).filter (· < w.nextObject)
  follow_known w tg id h := by simpa using (Option.filter_eq_some_iff.mp h).2
  canonicalize _ _ := .error ⟨.notFound, ""⟩
  mayFail _ _ := False
  inherited _ := 0
  inherited_special _ := by decide

/-- A filesystem that holds the directory `/s` and nothing else. -/
def flatWorld : World PathBuf where
  entries path := if path = [47, 115] then some 0 else none
  objects _ := ⟨.directory, [], 0o755, 0, 0⟩
  nextObject := 1
  handles _ := none
  nextHandle := 3
  umask := 0o022
  made := []
  chmodded := []
  removed := []

/-- The flat world may be started from. -/
theorem start_flatWorld : flatWorld.Start := by
  refine ⟨fun _ => rfl, rfl, rfl, rfl, fun n id h => ?_⟩
  obtain ⟨-, hid⟩ := Option.ite_none_right_eq_some.mp h
  obtain rfl : 0 = id := Option.some_inj.mp hid
  decide

/-- Absolute paths on an unconfined root are what the copy acts on. -/
theorem copyDirAt_ambient {base : AbsPath} {sp dp : PathBuf} (hsp : isAbsolute sp = true)
    (hdp : isAbsolute dp = true) :
    copyDirAt (.unconfined base) .root sp .root dp =
      unit (copyDir (.ambient sp) (.ambient dp)) := by
  have hne : ∀ {path : PathBuf}, isAbsolute path = true → path ≠ [] := by
    rintro path h rfl
    exact absurd h (by decide)
  have hsrc : resolve (.unconfined base) base.bytes sp = pure (.ambient sp) := by
    rw [resolve_unconfined (hne hsp), if_pos hsp]
  have hdst : resolve (.unconfined base) base.bytes dp = pure (.ambient dp) := by
    rw [resolve_unconfined (hne hdp), if_pos hdp]
  have hdir : Sys.ofExcept (dirOf (.unconfined base) .root) = pure base.bytes := rfl
  rw [copyDirAt, hdir, pure_bind, pure_bind, hsrc, pure_bind, hdst, pure_bind]

/-- `/d`, which is the object 1, is `/x`. -/
def movedWorld (w : World PathBuf) : World PathBuf :=
  { w with
    entries := Function.update (Function.update w.entries [47, 100] none) [47, 120] (some 1) }

/-- Another directory, the object 2, is `/d`. -/
def swappedWorld (w : World PathBuf) : World PathBuf :=
  { movedWorld w with
    entries := Function.update (movedWorld w).entries [47, 100] (some 2),
    objects := Function.update w.objects 2 ⟨.directory, [], 0o700, 0, 2⟩,
    nextObject := 3 }

/-- `/s` copied to `/d`, where another process takes the directory away once it is open and makes
one of its own at the name: the mode is set on the one that was made. -/
theorem copyDirAt_ownOnly_flat :
    ((swappedWorld ((flatWorld.make [47, 100] ⟨.directory, [], 0o700, 0, 1⟩).openHandle 1)).chmod 1
      0o755).OwnOnly := by
  let made := flatWorld.make [47, 100] ⟨.directory, [], 0o700, 0, 1⟩
  have hstat : flatKernel.undisturbed.perform (.symlinkMetadata (.ambient [47, 115])) flatWorld
      (.ok ⟨true, false, false, 0o040755, 0, 0⟩) flatWorld := ⟨trivial, 0, rfl, rfl, rfl⟩
  have hmkdir : flatKernel.undisturbed.perform (.createDir (.ambient [47, 100]) 0o700) flatWorld
      (.ok ()) made := ⟨trivial, [47, 100], 0, 1, rfl, rfl, rfl⟩
  have hopen : flatKernel.undisturbed.perform (.openDirectory (.ambient [47, 100]) false) made
      (.ok (3 : Nat)) (made.openHandle 1) := by
    refine ⟨fun id hid _ => ?_, 1, rfl, rfl, rfl, rfl⟩
    obtain rfl : 1 = id := Option.some_inj.mp hid
    decide
  have hrename : Interference (made.openHandle 1) (movedWorld (made.openHandle 1)) := .rename rfl
  have hcreate : Interference (movedWorld (made.openHandle 1)) (swappedWorld (made.openHandle 1)) :=
    .create ⟨.directory, [], 0o700, 0, 2⟩ rfl
  have hchmod : flatKernel.undisturbed.perform (.setPermissions (3 : Nat) 0o755)
      (swappedWorld (made.openHandle 1)) (.ok ())
      ((swappedWorld (made.openHandle 1)).chmod 1 0o755) := ⟨trivial, 1, rfl, rfl⟩
  refine copyDirAt_ownOnly flatKernel (.unconfined ⟨[47], by decide⟩) .root [47, 115] .root
    [47, 100]
    (p := .done (.ok ())) start_flatWorld ?_
  rw [copyDirAt_ambient (by decide) (by decide)]
  exact .head (Step.call hstat) (.head (Step.call hmkdir) (.head (Step.call hopen)
    (.head (Step.others hrename) (.head (Step.others hcreate) (.head (Step.call hchmod) .refl)))))

/-- Between the `mkdir` and the open, another process takes the directory away and makes one of its
own at the name: that one is changed, and the copy reports success. -/
theorem not_ownOnly_swapped :
    ∃ (K : Kernel PathBuf) (r : Root) (sd : Desc) (sp : PathBuf) (dd : Desc) (dp : PathBuf)
      (w w' : World PathBuf), w.Start ∧
      Reaches K.raced ((copyDirAt r sd sp dd dp).run, w) (.done (.ok ()), w') ∧ ¬w'.OwnOnly := by
  refine ⟨flatKernel, .unconfined ⟨[47], by decide⟩, .root, [47, 115], .root, [47, 100],
    flatWorld, ?_⟩
  let made := flatWorld.make [47, 100] ⟨.directory, [], 0o700, 0, 1⟩
  let moved : World PathBuf :=
    { made with
      entries := Function.update (Function.update made.entries [47, 100] none) [47, 120] (some 1) }
  let swapped : World PathBuf :=
    { moved with entries := Function.update moved.entries [47, 100] (some 2),
                 objects := Function.update moved.objects 2 ⟨.directory, [], 0o700, 0, 2⟩,
                 nextObject := 3 }
  refine ⟨(swapped.openHandle 2).chmod 2 0o755, start_flatWorld, ?_, ?_⟩
  · have hstat : flatKernel.raced.perform (.symlinkMetadata (.ambient [47, 115])) flatWorld
        (.ok ⟨true, false, false, 0o040755, 0, 0⟩) flatWorld := ⟨0, rfl, rfl, rfl⟩
    have hmkdir : flatKernel.raced.perform (.createDir (.ambient [47, 100]) 0o700) flatWorld
        (.ok ()) made := ⟨[47, 100], 0, 1, rfl, rfl, rfl⟩
    have hrename : Interference made moved := .rename rfl
    have hcreate : Interference moved swapped := .create ⟨.directory, [], 0o700, 0, 2⟩ rfl
    have hopen : flatKernel.raced.perform (.openDirectory (.ambient [47, 100]) false) swapped
        (.ok (3 : Nat)) (swapped.openHandle 2) := ⟨2, rfl, rfl, rfl, rfl⟩
    have hchmod : flatKernel.raced.perform (.setPermissions (3 : Nat) 0o755)
        (swapped.openHandle 2) (.ok ()) ((swapped.openHandle 2).chmod 2 0o755) := ⟨2, rfl, rfl⟩
    rw [copyDirAt_ambient (by decide) (by decide)]
    exact .head (Step.call hstat) (.head (Step.call hmkdir) (.head (Step.others hrename)
      (.head (Step.others hcreate) (.head (Step.call hopen) (.head (Step.call hchmod) .refl)))))
  · rintro ⟨hchmodded, -⟩
    exact absurd (hchmodded 2 (by decide)) (by decide)

end TrantorCli.FsCore
