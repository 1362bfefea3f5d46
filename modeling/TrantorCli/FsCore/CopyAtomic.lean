import TrantorCli.FsCore.CopyDirRuns
import TrantorCli.FsCore.CopyFileRuns

/-!
# Copies leave all or nothing

With nobody else acting, a copy that fails at any of its calls leaves every name
as it was, a copy that succeeds has made one object with the source's permission
bits, and at no step does the new object have bits it will not have in the end.
-/

open Interaction UnixPath

namespace TrantorCli.FsCore

variable {Name : Type} [DecidableEq Name] {K : Kernel Name} {I : World Name → Prop}
  {w₀ w : World Name}

/-- What a copy leaves, in every run with nobody else acting: nothing unless it succeeds, and never
more permission bits on the new object than `limit`. -/
structure Atomic (K : Kernel Name) (w₀ : World Name) (op : Fallible Call Answer IOErr Unit)
    (src dst : Except IoError Target) (limit : World Name → Target → UInt32)
    (Copied : Target → Target → World Name → World Name → Prop) : Prop where
  /-- Nothing that was there is ever modified or removed. -/
  kept : ∀ p w, Reaches K.alone (op.run, w₀) (p, w) → Kept w₀ w
  /-- At every step, what is made has no bits it will not have in the end. -/
  within : ∀ p w tg, Reaches K.alone (op.run, w₀) (p, w) → src = .ok tg →
    ∀ id ∈ w.made, Within (w.objects id).mode (limit w₀ tg)
  failed : ∀ e w, Reaches K.alone (op.run, w₀) (.done (.error e), w) → Untouched w₀ w
  succeeded : ∀ w, Reaches K.alone (op.run, w₀) (.done (.ok ()), w) →
    ∃ tg tg', src = .ok tg ∧ dst = .ok tg' ∧ Copied tg tg' w₀ w
  existing : ∀ tg' id, dst = .ok tg' → K.lstat w₀ tg' = some id →
    ∀ w, ¬Reaches K.alone (op.run, w₀) (.done (.ok ()), w)

/-- Where a path leads, once the descriptor and the path are resolved. -/
def Kernel.target (K : Kernel Name) (w : World Name) (r : Root) (d : Desc) (path : PathBuf) :
    Except IoError Target :=
  Fallible.eval (K.os w) (resolveAt r d path)

/-- Refusing a name that asks for a directory changes nothing. -/
theorem ensures_refuseDirectoryName {tg : Target} {Q : Except IoError Unit → World Name → Prop}
    (hI : I w) (herror : ∀ e, Q (.error e) w) (hok : Q (.ok ()) w) :
    Fallible.Ensures K.alone I Q (refuseDirectoryName tg) w := by
  unfold refuseDirectoryName
  split
  · refine Fallible.ensures_bind (ensures_ofProgram (Fallible.ensures_bind ?_))
    refine ensures_metadata hI (fun e => ?_) fun id _ => Fallible.ensures_pure hI ?_
    · exact Fallible.ensures_throw hI (herror e)
    · exact Fallible.ensures_throw hI (herror _)
  · split
    · exact Fallible.ensures_throw hI (herror _)
    · exact Fallible.ensures_pure hI hok

omit [DecidableEq Name] in
private theorem Kernel.target_of_dirOf {r : Root} {d : Desc} {dir : PathBuf}
    (hdir : dirOf r d = .ok dir)
    (path : PathBuf) :
    K.target w r d path = Fallible.eval (K.os w) (resolve r dir path) := by
  rw [Kernel.target, resolveAt, eval_withPath, hdir, Roc.Try.ok_bind]
  cases Fallible.eval (K.os w) (resolve r dir path) <;> rfl

/-- An operation on two paths that does not get to its body fails and changes nothing. -/
theorem ensures_resolved {r : Root} {sd dd : Desc} {sp dp : PathBuf}
    {body : Target → Target → Sys Unit} {Q : Except IOErr Unit → World Name → Prop}
    (hI : I w) (herror : ∀ e, Q (.error e) w)
    (hbody : ∀ src dst, K.target w r sd sp = .ok src → K.target w r dd dp = .ok dst →
      Fallible.Ensures K.alone I (fun result w' => Q (result.mapError ioerr) w')
        (body src dst) w) :
    Fallible.Ensures K.alone I Q (unit do
      let srcDir ← Sys.ofExcept (dirOf r sd)
      let dstDir ← Sys.ofExcept (dirOf r dd)
      let src ← resolve r srcDir sp
      let dst ← resolve r dstDir dp
      body src dst) w := by
  refine ensures_dirUnit (Fallible.ensures_bind ⟨hI, ?_⟩)
  cases hsrcDir : dirOf r sd with
  | error e => exact herror _
  | ok srcDir =>
    refine Fallible.ensures_bind ⟨hI, ?_⟩
    cases hdstDir : dirOf r dd with
    | error e => exact herror _
    | ok dstDir =>
      refine Fallible.ensures_bind (ensures_resolve hI ?_)
      cases hsrc : Fallible.eval (K.os w) (resolve r srcDir sp) with
      | error e => exact herror _
      | ok src =>
        refine Fallible.ensures_bind (ensures_resolve hI ?_)
        cases hdst : Fallible.eval (K.os w) (resolve r dstDir dp) with
        | error e => exact herror _
        | ok dst =>
          exact hbody src dst ((Kernel.target_of_dirOf hsrcDir sp).trans hsrc)
            ((Kernel.target_of_dirOf hdstDir dp).trans hdst)

/-- An operation on two resolved paths is atomic when what it does with them is. -/
theorem atomic_of_ensures {r : Root} {sd dd : Desc} {sp dp : PathBuf} {named : Target → Target}
    {body : Target → Target → Sys Unit} {limit : World Name → Target → UInt32}
    {Copied : Target → Target → World Name → World Name → Prop} (hw : w₀.Start)
    (hbody : ∀ src dst, Fallible.Ensures K.alone (Safe w₀ (limit w₀ src))
      (fun result w => match result with
        | .ok _ => Copied src (named dst) w₀ w
        | .error _ => Untouched w₀ w) (body src dst) w₀)
    (hnew : ∀ src tg w, Copied src tg w₀ w → K.lstat w₀ tg = none) :
    Atomic K w₀ (unit do
      let srcDir ← Sys.ofExcept (dirOf r sd)
      let dstDir ← Sys.ofExcept (dirOf r dd)
      let src ← resolve r srcDir sp
      let dst ← resolve r dstDir dp
      body src dst) (K.target w₀ r sd sp) ((K.target w₀ r dd dp).map named) limit Copied := by
  let I : World Name → Prop := fun w =>
    Kept w₀ w ∧ ∀ tg, K.target w₀ r sd sp = .ok tg → Safe w₀ (limit w₀ tg) w
  let Q : Except IOErr Unit → World Name → Prop := fun result w => match result with
    | .ok _ => ∃ tg tg', K.target w₀ r sd sp = .ok tg ∧ (K.target w₀ r dd dp).map named = .ok tg' ∧
        Copied tg tg' w₀ w
    | .error _ => Untouched w₀ w
  have hrefl := Untouched.refl w₀
  have hI : I w₀ := ⟨hrefl.kept, fun _ _ => hrefl.safe hw.made⟩
  have hensures : Fallible.Ensures K.alone I Q (unit do
      let srcDir ← Sys.ofExcept (dirOf r sd)
      let dstDir ← Sys.ofExcept (dirOf r dd)
      let src ← resolve r srcDir sp
      let dst ← resolve r dstDir dp
      body src dst) w₀ := by
    refine ensures_resolved hI (fun _ => hrefl) fun src dst hsrc hdst => ?_
    refine ((hbody src dst).weaken (J := I) fun w hsafe => ⟨hsafe.toKept, ?_⟩).mono ?_
    · intro tg htg
      obtain rfl : src = tg := Except.ok.inj (hsrc.symm.trans htg)
      exact hsafe
    · intro result w _ hresult
      cases result with
      | error e => exact hresult
      | ok _ => exact ⟨src, named dst, hsrc, by rw [hdst]; rfl, hresult⟩
  refine ⟨fun p w hrun => ?_, fun p w tg hrun hsrc => ?_, fun e w hrun => ?_, fun w hrun => ?_,
    fun tg' id hdst hid w hrun => ?_⟩
  · exact (Program.Ensures.reaches (alone_alone K) hensures hrun).invariant.1
  · exact ((Program.Ensures.reaches (alone_alone K) hensures hrun).invariant.2 tg hsrc).within
  · exact (Program.Ensures.reaches (alone_alone K) hensures hrun).2
  · exact (Program.Ensures.reaches (alone_alone K) hensures hrun).2
  · obtain ⟨src, dst, -, hdst', hcopied⟩ :=
      (Program.Ensures.reaches (alone_alone K) hensures hrun).2
    obtain rfl : tg' = dst := Except.ok.inj (hdst.symm.trans hdst')
    exact absurd ((hnew src tg' w hcopied).symm.trans hid) (by simp)

/-- With nobody else acting, and whichever of their calls fail but those of the cleanup, a file copy
and a directory copy are atomic, and their new object is at every step at most as open as in the
end. -/
theorem copyAt_atomic (hK : K.CleanupSucceeds) (hw : w₀.Start) (r : Root) (sd : Desc)
    (sp : PathBuf) (dd : Desc) (dp : PathBuf) :
    Atomic K w₀ (copyFileAt r sd sp dd dp) (K.target w₀ r sd sp) (K.target w₀ r dd dp)
        K.fileLimit (FileCopied K) ∧
      Atomic K w₀ (copyDirAt r sd sp dd dp) (K.target w₀ r sd sp)
        ((K.target w₀ r dd dp).map newName) K.dirLimit (DirCopied K) := by
  constructor
  · have hmap : (K.target w₀ r dd dp).map id = K.target w₀ r dd dp := by
      cases K.target w₀ r dd dp <;> rfl
    rw [← hmap]
    refine atomic_of_ensures hw ?_ ?_
    · intro src dst
      have hrefl := Untouched.refl w₀
      exact Fallible.ensures_bind (ensures_refuseDirectoryName (hrefl.safe hw.made) (fun _ => hrefl)
        (ensures_copyFile hK hw src dst))
    · rintro src tg w ⟨id, n, o, -, -, hentry, hmade, -⟩
      exact hmade.lstat_before hentry
  · refine atomic_of_ensures hw (ensures_copyDir hK hw) ?_
    rintro src tg w ⟨id, n, o, -, -, hentry, hmade, -⟩
    exact hmade.lstat_before hentry

/-- `flatKernel`, on which no mode may be changed. -/
def fixedModeKernel : Kernel PathBuf :=
  { flatKernel with
    mayFail := fun c _ => match c with
      | .setPermissions _ _ => True
      | _ => False }

/-- `/s` copied to `/d` where the mode cannot be set: the new directory is removed again. -/
theorem copyAt_atomic_fixedMode :
    Untouched flatWorld
      (((flatWorld.make [47, 100] ⟨.directory, [], 0o700, 0, 1⟩).openHandle 1).remove
        [47, 100] 1) := by
  have hcleanup : fixedModeKernel.CleanupSucceeds :=
    ⟨fun _ _ _ _ _ h => h, fun _ _ _ _ _ _ _ => ⟨fun h => h, fun h => h, fun h => h⟩⟩
  have hstat : fixedModeKernel.alone.perform (.symlinkMetadata (.ambient [47, 115])) flatWorld
      (.ok ⟨true, false, false, 0o040755, 0, 0⟩) flatWorld := ⟨0, rfl, rfl, rfl⟩
  have hmkdir : fixedModeKernel.alone.perform (.createDir (.ambient [47, 100]) 0o700) flatWorld
      (.ok ()) (flatWorld.make [47, 100] ⟨.directory, [], 0o700, 0, 1⟩) :=
    ⟨[47, 100], 0, 1, rfl, rfl, rfl⟩
  have hopen : fixedModeKernel.alone.perform (.openDirectory (.ambient [47, 100]) false)
      (flatWorld.make [47, 100] ⟨.directory, [], 0o700, 0, 1⟩) (.ok (3 : Nat))
      ((flatWorld.make [47, 100] ⟨.directory, [], 0o700, 0, 1⟩).openHandle 1) :=
    ⟨1, rfl, rfl, rfl, rfl⟩
  have hchmod : fixedModeKernel.alone.perform (.setPermissions (3 : Nat) 0o755)
      ((flatWorld.make [47, 100] ⟨.directory, [], 0o700, 0, 1⟩).openHandle 1)
      (.error ⟨.permissionDenied, ""⟩)
      ((flatWorld.make [47, 100] ⟨.directory, [], 0o700, 0, 1⟩).openHandle 1) :=
    ⟨.inl trivial, rfl⟩
  have hrmdir : fixedModeKernel.alone.perform (.removeDir (.ambient [47, 100]))
      ((flatWorld.make [47, 100] ⟨.directory, [], 0o700, 0, 1⟩).openHandle 1) (.ok ())
      (((flatWorld.make [47, 100] ⟨.directory, [], 0o700, 0, 1⟩).openHandle 1).remove
        [47, 100] 1) :=
    ⟨[47, 100], 1, rfl, rfl, rfl, rfl⟩
  refine (copyAt_atomic hcleanup start_flatWorld (.unconfined ⟨[47], by decide⟩) .root
    [47, 115] .root
    [47, 100]).2.failed .permissionDenied _ ?_
  rw [copyDirAt_ambient (by decide) (by decide)]
  exact .head (Step.call hstat) (.head (Step.call hmkdir) (.head (Step.call hopen)
    (.head (Step.call hchmod) (.head (Step.call hrmdir) .refl))))

end TrantorCli.FsCore
