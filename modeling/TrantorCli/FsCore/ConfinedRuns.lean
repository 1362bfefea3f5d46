import TrantorCli.FsCore.Containment
import TrantorCli.Lib.Interaction.Determined

/-!
# What an app on a confined filesystem acts on and can tell

Each operation acts beneath the confined root, and so does every run of an app, from
finding the root on. So nothing outside the root is changed by a run, and what a run
ends in does not depend on it.
-/

open Interaction UnixPath

namespace TrantorCli.FsCore

variable {held : Handle → Prop} {opened : Except IoError PlainPath} {d : Desc} {path : PathBuf}
  {ε α β : Type}

/-! ### Operations on names -/

private theorem contained_lift {Q : α → Prop} {p : Fallible Call Answer ε α}
    (h : Contained held Q p) :
    PathContained held Q (Sys.lift p) :=
  Program.Relying.interp h fun _ hc => Program.relying_ask hc fun _ hanswer => hanswer

/-- A result as it is reported. -/
theorem contained_mapped {p : Sys α} (h : Contained held (fun _ => True) p)
    (f : Except IoError α → Except ε β) :
    Contained held (fun _ => True) (ExceptT.mk (p.run >>= fun result => pure (f result))) :=
  Program.Relying.bind h fun _ _ _ _ => trivial

private theorem contained_reported {p : PathSys α} (h : PathContained held (fun _ => True) p) :
    PathContained held (fun _ => True) (reported p) :=
  Program.Relying.bind h fun _ _ _ _ => trivial

private theorem contained_atPath {Q : α → Prop} {f : Target → PathSys α}
    (hf : ∀ rel, PathContained held Q (f (.beneath rel))) :
    PathContained held Q (atPath (.confined opened) d path f) := by
  have hresolve : Contained held Target.IsBeneath (resolveAt (.confined opened) d path) :=
    contained_withPath fun _ => Fallible.relying_pure trivial
  apply Fallible.relying_bind (contained_lift hresolve)
  rintro (tg | rel) htg
  · exact absurd htg id
  · exact hf rel

private theorem contained_atTwo {a b : PathBuf} {f : Target → Target → PathSys Unit}
    (hf : ∀ relA relB, PathContained held (fun _ => True) (f (.beneath relA) (.beneath relB))) :
    PathContained held (fun _ => True) (atTwo (.confined opened) d a b f) := by
  apply contained_reported
  apply Fallible.relying_bind (contained_lift (contained_ofExcept fun _ _ => trivial))
  intro dir _
  apply Fallible.relying_bind (contained_lift (contained_resolve dir))
  rintro (tg | relA) htg
  · exact absurd htg id
  apply Fallible.relying_bind (contained_lift (contained_resolve dir))
  rintro (tg | relB) htg
  · exact absurd htg id
  exact hf relA relB

private theorem contained_twoPaths {sd dd : Desc} {sp dp : PathBuf} {f : Target → Target → Sys Unit}
    (hf : ∀ src dst, Contained held (fun _ => True) (f (.beneath src) (.beneath dst))) :
    Contained held (fun _ => True) (do
      let srcDir ← Sys.ofExcept (dirOf (.confined opened) sd)
      let dstDir ← Sys.ofExcept (dirOf (.confined opened) dd)
      let src ← resolve (.confined opened) srcDir sp
      let dst ← resolve (.confined opened) dstDir dp
      f src dst) := by
  apply Fallible.relying_bind (contained_ofExcept fun _ _ => trivial)
  intro srcDir _
  apply Fallible.relying_bind (contained_ofExcept fun _ _ => trivial)
  intro dstDir _
  apply Fallible.relying_bind (contained_resolve srcDir)
  rintro (tg | src) htg
  · exact absurd htg id
  apply Fallible.relying_bind (contained_resolve dstDir)
  rintro (tg | dst) htg
  · exact absurd htg id
  exact hf src dst

/-- The source of a rename is looked at and kept. -/
theorem contained_renamedSource (rel : PathBuf) (destinationNamesDirectory : Bool) :
    Contained held Target.IsBeneath (renamedSource (.beneath rel) destinationNamesDirectory) := by
  unfold renamedSource
  split
  · exact Fallible.relying_pure trivial
  · apply Fallible.relying_bind (contained_metadataAsNamed rel)
    rintro ⟨isDir, mode⟩ _
    simp only
    split
    · exact Fallible.relying_pure trivial
    · exact Fallible.relying_throw _

private theorem contained_targetInside (link contents : PathBuf) :
    Contained held (fun _ => True) (targetInside link contents) :=
  Fallible.relying_bind (contained_metadata _) fun _ _ => Fallible.relying_pure trivial

private theorem contained_linkStaysInside (src dst : PathBuf) :
    PathContained held (fun _ => True) (linkStaysInside src dst) := by
  apply Fallible.relying_bind (Q := fun _ => True)
  · apply contained_lift
    apply contained_ofProgram
    apply Program.Relying.bind (contained_symlinkMetadata src)
    rintro (e | m) _ <;> trivial
  intro isSymlink _
  split
  · exact Fallible.relying_pure trivial
  · apply Fallible.relying_bind (Q := fun _ => True)
    · exact Fallible.relying_ask trivial fun _ _ => trivial
    intro contents _
    split
    · exact Fallible.relying_pure trivial
    · apply Fallible.relying_bind (Q := fun _ => True)
      · exact Program.Relying.bind (contained_lift (contained_targetInside dst contents))
          fun _ _ _ _ => trivial
      rintro (e | _) _
      · exact Fallible.relying_throw _
      · exact Fallible.relying_pure trivial

/-! ### Every operation -/

section Operations

variable (d path)

private theorem contained_readFileAt :
    PathContained held (fun _ => True) (readFileAt (.confined opened) d path) :=
  contained_reported (contained_atPath fun _ => Fallible.relying_ask trivial fun _ _ => trivial)

private theorem contained_writeFileAt (data : List UInt8) :
    PathContained held (fun _ => True) (writeFileAt (.confined opened) d path data) := by
  apply contained_reported
  apply contained_atPath
  intro rel
  apply Fallible.relying_bind (contained_lift (contained_refuseDirectoryName rel))
  exact fun _ _ => Fallible.relying_ask trivial fun _ _ => trivial

private theorem contained_statAt (follow : Bool) :
    Contained held (fun _ => True) (statAt (.confined opened) d path follow) :=
  contained_mapped (contained_withPath fun rel => contained_statOf rel follow) _

private theorem contained_metadataHashAt (half : (UInt64 × UInt64) × UInt64 → UInt64)
    (follow : Bool) :
    Contained held (fun _ => True) (metadataHashAt half (.confined opened) d path follow) :=
  contained_mapped (contained_withPath fun rel => contained_identityOf rel follow) _

private theorem contained_readDirAt :
    PathContained held (fun _ => True) (readDirAt (.confined opened) d path) := by
  apply contained_reported
  apply contained_atPath
  intro rel
  apply Fallible.relying_bind (Q := fun _ => True)
  · exact Fallible.relying_ask trivial fun _ _ => trivial
  intro found _
  apply Fallible.relying_bind (Q := fun _ => True)
  · exact fun _ _ => trivial
  · exact fun _ _ => Fallible.relying_pure trivial

/-- What is done at a name whose slashes are taken off beneath the root. -/
theorem contained_named {f : Target → Sys Target} {g : Target → Sys Unit}
    (hf : ∀ rel, Contained held Target.IsBeneath (f (.beneath rel)))
    (hg : ∀ rel, Contained held (fun _ => True) (g (.beneath rel))) :
    Contained held (fun _ => True) (withPath (.confined opened) d path fun tg => f tg >>= g) := by
  apply contained_withPath
  intro rel
  apply Fallible.relying_bind (hf rel)
  rintro (named | named) hnamed
  · exact absurd hnamed id
  · exact hg named

private theorem contained_createDirAt (mode : UInt32) :
    Contained held (fun _ => True) (createDirAt (.confined opened) d path mode) :=
  contained_mapped (contained_named d path contained_newDirectoryName fun _ =>
    Fallible.relying_ask trivial fun _ _ => trivial) _

private theorem contained_createDirAllAt :
    PathContained held (fun _ => True) (createDirAllAt (.confined opened) d path) := by
  apply contained_reported
  apply contained_atPath
  intro rel
  apply Fallible.relying_bind (contained_lift (contained_isDirectoryAlready rel))
  rintro (_ | _) _
  · apply Fallible.relying_bind (contained_lift (contained_newDirectoryName rel))
    rintro (named | named) hnamed
    · exact absurd hnamed id
    · exact Fallible.relying_ask trivial fun _ _ => trivial
  · exact Fallible.relying_pure trivial

private theorem contained_removeDirAt :
    Contained held (fun _ => True) (removeDirAt (.confined opened) d path) :=
  contained_mapped (contained_named d path contained_existingDirectoryName fun _ =>
    Fallible.relying_ask trivial fun _ _ => trivial) _

private theorem contained_removeDirAllAt :
    Contained held (fun _ => True) (removeDirAllAt (.confined opened) d path) := by
  apply contained_mapped
  apply contained_withPath
  intro rel
  apply Fallible.relying_bind (contained_ofExcept fun _ _ => trivial)
  intro _ _
  apply Fallible.relying_bind (contained_ofExcept fun _ _ => trivial)
  intro _ _
  apply Fallible.relying_bind (contained_existingDirectoryName rel)
  rintro (named | named) hnamed
  · exact absurd hnamed id
  · exact Fallible.relying_ask trivial fun _ _ => trivial

private theorem contained_unlinkAt :
    Contained held (fun _ => True) (unlinkAt (.confined opened) d path) :=
  contained_mapped (contained_withPath fun _ => Fallible.relying_ask trivial fun _ _ => trivial) _

private theorem contained_readlinkAt :
    PathContained held (fun _ => True) (readlinkAt (.confined opened) d path) :=
  contained_reported (contained_atPath fun _ => Fallible.relying_ask trivial fun _ _ => trivial)

private theorem contained_openAt (flags : OpenFlags) :
    Contained held (fun _ => True) (openAt (.confined opened) d path flags) := by
  apply contained_mapped
  apply contained_withPath
  intro rel
  split
  · exact contained_openDir rel flags.followSymlinks
  · exact contained_openNonDirectory rel flags

private theorem contained_symlinkAt (target : PathBuf) :
    PathContained held (fun _ => True) (symlinkAt (.confined opened) d target path) := by
  apply contained_reported
  apply contained_atPath
  intro rel
  split
  · exact Fallible.relying_throw _
  · apply Fallible.relying_bind (contained_lift (contained_refuseDirectoryName rel))
    intro _ _
    apply Fallible.relying_bind (contained_lift (contained_targetInside rel target))
    exact fun _ _ => Fallible.relying_ask trivial fun _ _ => trivial

private theorem contained_renameAt (a b : PathBuf) :
    PathContained held (fun _ => True) (renameAt (.confined opened) d a b) := by
  apply contained_atTwo
  intro relA relB
  apply Fallible.relying_bind (contained_lift (contained_renamedSource relA _))
  rintro (named | named) hnamed
  · exact absurd hnamed id
  · apply Fallible.relying_bind (contained_linkStaysInside named relB)
    exact fun _ _ => Fallible.relying_ask ⟨trivial, trivial⟩ fun _ _ => trivial

private theorem contained_linkAt (a b : PathBuf) :
    PathContained held (fun _ => True) (linkAt (.confined opened) d a b) := by
  apply contained_atTwo
  intro relA relB
  split
  · exact Fallible.relying_throw _
  · apply Fallible.relying_bind (contained_linkStaysInside relA relB)
    exact fun _ _ => Fallible.relying_ask ⟨trivial, trivial⟩ fun _ _ => trivial

private theorem contained_copyFileAt (sd : Desc) (sp : PathBuf) (dd : Desc) (dp : PathBuf) :
    Contained held (fun _ => True) (copyFileAt (.confined opened) sd sp dd dp) := by
  apply contained_mapped
  apply contained_twoPaths
  intro src dst
  apply Fallible.relying_bind (contained_refuseDirectoryName dst)
  exact fun _ _ => contained_copyFile src dst

private theorem contained_copyDirAt (sd : Desc) (sp : PathBuf) (dd : Desc) (dp : PathBuf) :
    Contained held (fun _ => True) (copyDirAt (.confined opened) sd sp dd dp) :=
  contained_mapped (contained_twoPaths contained_copyDir) _

end Operations

/-- An operation on a confined root, found or not, acts beneath it and on what it opens there. -/
theorem AtOp.contained_perform (half : (UInt64 × UInt64) × UInt64 → UInt64)
    (opened : Except IoError PlainPath) (op : AtOp) :
    (op.perform half (.confined opened)).Relying (PathCall.Hands held) (PathCall.Contained held)
      fun _ => True := by
  cases op with
  | readFile d path => exact (contained_readFileAt d path).run
  | writeFile d path data => exact (contained_writeFileAt d path data).run
  | stat d path follow => exact (contained_lift (contained_statAt d path follow)).run
  | metadataHash d path follow =>
    exact (contained_lift (contained_metadataHashAt d path half follow)).run
  | readDir d path => exact (contained_readDirAt d path).run
  | createDir d path mode => exact (contained_lift (contained_createDirAt d path mode)).run
  | createDirAll d path => exact (contained_createDirAllAt d path).run
  | removeDir d path => exact (contained_lift (contained_removeDirAt d path)).run
  | removeDirAll d path => exact (contained_lift (contained_removeDirAllAt d path)).run
  | unlink d path => exact (contained_lift (contained_unlinkAt d path)).run
  | readlink d path => exact (contained_readlinkAt d path).run
  | openFile d path flags => exact (contained_lift (contained_openAt d path flags)).run
  | symlink d target path => exact (contained_symlinkAt d path target).run
  | rename d a b => exact (contained_renameAt d a b).run
  | link d a b => exact (contained_linkAt d a b).run
  | copyFile sd sp dd dp => exact (contained_lift (contained_copyFileAt sd sp dd dp)).run
  | copyDir sd sp dd dp => exact (contained_lift (contained_copyDirAt sd sp dd dp)).run

/-! ### Whole runs -/

private theorem knowing_init (known : Told RootCall RootAnswer → Prop) :
    Confinement.init.Knowing RootCall.Contained known := by
  have hopen : Fallible.Relying (fun c answer => known ⟨c, answer⟩) (RootCall.Contained known)
      (fun _ => True) Confinement.open' := by
    apply Fallible.relying_bind (Q := fun base => known ⟨.currentDir, Except.ok base⟩)
    · exact Fallible.relying_ask trivial fun _ hbase => hbase
    intro base hbase
    apply Fallible.relying_bind (Q := fun _ => True)
    · exact Fallible.relying_ask hbase fun _ _ => trivial
    · exact fun _ _ => Fallible.relying_pure trivial
  exact Program.Relying.bind hopen fun _ _ => trivial

/-- The operation on a root that may still have to be found. -/
theorem AtOp.knowing_performAsking (half : (UInt64 × UInt64) × UInt64 → UInt64)
    (known : Told RootCall RootAnswer → Prop) (op : AtOp) :
    (op.performAsking half).Relying (Program.AskingRelies fun c answer => known ⟨c, answer⟩)
      (Asking.Owns (RootCall.Contained known)) fun _ => True := by
  have howned : ∀ opened : Except IoError PlainPath,
      (((op.perform half (.confined opened)).interp pathHandler).interp owned).Relying
        (Program.AskingRelies (V := Except Failed Opened) fun c answer => known ⟨c, answer⟩)
        (Asking.Owns (RootCall.Contained known)) fun _ => True := by
    intro opened
    have hpaths : ((op.perform half (.confined opened)).interp pathHandler).Knowing
        RootCall.Contained known := by
      have hop : (op.perform half (.confined opened)).Relying (PathCall.Hands (HeldBy known))
          (PathCall.Contained (HeldBy known)) fun _ => True := op.contained_perform half opened
      apply hop.interp
      intro c hc
      apply Program.relying_ask (c := RootCall.path c) hc
      intro answer hanswer file hfile
      exact ⟨c, answer, hanswer, hfile⟩
    apply hpaths.interp
    exact fun c hc => Program.relying_ask hc fun _ hanswer => hanswer
  unfold performAsking
  split
  · exact ⟨trivial, fun kept _ => howned _⟩
  · next hasks =>
    rw [perform_of_not_asksRoot (by simpa using hasks) _ (.ofKept (.error ⟨.other, ""⟩))]
    exact howned _

private theorem knowing_confinedRun {α : Type} (half : (UInt64 × UInt64) × UInt64 → UInt64)
    (app : Program AtOp AtOp.Outcome α) (known : Told RootCall RootAnswer → Prop) :
    (confinedRun half app).Knowing RootCall.Contained known := by
  have hasking : (app.interp (AtOp.performAsking half)).Relying
      (Program.AskingRelies fun c answer => known ⟨c, answer⟩)
      (Asking.Owns (RootCall.Contained known)) fun _ => True := by
    induction app with
    | done a => trivial
    | call op next ih =>
      exact (op.knowing_performAsking half known).bind fun outcome _ => ih outcome
  exact hasking.once (knowing_init known) none

/-- Whatever an app does, whatever it is told and whatever others do in between, each call that it
makes finds the root, looks up a canonical path, acts beneath the root, or acts on files that it was
handed when it opened a name beneath the root in this very run. -/
theorem confined_acts_beneath {σ α : Type} (half : (UInt64 × UInt64) × UInt64 → UInt64)
    (S : System RootCall RootAnswer σ) (app : Program AtOp AtOp.Outcome α) {s t : σ}
    {told : List (Told RootCall RootAnswer)} {c : RootCall}
    {next : RootAnswer c → Program RootCall RootAnswer (α × Option (Except Failed Opened))}
    (hrun : Reaches S.traced (confinedRun half app, (s, [])) (.call c next, (t, told))) :
    c.Contained (· ∈ told) :=
  Program.Knowing.next (knowing_confinedRun half app) hrun

/-- A root at `/` with a file in it, and room for another. -/
def copyAnswer : ∀ c : RootCall, RootAnswer c
  | .currentDir => .ok .slash
  | .openAmbientDir _ => .ok (3 : Nat)
  | .path (.sys (.openRead _)) => .ok (4 : Nat)
  | .path (.sys (.fileMetadata _)) => .ok ⟨false, true, false, 0o644, 0, 0⟩
  | .path (.sys (.createNew _ _)) => .ok (5 : Nat)
  | .path _ => .error ⟨.notFound, "absent"⟩

/-- The system that answers so. -/
def copySystem : System RootCall RootAnswer Unit where
  perform c _ answer _ := answer = copyAnswer c
  others _ _ := False

/-- What a copy of `a` to `b` is told before it copies. -/
def copyTold : List (Told RootCall RootAnswer) :=
  [.path (.sys (.createNew (.beneath [98]) 0o644)), .path (.sys (.fileMetadata 4)),
    .path (.sys (.openRead (.beneath [97]))), .openAmbientDir .slash,
    .currentDir].map fun c => ⟨c, copyAnswer c⟩

/-- A copy moves bytes between the two files that it opened beneath the root. -/
theorem confined_acts_beneath_copy :
    RootCall.Contained (· ∈ copyTold) (.path (.sys (.copyData 4 5))) := by
  have htold (c : RootCall) (told : List (Told RootCall RootAnswer)) :
      copySystem.traced.perform c ((), told) (copyAnswer c) ((), ⟨c, copyAnswer c⟩ :: told) :=
    ⟨rfl, rfl⟩
  have hrun : Reaches copySystem.traced
      (confinedRun (fun _ => 0) (Program.ask (AtOp.copyFile .root [97] .root [98])), ((), []))
      (.call (.path (.sys (.copyData 4 5))) _, ((), copyTold)) :=
    .head (.call (htold .currentDir _)) (.head (.call (htold (.openAmbientDir _) _))
      (.head (.call (htold (.path (.sys (.openRead _))) _))
      (.head (.call (htold (.path (.sys (.fileMetadata _))) _))
      (.single (.call (htold (.path (.sys (.createNew _ _))) _))))))
  exact confined_acts_beneath (fun _ => 0) copySystem _ hrun

/-- On two filesystems that are alike beneath the root, and in their canonical paths, an app does
the same and ends in the same: what else there is outside the root it cannot tell. -/
theorem outside_is_unseen {σ σ' α : Type} (half : (UInt64 × UInt64) × UInt64 → UInt64)
    {S : System RootCall RootAnswer σ} {S' : System RootCall RootAnswer σ'}
    {alike : List (Told RootCall RootAnswer) → σ → σ' → Prop}
    (halike : AlikeFor RootCall.Contained S S' alike) (app : Program AtOp AtOp.Outcome α) {s t : σ}
    {s' : σ'} {q : Program RootCall RootAnswer (α × Option (Except Failed Opened))}
    (hs : alike [] s s') (hrun : Reaches S (confinedRun half app, s) (q, t)) :
    ∃ told t', Reaches S' (confinedRun half app, s') (q, t') ∧ alike told t t' :=
  Program.Knowing.reaches_alike halike (knowing_confinedRun half app) hs hrun

private theorem isAbsolute_underR : isAbsolute [47, 114] = true := rfl

private theorem plain_underR : Component.parentDir ∉ body [47, 114] := by decide

/-- `/r` -/
def underR : PlainPath := ⟨⟨[47, 114], isAbsolute_underR⟩, plain_underR⟩

/-- The root is `/r`, with a file `a` in it; every file outside holds `secret`. -/
def secretAnswer (secret : List UInt8) : ∀ c : RootCall, RootAnswer c
  | .currentDir => .ok underR
  | .openAmbientDir _ => .ok (3 : Nat)
  | .path (.sys (.canonicalize path)) =>
    if path = underR.bytes then .ok underR else .error ⟨.notFound, "absent"⟩
  | .path (.readFile (.beneath path)) =>
    if path = [97] then .ok [5] else .error ⟨.notFound, "absent"⟩
  | .path (.readFile (.ambient _)) => .ok secret
  | .path _ => .error ⟨.notFound, "absent"⟩

private theorem secretAnswer_of_contained {known : Told RootCall RootAnswer → Prop} {c : RootCall}
    (hc : c.Contained known) (secret secret' : List UInt8) :
    secretAnswer secret c = secretAnswer secret' c := by
  unfold secretAnswer
  split
  case h_5 => exact absurd hc id
  all_goals rfl

/-- The system that answers so; the state is the secret. -/
def secretSystem : System RootCall RootAnswer (List UInt8) :=
  System.determined (fun c secret => (secretAnswer secret c, secret)) fun _ _ => False

/-- `/r/a` is read, then `/s`. -/
def readsBoth : Program AtOp AtOp.Outcome
    (Except IOErr (List UInt8) × Except IOErr (List UInt8)) :=
  .call (.readFile .root [47, 114, 47, 97]) fun inside =>
    .call (.readFile .root [47, 115]) fun outside => .done (inside, outside)

/-- Whatever the files outside hold, what is inside is read, and what is not is refused. -/
theorem outside_is_unseen_secret :
    ∃ t, Reaches secretSystem (confinedRun (fun _ => 0) readsBoth, [2])
      (.done ((.ok [5], .error .permissionDenied), some (.ok ⟨underR, 3⟩)), t) := by
  have halike : AlikeFor RootCall.Contained secretSystem secretSystem fun _ _ _ => True := by
    constructor
    · rintro told c s s' _ t hc - ⟨rfl, rfl⟩
      exact ⟨s', ⟨secretAnswer_of_contained hc _ _, rfl⟩, trivial⟩
    · rintro told s s' t - ⟨⟩
  have hrun : Reaches secretSystem (confinedRun (fun _ => 0) readsBoth, [1])
      (.done ((.ok [5], .error .permissionDenied), some (.ok ⟨underR, 3⟩)), [1]) :=
    Program.reaches_outcome (S := secretSystem) (fun _ _ => ⟨rfl, rfl⟩) _ [1]
  obtain ⟨-, t, hmatched, -⟩ := outside_is_unseen (fun _ => 0) halike _ trivial hrun
  exact ⟨t, hmatched⟩

end TrantorCli.FsCore
