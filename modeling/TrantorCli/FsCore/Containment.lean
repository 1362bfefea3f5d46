import TrantorCli.FsCore.Confinement
import TrantorCli.FsCore.Relink
import TrantorCli.Lib.Interaction.Traced

/-!
# What a confined filesystem acts on

Whatever the system answers, and whatever others do in between, an operation on a
confined root acts on names beneath the root and on files it was handed when it
opened such a name. Of everything else it asks at most for canonical paths.
-/

open Interaction UnixPath

namespace TrantorCli.FsCore

/-- The name is taken from the handle of the confined root. -/
def Target.IsBeneath : Target → Prop
  | .beneath _ => True
  | .ambient _ => False

/-- The call looks up a canonical path, or acts beneath the root or on a file that is held. -/
def Call.Contained (held : Handle → Prop) : Call → Prop
  | .canonicalize _ => True
  | .metadata tg | .symlinkMetadata tg | .openDirectory tg _ | .openFile tg _ | .openRead tg
  | .createNew tg _ | .createDir tg _ | .removeDir tg | .removeDirAll tg | .removeFile tg =>
    tg.IsBeneath
  | .fileMetadata file | .setPermissions file _ => held file
  | .copyData src dst => held src ∧ held dst

/-- The call was answered with an open file. -/
def Call.Opens : ∀ c : Call, Answer c → Handle → Prop
  | .openDirectory _ _, answer, file | .openFile _ _, answer, file | .openRead _, answer, file
  | .createNew _ _, answer, file => answer = Except.ok file
  | .canonicalize _, _, _ | .metadata _, _, _ | .symlinkMetadata _, _, _ | .createDir _ _, _, _
  | .removeDir _, _, _ | .removeDirAll _, _, _ | .removeFile _, _, _ | .fileMetadata _, _, _
  | .copyData _ _, _, _ | .setPermissions _ _, _, _ => False

/-- A file that the call opens is held from then on. -/
def Call.Hands (held : Handle → Prop) (c : Call) (answer : Answer c) : Prop :=
  ∀ file, c.Opens answer file → held file

/-- The same of the calls of the operations on names. -/
def PathCall.Contained (held : Handle → Prop) : PathCall → Prop
  | .sys c => c.Contained held
  | .readFile tg | .writeFile tg _ | .readDir tg | .createDirAll tg | .symlink _ tg
  | .readLink tg =>
    tg.IsBeneath
  | .rename src dst | .hardLink src dst => src.IsBeneath ∧ dst.IsBeneath

/-- The same of a call on names. -/
def PathCall.Opens : ∀ c : PathCall, PathAnswer c → Handle → Prop
  | .sys c, answer, file => c.Opens answer file
  | .readFile _, _, _ | .writeFile _ _, _, _ | .readDir _, _, _ | .createDirAll _, _, _
  | .rename _ _, _, _ | .hardLink _ _, _, _ | .symlink _ _, _, _ | .readLink _, _, _ => False

/-- A file that the call on a name opens is held from then on. -/
def PathCall.Hands (held : Handle → Prop) (c : PathCall) (answer : PathAnswer c) : Prop :=
  ∀ file, c.Opens answer file → held file

/-- The files that were opened, by what is known of the answers. -/
def HeldBy (known : Told RootCall RootAnswer → Prop) (file : Handle) : Prop :=
  ∃ c answer, known ⟨.path c, answer⟩ ∧ c.Opens answer file

/-- The call finds the root, or is one of an operation, by what is known of the answers. -/
def RootCall.Contained (known : Told RootCall RootAnswer → Prop) : RootCall → Prop
  | .currentDir => True
  | .openAmbientDir base => known ⟨.currentDir, Except.ok base⟩
  | .path c => c.Contained (HeldBy known)

/-- The program acts only beneath the root and on what it was handed. -/
abbrev Contained {ε α : Type} (held : Handle → Prop) (Q : α → Prop) (p : Fallible Call Answer ε α) :
    Prop := Fallible.Relying (Call.Hands held) (Call.Contained held) Q p

/-- The same of a program on names. -/
abbrev PathContained {ε α : Type} (held : Handle → Prop) (Q : α → Prop)
    (p : Fallible PathCall PathAnswer ε α) : Prop :=
  Fallible.Relying (PathCall.Hands held) (PathCall.Contained held) Q p

variable {held : Handle → Prop} {opened : Except IoError PlainPath} {d : Desc} {path : PathBuf}
  {ε α β : Type}

/-! ### Resolving -/

/-- A result at hand is what is required of it. -/
theorem contained_ofExcept {Q : α → Prop} {result : Except IoError α}
    (h : ∀ a, result = .ok a → Q a) :
    Contained held Q (Sys.ofExcept result) := h

/-- A program whose result is no error keeps to what it kept to. -/
theorem contained_ofProgram {Q : α → Prop} {p : Program Call Answer α}
    (h : p.Relying (Call.Hands held) (Call.Contained held) Q) :
    Contained held Q (Sys.ofProgram p) := by
  apply Program.Relying.bind h
  rintro a ha _ ⟨⟩
  exact ha

/-- What a program that may fail ends in, its errors included. -/
theorem contained_tried {p : Sys α} (h : Contained held (fun _ => True) p) :
    Contained held (fun _ => True) (Sys.ofProgram p.run) :=
  contained_ofProgram h.run

/-- What a path resolves to on a confined root is beneath it. -/
theorem contained_resolve (dir : PathBuf) :
    Contained held Target.IsBeneath (resolve (.confined opened) dir path) := by
  apply Program.relying_of_onlyCalls
  · apply (onlyCalls_resolve (.confined opened) dir path).mono
    intro c hc
    cases c with
    | canonicalize path => trivial
    | _ => exact absurd hc id
  · apply Program.Yields.mono (yields_resolve dir)
    rintro result h tg htg
    obtain ⟨rel, rfl, -⟩ := h tg htg
    trivial

/-- What is done with one name on a confined root. -/
theorem contained_withPath {Q : α → Prop} {f : Target → Sys α}
    (hf : ∀ rel, Contained held Q (f (.beneath rel))) :
    Contained held Q (withPath (.confined opened) d path f) := by
  apply Fallible.relying_bind (contained_ofExcept fun _ _ => trivial)
  intro dir _
  apply Fallible.relying_bind (contained_resolve dir)
  rintro (tg | rel) htg
  · exact absurd htg id
  · exact hf rel

/-! ### Looking -/

/-- Following a name beneath the root. -/
theorem contained_metadata (rel : PathBuf) :
    Contained held (fun _ => True) (metadata (.beneath rel)) :=
  Fallible.relying_ask trivial fun _ _ => trivial

/-- Looking at a name beneath the root. -/
theorem contained_symlinkMetadata (rel : PathBuf) :
    Contained held (fun _ => True) (symlinkMetadata (.beneath rel)) :=
  Fallible.relying_ask trivial fun _ _ => trivial

private theorem contained_beneathLstat (rel : PathBuf) :
    Contained held (fun _ => True) (beneathLstat rel) := by
  unfold beneathLstat
  split
  · exact contained_metadata rel
  · exact contained_symlinkMetadata rel

private theorem contained_metadataFollowed (rel : PathBuf) :
    Contained held (fun _ => True) (metadataFollowed (.beneath rel)) :=
  Fallible.relying_bind (contained_metadata rel) fun _ _ => Fallible.relying_pure trivial

/-- Looking at a name as it is spelled. -/
theorem contained_metadataAsNamed (rel : PathBuf) :
    Contained held (fun _ => True) (metadataAsNamed (.beneath rel)) :=
  Fallible.relying_bind (contained_beneathLstat rel) fun _ _ => Fallible.relying_pure trivial

/-- `stat_of` looks beneath the root. -/
theorem contained_statOf (rel : PathBuf) (follow : Bool) :
    Contained held (fun _ => True) (statOf (.beneath rel) follow) := by
  cases follow
  · exact Fallible.relying_bind (contained_beneathLstat rel) fun _ _ =>
      Fallible.relying_pure trivial
  · exact Fallible.relying_bind (contained_metadata rel) fun _ _ => Fallible.relying_pure trivial

/-- `identity_of` looks beneath the root. -/
theorem contained_identityOf (rel : PathBuf) (follow : Bool) :
    Contained held (fun _ => True) (identityOf (.beneath rel) follow) := by
  cases follow
  · exact Fallible.relying_bind (contained_beneathLstat rel) fun _ _ =>
      Fallible.relying_pure trivial
  · exact Fallible.relying_bind (contained_metadata rel) fun _ _ => Fallible.relying_pure trivial

/-- The name of a new directory is beneath the root. -/
theorem contained_newDirectoryName (rel : PathBuf) :
    Contained held Target.IsBeneath (newDirectoryName (.beneath rel)) := by
  unfold newDirectoryName
  split
  · exact Fallible.relying_pure trivial
  · apply Fallible.relying_bind (contained_tried (contained_symlinkMetadata _))
    rintro (e | m) _
    · simp only
      split
      · exact Fallible.relying_pure trivial
      · exact Fallible.relying_throw _
    · exact Fallible.relying_throw _

/-- The name of a directory that is there is beneath the root. -/
theorem contained_existingDirectoryName (rel : PathBuf) :
    Contained held Target.IsBeneath (existingDirectoryName (.beneath rel)) := by
  unfold existingDirectoryName
  split
  · exact Fallible.relying_throw _
  · split
    · exact Fallible.relying_pure trivial
    · apply Fallible.relying_bind (contained_metadataAsNamed _)
      rintro ⟨isDir, mode⟩ _
      simp only
      split
      · exact Fallible.relying_pure trivial
      · exact Fallible.relying_throw _

/-- The guard on directory names looks beneath the root. -/
theorem contained_refuseDirectoryName (rel : PathBuf) :
    Contained held (fun _ => True) (refuseDirectoryName (.beneath rel)) := by
  unfold refuseDirectoryName
  split
  · apply Fallible.relying_bind (contained_tried (contained_metadataFollowed rel))
    rintro (e | found) _ <;> exact Fallible.relying_throw _
  · split
    · exact Fallible.relying_throw _
    · exact Fallible.relying_pure trivial

/-- Whether a directory is there is asked beneath the root. -/
theorem contained_isDirectoryAlready (rel : PathBuf) :
    Contained held (fun _ => True) (isDirectoryAlready (.beneath rel)) := by
  unfold isDirectoryAlready
  split
  · apply Fallible.relying_bind (contained_tried (contained_metadataFollowed rel))
    rintro (e | ⟨isDir, mode⟩) _ <;> exact Fallible.relying_pure trivial
  · exact Fallible.relying_pure trivial

/-! ### Opening -/

private theorem contained_openFile (rel : PathBuf) (flags : OpenFlags) :
    Contained held held (openFile (.beneath rel) flags) :=
  Fallible.relying_ask trivial fun file hfile => hfile file rfl

/-- A file is opened beneath the root. -/
theorem contained_openNonDirectory (rel : PathBuf) (flags : OpenFlags) :
    Contained held (fun _ => True) (openNonDirectory (.beneath rel) flags) := by
  unfold openNonDirectory
  split
  · apply Fallible.relying_bind (contained_tried (contained_metadataFollowed rel))
    intro result _
    split <;> exact Fallible.relying_throw _
  · exact Fallible.relying_bind (contained_openFile rel flags) fun _ _ =>
      Fallible.relying_pure trivial

/-- A directory is opened beneath the root. -/
theorem contained_openDir (rel : PathBuf) (follow : Bool) :
    Contained held (fun _ => True) (openDir (.confined opened) (.beneath rel) follow) := by
  apply Fallible.relying_bind (Q := fun _ => True)
  · exact Fallible.relying_ask trivial fun _ _ => trivial
  · intro _ _
    apply Fallible.relying_bind (contained_ofExcept fun _ _ => trivial)
    exact fun _ _ => Fallible.relying_pure trivial

/-! ### Copying -/

private theorem contained_createDestination (rel : PathBuf) (mode : UInt32) :
    Contained held held (createDestination (.beneath rel) mode) := by
  have hcreate : Contained held held (createNew (.beneath rel) mode) :=
    Fallible.relying_ask trivial fun file hfile => hfile file rfl
  apply Fallible.relying_bind (contained_ofProgram hcreate)
  rintro (e | file) hfile
  · exact Fallible.relying_throw _
  · exact Fallible.relying_pure (hfile file rfl)

private theorem contained_fileMetadata {file : Handle} (h : held file) :
    Contained held (fun _ => True) (fileMetadata file) := Fallible.relying_ask h fun _ _ => trivial

private theorem contained_setPermissions {file : Handle} (h : held file) (mode : UInt32) :
    Contained held (fun _ => True) (setPermissions file mode) :=
  Fallible.relying_ask h fun _ _ => trivial

private theorem contained_copyContents {src dst : Handle} (hsrc : held src) (hdst : held dst)
    (mode : UInt32) :
    Contained held (fun _ => True) (copyContents src dst mode) := by
  apply Fallible.relying_bind (Q := fun _ => True)
  · exact Fallible.relying_ask ⟨hsrc, hdst⟩ fun _ _ => trivial
  · exact fun _ _ => contained_setPermissions hdst mode

/-- The clean-up looks at what was created and at the name, and removes it there. -/
theorem relying_removeIfSame (rel : PathBuf) {created : Handle} (h : held created) :
    (removeIfSame (.beneath rel) created).Relying (Call.Hands held) (Call.Contained held)
      fun _ => True := by
  apply Program.Relying.bind (contained_fileMetadata h)
  rintro (e | ours) _
  · trivial
  · apply Program.Relying.bind (contained_symlinkMetadata rel)
    rintro (e | m) _
    · trivial
    · simp only
      split
      · exact ⟨trivial, fun _ _ => trivial⟩
      · trivial

/-- A copy of a file is made beneath the root, of files it was handed. -/
theorem contained_copyFile (src dst : PathBuf) :
    Contained held (fun _ => True) (copyFile (.beneath src) (.beneath dst)) := by
  apply Fallible.relying_bind (Q := held)
  · exact Fallible.relying_ask trivial fun file hfile => hfile file rfl
  intro file hfile
  apply Fallible.relying_bind (contained_fileMetadata hfile)
  intro m _
  simp only
  split
  · exact Fallible.relying_throw _
  · apply Fallible.relying_bind (contained_createDestination dst _)
    intro created hcreated
    apply Fallible.relying_bind (contained_tried (contained_copyContents hfile hcreated _))
    rintro (e | _) _
    · apply Fallible.relying_bind (contained_ofProgram (relying_removeIfSame dst hcreated))
      exact fun _ _ => Fallible.relying_throw e
    · exact Fallible.relying_pure trivial

private theorem contained_chmodMade (rel : PathBuf) (mode : UInt32) :
    Contained held (fun _ => True) (chmodMade (.beneath rel) mode) := by
  apply Fallible.relying_bind (Q := held)
  · exact Fallible.relying_ask trivial fun file hfile => hfile file rfl
  · exact fun made hmade => contained_setPermissions hmade mode

/-- A directory is made beneath the root, and changed through the handle of it. -/
theorem contained_copyDir (src dst : PathBuf) :
    Contained held (fun _ => True) (copyDir (.beneath src) (.beneath dst)) := by
  apply Fallible.relying_bind (contained_metadataAsNamed src)
  rintro ⟨isDir, sourceMode⟩ _
  simp only
  split
  · exact Fallible.relying_throw _
  · apply Fallible.relying_bind (contained_newDirectoryName dst)
    rintro (named | named) hnamed
    · exact absurd hnamed id
    apply Fallible.relying_bind (Q := fun _ => True)
    · exact Fallible.relying_ask trivial fun _ _ => trivial
    intro _ _
    apply Fallible.relying_bind (contained_tried (contained_chmodMade named _))
    rintro (e | _) _
    · apply Fallible.relying_bind (Q := fun _ => True)
      · exact contained_tried (Fallible.relying_ask trivial fun _ _ => trivial)
      · exact fun _ _ => Fallible.relying_throw e
    · exact Fallible.relying_pure trivial

end TrantorCli.FsCore
