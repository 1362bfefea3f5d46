import TrantorCli.FsOps.Slot
import TrantorCli.Live

/-!
# An app that stays inside

Whether a relative path leads inside depends on the working directory, and the
working directory on the paths that were set before. As long as each path leads
inside from every directory that the app goes to, the slot holds such a directory,
and every operation that reaches the filesystem names something inside, or nothing.
-/

open Interaction UnixPath Roc

namespace TrantorCli.Live

open FsCore
open TrantorCli.FsOps (CwdError osBytes joinBytes)

/-- A directory that the app may be in. -/
structure Dwells (dirs : PathBuf → Prop) (dir : PathBuf) : Prop where
  absolute : isAbsolute dir = true
  here : dirs dir

/-- A path that leads inside, spelled as it has to be, from every directory that the app may be in;
or the empty one. -/
def Stays (inside dirs spelled : PathBuf → Prop) (path : PathBuf) : Prop :=
  path = [] ∨ (isAbsolute path = true ∧ inside path ∧ spelled path) ∨
    isAbsolute path = false ∧
      ∀ dir, Dwells dirs dir → inside (joinBytes dir path) ∧ spelled (joinBytes dir path)

/-- The bytes of a path, where it has any, stay inside. -/
def UsedAs (inside dirs spelled : PathBuf → Prop) (path : Path) : Prop :=
  ∀ bytes, Host.nativeBytes path.toRaw = .ok bytes → Stays inside dirs spelled bytes

/-- Every path that is used stays inside, and is spelled so that both backends are asked the same. A
working directory that is set is one that the app may be in. -/
def PathOp.Stays (inside dirs : PathBuf → Prop) : PathOp → Prop
  | type path | isFile path | isDir path | isSymLink path | exists' path =>
    UsedAs inside dirs (fun q => endsInParent q = false) path
  | readBytes path | readUtf8 path | replaceUtf8 path _ _ | delete path | readSymLink path
  | list path => UsedAs inside dirs Plain path
  | writeBytes path _ | writeUtf8 path _ | deleteAll path => UsedAs inside dirs (fun _ => True) path
  | copy src dst => UsedAs inside dirs Plain src ∧ UsedAs inside dirs (fun _ => True) dst
  | createDir path => UsedAs inside dirs Slashed path
  | deleteEmpty path => UsedAs inside dirs (fun q => Slashed q ∨ endsInParent q = true) path
  | setCwd path => UsedAs inside dirs (Dwells dirs) path
  | cwd => True
  | createAll _ => False

variable {inside dirs spelled : PathBuf → Prop} {path : PathBuf} {ε ε' α β : Type}

/-! ### Resolving -/

/-- A path stays inside however loosely it is to be spelled. -/
theorem Stays.mono {spelled' : PathBuf → Prop} (h : Stays inside dirs spelled path)
    (hspelled : ∀ q, spelled q → spelled' q) : Stays inside dirs spelled' path := by
  obtain rfl | ⟨habs, hin, hq⟩ | ⟨hrel, hleads⟩ := h
  · exact .inl rfl
  · exact .inr (.inl ⟨habs, hin, hspelled path hq⟩)
  · exact .inr (.inr ⟨hrel, fun dir hdir => (hleads dir hdir).imp_right (hspelled _)⟩)

section Functions

variable {p : Path} (h : UsedAs inside dirs spelled p)
include h

private theorem UsedAs.fileBytes :
    ∀ b, Host.fileBytes p.toRaw = .ok b → Stays inside dirs spelled b :=
  fun b hb => h b (mapError_eq_ok.mp hb)

private theorem UsedAs.dirBytes :
    ∀ b, Host.dirBytes p.toRaw = .ok b → Stays inside dirs spelled b :=
  fun b hb => h b (mapError_eq_ok.mp hb)

end Functions

end TrantorCli.Live
