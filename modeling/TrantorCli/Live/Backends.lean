import TrantorCli.Lib.UnixPath.Parent
import TrantorCli.Live.Inside

/-!
# The path layer on both filesystems

An app that names its paths from a working directory which it sets as it goes sees
no difference between the two filesystems either, as long as it stays inside the
root of the confined one: the slot then stays inside with it.
-/

open Interaction UnixPath Roc

namespace TrantorCli.Live

open FsCore
open TrantorCli.FsOps (osBytes osBytes_native)

variable {base : PlainPath} {inside dirs : PathBuf → Prop} {σ α : Type}

end TrantorCli.Live
