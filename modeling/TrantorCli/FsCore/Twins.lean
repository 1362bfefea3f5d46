import TrantorCli.FsCore.Operations
import TrantorCli.FsCore.SameName
import TrantorCli.Lib.Interaction.Agree

/-!
# The backends call for call

An operation makes the same calls on both backends, each on its own spelling of
the name, and goes on in the same way after the same answer. The two systems are
only taken to be alike on names as they are: where a name asks for a directory,
or leads to its parent, it is the guards that make them so.
-/

open Interaction UnixPath

namespace TrantorCli.FsCore

/-- An ambient target and a target beneath the root that name one thing, below the root. -/
inductive TwinTarget (base : AbsPath) (inside : PathBuf → Prop) : Target → Target → Prop where
  | intro {rest : List Component} {path rel : PathBuf} (hinside : inside path)
      (hbelow : BelowRoot rest) (hname : SameName base rest path rel) :
      TwinTarget base inside (.ambient path) (.beneath rel)

/-- Spellings of one thing, whose name is as it is. -/
structure PlainTwins (base : AbsPath) (inside : PathBuf → Prop) (tg tg' : Target) : Prop where
  twin : TwinTarget base inside tg tg'
  plain : Plain tg.path

/-- The paths that are used: absolute, below the root, and no path is left for its slashes. -/
structure Below (base : AbsPath) (inside : PathBuf → Prop) : Prop where
  absolute : ∀ path, inside path → isAbsolute path = true
  below : ∀ path, inside path → ∃ rest, BelowRoot rest ∧
    components path = components base.bytes ++ rest
  stripped : ∀ path name, inside path → slashesStripped path = some name → inside name

variable {base : AbsPath} {inside : PathBuf → Prop} {tg tg' : Target}

namespace TwinTarget

/-- What is asked of a twin's path is asked of two spellings of one name. -/
theorem exists_name (h : TwinTarget base inside tg tg') : ∃ rest path rel, inside path ∧
    BelowRoot rest ∧ SameName base rest path rel ∧ tg = .ambient path ∧ tg' = .beneath rel := by
  cases h with
  | intro hinside hbelow hname => exact ⟨_, _, _, hinside, hbelow, hname, rfl, rfl⟩

/-- Both spellings end in `..`, or neither does. -/
theorem endsInParent (h : TwinTarget base inside tg tg') :
    FsCore.endsInParent tg'.path = FsCore.endsInParent tg.path := by
  obtain ⟨rest, path, rel, -, hrest, hname, rfl, rfl⟩ := h.exists_name
  exact hname.endsInParent hrest

/-- Both spellings ask for a directory, or neither does. -/
theorem namesDirectory (h : TwinTarget base inside tg tg') :
    FsCore.namesDirectory tg'.path = FsCore.namesDirectory tg.path := by
  obtain ⟨rest, path, rel, -, hrest, hname, rfl, rfl⟩ := h.exists_name
  exact hname.namesDirectory hrest.1

/-- The name without its slashes is as it is, or there are none to take off. -/
theorem slashesStripped (hinside : Below base inside) (h : TwinTarget base inside tg tg') :
    (FsCore.slashesStripped tg.path = none ∧ FsCore.slashesStripped tg'.path = none) ∨
      ∃ name name', FsCore.slashesStripped tg.path = some name ∧
        FsCore.slashesStripped tg'.path = some name' ∧
        PlainTwins base inside (tg.withPath name) (tg'.withPath name') := by
  obtain ⟨rest, path, rel, hpath, hrest, hname, rfl, rfl⟩ := h.exists_name
  rcases hname.slashesStripped hrest.1 with hnone | ⟨name, nameRel, hsome, hrel, hn⟩
  · exact .inl hnone
  · have hin : inside name := hinside.stripped path name hpath hsome
    exact .inr ⟨name, nameRel, hsome, hrel, .intro hin hrest hn, plain_of_slashesStripped hsome⟩

end TwinTarget

/-! ### Single calls -/

end TrantorCli.FsCore
