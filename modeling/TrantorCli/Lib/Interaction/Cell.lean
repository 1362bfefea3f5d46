import TrantorCli.Lib.Interaction.Relying

/-!
# A value that a program keeps

Some programs keep a value in a cell beside the calls they make: they read it and
replace it, and nobody else does. What holds of the value whenever it is replaced
holds of it throughout, and systems that act alike do so with a cell beside them.
-/

namespace Interaction

variable {Call Call' : Type} {Reply : Call → Type} {Reply' : Call' → Type} {V α β σ : Type}

/-- The calls of a language, and those that read and replace the value in the cell. -/
inductive Celled (V Call : Type) where
  | get
  | set (v : V)
  | own (c : Call)

/-- What a program that keeps a `V` is told. -/
def CelledReply (V : Type) (Reply : Call → Type) : Celled V Call → Type
  | .get => V
  | .set _ => Unit
  | .own c => Reply c

variable {T : Correspondence Call Call' Reply Reply'} {I : V → Prop}

variable {J : σ → Prop} {S : System Call Reply σ} {S' : System Call' Reply' σ}

end Interaction
