import TrantorCli.Lib.Interaction.Agree

/-!
# Systems whose answers are a function of the state

Where a state says what each call answers and leaves, a program has one run that
the others do not take part in, and it can be computed. Two such systems act alike
when what the functions say of corresponding calls is alike.
-/

namespace Interaction

variable {Call Call' : Type} {Reply : Call → Type} {Reply' : Call' → Type} {α σ : Type}

/-- What each call answers in a state, and the state that it leaves. -/
abbrev Act (Call : Type) (Reply : Call → Type) (σ : Type) := ∀ c : Call, σ → Reply c × σ

/-- The result of the program, and the state that it leaves. -/
def Program.outcome (act : Act Call Reply σ) : Program Call Reply α → σ → α × σ
  | done a, s => (a, s)
  | call c next, s => (next (act c s).1).outcome act (act c s).2

/-- What is computed is reached, on a system that may do as the function says. -/
theorem Program.reaches_outcome {S : System Call Reply σ} {act : Act Call Reply σ}
    (hact : ∀ c s, S.perform c s (act c s).1 (act c s).2) (p : Program Call Reply α) (s : σ) :
    Reaches S (p, s) (.done (p.outcome act s).1, (p.outcome act s).2) := by
  induction p generalizing s with
  | done a => exact .refl
  | call c next ih => exact .head (.call (hact c s)) (ih (act c s).1 (act c s).2)

/-- The system in which every call does as the function says. -/
def System.determined (act : Act Call Reply σ) (others : σ → σ → Prop) : System Call Reply σ where
  perform c s reply t := reply = (act c s).1 ∧ t = (act c s).2
  others := others

variable {T : Correspondence Call Call' Reply Reply'} {I : σ → Prop} {others : σ → σ → Prop}

end Interaction
