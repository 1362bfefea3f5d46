import TrantorCli.Lib.Interaction.Run

/-!
# Programs written in the calls of another

A handler says which program answers each call of a language. Interpreting a
program by a handler puts those programs in the place of its calls.
-/

namespace Interaction

variable {Call Call' : Type} {Reply : Call → Type} {Reply' : Call' → Type} {α β ε : Type}

/-- Which program answers each call. -/
abbrev Handler (Call Call' : Type) (Reply : Call → Type) (Reply' : Call' → Type) :=
  ∀ c : Call, Program Call' Reply' (Reply c)

namespace Program

/-- Every call is answered by the program the handler has for it. -/
def interp (h : Handler Call Call' Reply Reply') : Program Call Reply α → Program Call' Reply' α
  | done a => done a
  | call c next => h c >>= fun reply => (next reply).interp h

variable (h : Handler Call Call' Reply Reply')

/-- A result is itself under any handler. -/
@[simp] theorem interp_pure (a : α) : (pure a : Program Call Reply α).interp h = pure a := rfl

private theorem interp_bind (p : Program Call Reply α) (f : α → Program Call Reply β) :
    (p >>= f).interp h = p.interp h >>= fun a => (f a).interp h := by
  induction p with
  | done a => rfl
  | call c next ih =>
    rw [bind_call, interp, interp, bind_assoc]
    exact congrArg (h c >>= ·) (funext ih)

/-- Interpreting twice is interpreting by what the first handler says, interpreted. -/
theorem interp_interp {Call'' : Type} {Reply'' : Call'' → Type}
    (k : Handler Call' Call'' Reply' Reply'') (p : Program Call Reply α) :
    (p.interp h).interp k = p.interp fun c => (h c).interp k := by
  induction p with
  | done a => rfl
  | call c next ih =>
    rw [interp, interp_bind, interp]
    exact congrArg ((h c).interp k >>= ·) (funext ih)

/-- A table of answers to the calls of the handler answers the calls it handles. -/
theorem eval_interp (answer : ∀ c, Reply' c) (p : Program Call Reply α) :
    (p.interp h).eval answer = p.eval fun c => (h c).eval answer := by
  induction p with
  | done a => rfl
  | call c next ih => rw [interp, eval_bind, ih, eval]

/-- Where the handler's programs make calls of one kind, so does what it interprets. -/
theorem OnlyCalls.interp {P : Call → Prop} {P' : Call' → Prop} {p : Program Call Reply α}
    (hp : p.OnlyCalls P) (hh : ∀ c, P c → (h c).OnlyCalls P') : (p.interp h).OnlyCalls P' := by
  induction p with
  | done a => trivial
  | call c next ih => exact (hh c hp.1).bind fun reply => ih reply (hp.2 reply)

/-- Interpreting keeps what results there are. -/
theorem Yields.interp {Q : α → Prop} {p : Program Call Reply α} (hp : p.Yields Q) :
    (p.interp h).Yields Q := by
  induction p with
  | done a => exact hp
  | call c next ih => exact (yields_true (h c)).bind fun reply _ => ih reply (hp reply)

end Program

namespace Fallible

/-- `Program.interp` of a program that may fail. -/
def interp (h : Handler Call Call' Reply Reply') (p : Fallible Call Reply ε α) :
    Fallible Call' Reply' ε α :=
  ExceptT.mk ((ExceptT.run p).interp h)

variable (h : Handler Call Call' Reply Reply')

/-- Interpreting a sequence is sequencing what is interpreted, errors included. -/
theorem interp_bind (p : Fallible Call Reply ε α) (f : α → Fallible Call Reply ε β) :
    interp h (p >>= f) = interp h p >>= fun a => interp h (f a) := by
  have hrun : ExceptT.run (p >>= f) = ExceptT.run p >>= ExceptT.bindCont f := rfl
  unfold interp
  rw [hrun, Program.interp_bind]
  refine congrArg (fun k => ExceptT.mk ((ExceptT.run p).interp h >>= k)) (funext fun result => ?_)
  cases result <;> rfl

/-- Evaluating what is interpreted is evaluating under what the handler answers. -/
theorem eval_interp (answer : ∀ c, Reply' c) (p : Fallible Call Reply ε α) :
    eval answer (interp h p) = eval (fun c => (h c).eval answer) p :=
  Program.eval_interp h answer (ExceptT.run p)

end Fallible

end Interaction
