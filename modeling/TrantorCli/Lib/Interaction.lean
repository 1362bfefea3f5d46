import Mathlib.Logic.Relation

/-!
# Programs that call on a system

A program is the tree of the calls it makes: each node names a call and says how
the program goes on after every answer to it. A fixed table of answers gives a
program its result and the calls it made; a system with a state, shared with
others who may act between any two calls, gives it runs.
-/

namespace Interaction

/-- A program over calls `Call`, each answered by a `Reply`. -/
inductive Program (Call : Type) (Reply : Call → Type) (α : Type) where
  | done (result : α)
  | call (c : Call) (next : Reply c → Program Call Reply α)

variable {Call : Type} {Reply : Call → Type} {α β ε : Type}

namespace Program

/-- Runs `f` on the result of `p`. -/
def bind : Program Call Reply α → (α → Program Call Reply β) → Program Call Reply β
  | done a, f => f a
  | call c next, f => call c fun reply => (next reply).bind f

instance : Monad (Program Call Reply) where
  pure := done
  bind := bind

/-- The program that makes one call and answers what it is told. -/
def ask (c : Call) : Program Call Reply (Reply c) := call c done

/-- What follows a call follows what it is answered. -/
theorem bind_call (c : Call) (next : Reply c → Program Call Reply α)
    (f : α → Program Call Reply β) :
    (call c next >>= f) = call c fun reply => next reply >>= f := rfl

private theorem map_id (p : Program Call Reply α) : id <$> p = p := by
  induction p with
  | done a => rfl
  | call c next ih => exact congrArg (call c) (funext ih)

/-- Sequencing is associative. -/
theorem bind_assoc {γ : Type} (p : Program Call Reply α) (f : α → Program Call Reply β)
    (g : β → Program Call Reply γ) : p >>= f >>= g = p >>= fun a => f a >>= g := by
  induction p with
  | done a => rfl
  | call c next ih => exact congrArg (call c) (funext ih)

instance : LawfulMonad (Program Call Reply) :=
  LawfulMonad.mk' _ map_id (fun _ _ => rfl) bind_assoc

/-! ## Fixed answers -/

/-- The result when every call is answered by `answer`. -/
def eval (answer : ∀ c, Reply c) : Program Call Reply α → α
  | done a => a
  | call c next => (next (answer c)).eval answer

/-- The calls made, in order, when every call is answered by `answer`. -/
def trace (answer : ∀ c, Reply c) : Program Call Reply α → List Call
  | done _ => []
  | call c next => c :: (next (answer c)).trace answer

variable (answer : ∀ c, Reply c)

/-- A result is itself under any answers. -/
@[simp] theorem eval_pure (a : α) : (pure a : Program Call Reply α).eval answer = a := rfl

/-- A result makes no call. -/
@[simp] theorem trace_pure (a : α) : (pure a : Program Call Reply α).trace answer = [] := rfl

/-- The second part is evaluated on the result of the first. -/
@[simp] theorem eval_bind (p : Program Call Reply α) (f : α → Program Call Reply β) :
    (p >>= f).eval answer = (f (p.eval answer)).eval answer := by
  induction p with
  | done a => rfl
  | call c next ih => exact ih (answer c)

/-- The calls of the second part come after those of the first. -/
@[simp] theorem trace_bind (p : Program Call Reply α) (f : α → Program Call Reply β) :
    (p >>= f).trace answer = p.trace answer ++ (f (p.eval answer)).trace answer := by
  induction p with
  | done a => rfl
  | call c next ih =>
    rw [bind_call, trace, trace, eval, List.cons_append]
    exact congrArg (c :: ·) (ih (answer c))

end Program

/-! ## Programs that may fail -/

/-- A program that ends in a result or in an error. -/
abbrev Fallible (Call : Type) (Reply : Call → Type) (ε α : Type) :=
  ExceptT ε (Program Call Reply) α

namespace Fallible

/-- Makes a call whose answer may be an error, and fails with that error. -/
def ask (c : Call) : Fallible Call (fun c => Except ε (Reply c)) ε (Reply c) :=
  ExceptT.mk (Program.ask c)

variable (answer : ∀ c, Reply c)

/-- The result under fixed answers. -/
def eval (p : Fallible Call Reply ε α) : Except ε α := Program.eval answer (ExceptT.run p)

/-- The calls made under fixed answers. -/
def trace (p : Fallible Call Reply ε α) : List Call := Program.trace answer (ExceptT.run p)

/-- A result succeeds under any answers. -/
@[simp] theorem eval_pure (a : α) : eval answer (pure a : Fallible Call Reply ε α) = .ok a := rfl

/-- An error fails under any answers. -/
@[simp] theorem eval_throw (e : ε) :
    eval answer (throw e : Fallible Call Reply ε α) = .error e := rfl

/-- A result makes no call. -/
@[simp] theorem trace_pure (a : α) : trace answer (pure a : Fallible Call Reply ε α) = [] := rfl

/-- A sequence fails with its first failure, or goes on with the first result. -/
theorem eval_bind (p : Fallible Call Reply ε α) (f : α → Fallible Call Reply ε β) :
    eval answer (p >>= f) = eval answer p >>= fun a => eval answer (f a) := by
  have h : ExceptT.run (p >>= f) = ExceptT.run p >>= ExceptT.bindCont f := rfl
  rw [eval, h, Program.eval_bind]
  cases hp : Program.eval answer (ExceptT.run p) with
  | error e => simp only [eval, hp]; rfl
  | ok a => simp only [eval, hp]; rfl

/-- A sequence makes the calls of its first part, then those of the second if the first
succeeded. -/
theorem trace_bind (p : Fallible Call Reply ε α) (f : α → Fallible Call Reply ε β) :
    trace answer (p >>= f) = trace answer p ++
      match eval answer p with
      | .ok a => trace answer (f a)
      | .error _ => [] := by
  have h : ExceptT.run (p >>= f) = ExceptT.run p >>= ExceptT.bindCont f := rfl
  rw [trace, h, Program.trace_bind]
  cases hp : Program.eval answer (ExceptT.run p) with
  | error e => simp only [eval, trace, hp]; rfl
  | ok a => simp only [eval, trace, hp]; rfl

/-- After a success the second part is evaluated on it. -/
theorem eval_bind_of_ok {p : Fallible Call Reply ε α} {f : α → Fallible Call Reply ε β} {a : α}
    (h : eval answer p = .ok a) : eval answer (p >>= f) = eval answer (f a) := by
  rw [eval_bind, h]; rfl

/-- After an error nothing is. -/
theorem eval_bind_of_error {p : Fallible Call Reply ε α} {f : α → Fallible Call Reply ε β} {e : ε}
    (h : eval answer p = .error e) : eval answer (p >>= f) = .error e := by
  rw [eval_bind, h]; rfl

/-- After a success the calls of the second part come next. -/
theorem trace_bind_of_ok {p : Fallible Call Reply ε α} {f : α → Fallible Call Reply ε β} {a : α}
    (h : eval answer p = .ok a) :
    trace answer (p >>= f) = trace answer p ++ trace answer (f a) := by
  rw [trace_bind, h]

end Fallible

end Interaction
