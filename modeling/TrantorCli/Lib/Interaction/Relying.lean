import TrantorCli.Lib.Interaction.Agree

/-!
# What a program does as long as it is answered well

What a program calls and ends in often depends on what it is told. Relying on the
answers to its calls, it guarantees which calls it makes and what holds of its
result; both carry over sequences and interpretations.
-/

namespace Interaction

variable {Call Call' : Type} {Reply : Call → Type} {Reply' : Call' → Type} {α β ε σ : Type}

/-- As long as every answer is one that `rely` allows, the program makes only calls that satisfy
`guar` and ends in a result that satisfies `Q`. -/
def Program.Relying (rely : ∀ c, Reply c → Prop) (guar : Call → Prop) (Q : α → Prop) :
    Program Call Reply α → Prop
  | .done a => Q a
  | .call c next => guar c ∧ ∀ reply, rely c reply → (next reply).Relying rely guar Q

namespace Program

variable {rely : ∀ c, Reply c → Prop} {guar : Call → Prop} {Q : α → Prop}

/-- A call that is guaranteed, answered as is relied on. -/
theorem relying_ask {c : Call} {Q : Reply c → Prop} (hc : guar c)
    (hQ : ∀ reply, rely c reply → Q reply) :
    (ask c : Program Call Reply (Reply c)).Relying rely guar Q := ⟨hc, hQ⟩

/-- Guarantees are kept by sequencing. -/
theorem Relying.bind {R : β → Prop} {p : Program Call Reply α} {f : α → Program Call Reply β}
    (hp : p.Relying rely guar Q) (hf : ∀ a, Q a → (f a).Relying rely guar R) :
    (p >>= f).Relying rely guar R := by
  induction p with
  | done a => exact hf a hp
  | call c next ih => exact ⟨hp.1, fun reply hreply => ih reply (hp.2 reply hreply)⟩

/-- A program guarantees what its result implies. -/
theorem Relying.mono {R : α → Prop} {p : Program Call Reply α} (hp : p.Relying rely guar Q)
    (hQR : ∀ a, Q a → R a) : p.Relying rely guar R := by
  induction p with
  | done a => exact hQR a hp
  | call c next ih => exact ⟨hp.1, fun reply hreply => ih reply (hp.2 reply hreply)⟩

/-- Handlers that guarantee good answers keep what is guaranteed. -/
theorem Relying.interp {rely' : ∀ c, Reply' c → Prop} {guar' : Call' → Prop}
    {h : Handler Call Call' Reply Reply'} {p : Program Call Reply α} (hp : p.Relying rely guar Q)
    (hh : ∀ c, guar c → (h c).Relying rely' guar' (rely c)) :
    (p.interp h).Relying rely' guar' Q := by
  induction p with
  | done a => exact hp
  | call c next ih => exact (hh c hp.1).bind fun reply hreply => ih reply (hp.2 reply hreply)

/-- Calls and results that do not depend on the answers. -/
theorem relying_of_onlyCalls {p : Program Call Reply α} (hp : p.OnlyCalls guar) (hQ : p.Yields Q) :
    p.Relying rely guar Q := by
  induction p with
  | done a => exact hQ
  | call c next ih => exact ⟨hp.1, fun reply _ => ih reply (hp.2 reply) (hQ reply)⟩

end Program

namespace Fallible

variable {rely : ∀ c, Reply c → Prop} {guar : Call → Prop}

/-- `Program.Relying` of a program that may fail: what is asked of its results that are no
errors. -/
def Relying (rely : ∀ c, Reply c → Prop) (guar : Call → Prop) (Q : α → Prop)
    (p : Fallible Call Reply ε α) : Prop :=
  Program.Relying rely guar (fun result => ∀ a, result = .ok a → Q a) (ExceptT.run p)

/-- A program that may fail keeps its guarantees whatever it ends in. -/
theorem Relying.run {Q : α → Prop} {p : Fallible Call Reply ε α} (h : Relying rely guar Q p) :
    Program.Relying rely guar (fun _ => True) (ExceptT.run p) :=
  Program.Relying.mono h fun _ _ => trivial

/-- A result is what is required of it. -/
theorem relying_pure {Q : α → Prop} {a : α} (h : Q a) :
    Relying rely guar Q (pure a : Fallible Call Reply ε α) := by
  rintro _ ⟨⟩
  exact h

/-- Nothing is required of an error. -/
theorem relying_throw {Q : α → Prop} (e : ε) :
    Relying rely guar Q (throw e : Fallible Call Reply ε α) := by
  rintro _ ⟨⟩

/-- Guarantees of programs that may fail are kept by sequencing. -/
theorem relying_bind {Q : α → Prop} {R : β → Prop} {p : Fallible Call Reply ε α}
    {f : α → Fallible Call Reply ε β} (hp : Relying rely guar Q p)
    (hf : ∀ a, Q a → Relying rely guar R (f a)) : Relying rely guar R (p >>= f) := by
  apply Program.Relying.bind hp
  intro result hresult
  cases result with
  | ok a => exact hf a (hresult a rfl)
  | error e => rintro _ ⟨⟩

/-- A call that is guaranteed, whose success is as is relied on. -/
theorem relying_ask {Reply : Call → Type} {rely : ∀ c, Except ε (Reply c) → Prop} {c : Call}
    {Q : Reply c → Prop} (hc : guar c) (hQ : ∀ a, rely c (.ok a) → Q a) :
    Relying rely guar Q (ask c : Fallible Call (fun c => Except ε (Reply c)) ε (Reply c)) := by
  apply Program.relying_ask hc
  rintro _ hreply a rfl
  exact hQ a hreply

end Fallible

end Interaction
