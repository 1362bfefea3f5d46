import TrantorCli.Lib.Interaction

/-!
# Runs against a system with a state

A call answers from the state and may change it, and others may change the state
between any two calls. What a program may call bounds what a run can do to a
state; what holds after each answer gives what holds when the program is done.
-/

namespace Interaction

variable {Call : Type} {Reply : Call → Type} {σ α β ε : Type}

/-- A system with states `σ`: what a call may answer and do, and what others may do. -/
structure System (Call : Type) (Reply : Call → Type) (σ : Type) where
  perform : (c : Call) → σ → Reply c → σ → Prop
  others : σ → σ → Prop

/-- One step of a program against a system, or of the others. -/
inductive Step (S : System Call Reply σ) :
    Program Call Reply α × σ → Program Call Reply α × σ → Prop where
  | call {c : Call} {next : Reply c → Program Call Reply α} {s s' : σ} {reply : Reply c}
      (h : S.perform c s reply s') : Step S (.call c next, s) (next reply, s')
  | others {p : Program Call Reply α} {s s' : σ} (h : S.others s s') : Step S (p, s) (p, s')

/-- The configurations a run reaches. -/
abbrev Reaches (S : System Call Reply σ) :
    Program Call Reply α × σ → Program Call Reply α × σ → Prop :=
  Relation.ReflTransGen (Step S)

/-- What every step keeps holds of every configuration a run reaches. -/
theorem Reaches.invariant {S : System Call Reply σ} {I : Program Call Reply α × σ → Prop}
    {x y : Program Call Reply α × σ} (h : Reaches S x y) (hstep : ∀ x y, Step S x y → I x → I y)
    (hx : I x) : I y := by
  induction h with
  | refl => exact hx
  | tail _ hlast ih => exact hstep _ _ hlast ih

/-! ## What a program may call -/

/-- Whatever it is answered, the program makes only calls that satisfy `P`. -/
def Program.OnlyCalls (P : Call → Prop) : Program Call Reply α → Prop
  | .done _ => True
  | .call c next => P c ∧ ∀ reply, (next reply).OnlyCalls P

namespace Program

variable {P : Call → Prop}

/-- Nothing is asked of any call. -/
theorem onlyCalls_true (p : Program Call Reply α) : p.OnlyCalls fun _ => True := by
  induction p with
  | done a => trivial
  | call c next ih => exact ⟨trivial, ih⟩

/-- Sequencing makes the calls of both parts. -/
theorem OnlyCalls.bind {p : Program Call Reply α} {f : α → Program Call Reply β}
    (hp : p.OnlyCalls P) (hf : ∀ a, (f a).OnlyCalls P) : (p >>= f).OnlyCalls P := by
  induction p with
  | done a => exact hf a
  | call c next ih => exact ⟨hp.1, fun reply => ih reply (hp.2 reply)⟩

/-- Calls of one kind are calls of a wider one. -/
theorem OnlyCalls.mono {Q : Call → Prop} {p : Program Call Reply α} (h : p.OnlyCalls P)
    (hPQ : ∀ c, P c → Q c) : p.OnlyCalls Q := by
  induction p with
  | done a => trivial
  | call c next ih => exact ⟨hPQ c h.1, fun reply => ih reply (h.2 reply)⟩

/-- The calls that are made are among those it may make. -/
theorem OnlyCalls.trace {p : Program Call Reply α} (h : p.OnlyCalls P) (answer : ∀ c, Reply c) :
    ∀ c ∈ p.trace answer, P c := by
  induction p with
  | done a => simp [Program.trace]
  | call c next ih =>
    intro c' hc'
    rcases List.mem_cons.mp hc' with rfl | hrest
    · exact h.1
    · exact ih _ (h.2 _) c' hrest

end Program

/-- Whatever it is answered, the program ends in a result that satisfies `Q`. -/
def Program.Yields (Q : α → Prop) : Program Call Reply α → Prop
  | .done a => Q a
  | .call _ next => ∀ reply, (next reply).Yields Q

namespace Program

variable {Q : α → Prop}

/-- Results of one kind are results of a wider one. -/
theorem Yields.mono {R : α → Prop} {p : Program Call Reply α} (h : p.Yields Q)
    (hQR : ∀ a, Q a → R a) : p.Yields R := by
  induction p with
  | done a => exact hQR a h
  | call c next ih => exact fun reply => ih reply (h reply)

/-- The results of a sequence are those of its second part. -/
theorem Yields.bind {R : β → Prop} {p : Program Call Reply α} {f : α → Program Call Reply β}
    (h : p.Yields Q) (hf : ∀ a, Q a → (f a).Yields R) : (p >>= f).Yields R := by
  induction p with
  | done a => exact hf a h
  | call c next ih => exact fun reply => ih reply (h reply)

/-- Nothing is asked of any result. -/
theorem yields_true (p : Program Call Reply α) : p.Yields fun _ => True := by
  induction p with
  | done a => trivial
  | call c next ih => exact ih

end Program

/-- A property of states that neither the program's calls nor the others end holds throughout. -/
theorem invariant_of_onlyCalls {S : System Call Reply σ} {P : Call → Prop} {I : σ → Prop}
    (hcall : ∀ c s reply s', P c → S.perform c s reply s' → I s → I s')
    (hothers : ∀ s s', S.others s s' → I s → I s')
    {p p' : Program Call Reply α} {s s' : σ} (hp : p.OnlyCalls P) (hs : I s)
    (h : Reaches S (p, s) (p', s')) : I s' := by
  have hboth : p'.OnlyCalls P ∧ I s' := by
    refine h.invariant (I := fun x => x.1.OnlyCalls P ∧ I x.2) (fun x y hstep hx => ?_) ⟨hp, hs⟩
    cases hstep with
    | call hperform => exact ⟨hx.1.2 _, hcall _ _ _ _ hx.1.1 hperform hx.2⟩
    | others hothers' => exact ⟨hx.1, hothers _ _ hothers' hx.2⟩
  exact hboth.2

/-! ## What holds along a run without others -/

/-- A system nobody else acts on. -/
def System.Alone (S : System Call Reply σ) : Prop := ∀ s s', ¬S.others s s'

/-- From state `s` on, `I` holds of every state of the program's runs and `Q` of its results. -/
def Program.Ensures (S : System Call Reply σ) (I : σ → Prop) (Q : α → σ → Prop) :
    Program Call Reply α → σ → Prop
  | .done a, s => I s ∧ Q a s
  | .call c next, s => I s ∧ ∀ reply s', S.perform c s reply s' → (next reply).Ensures S I Q s'

namespace Program

variable {S : System Call Reply σ} {I : σ → Prop} {Q : α → σ → Prop}

/-- The invariant holds when the program is to run. -/
theorem Ensures.invariant {p : Program Call Reply α} {s : σ} (h : p.Ensures S I Q s) : I s := by
  cases p with
  | done a => exact h.1
  | call c next => exact h.1

/-- A sequence ensures what its second part does after the first. -/
theorem Ensures.bind {p : Program Call Reply α} {f : α → Program Call Reply β} {R : β → σ → Prop}
    {s : σ} (h : p.Ensures S I (fun a s' => (f a).Ensures S I R s') s) :
    (p >>= f).Ensures S I R s := by
  induction p generalizing s with
  | done a => exact h.2
  | call c next ih => exact ⟨h.1, fun reply s' hperform => ih reply (h.2 reply s' hperform)⟩

/-- A program ensures what its postcondition implies. -/
theorem Ensures.mono {p : Program Call Reply α} {R : α → σ → Prop} {s : σ}
    (h : p.Ensures S I Q s) (hQR : ∀ a s', I s' → Q a s' → R a s') : p.Ensures S I R s := by
  induction p generalizing s with
  | done a => exact ⟨h.1, hQR a s h.1 h.2⟩
  | call c next ih => exact ⟨h.1, fun reply s' hperform => ih reply (h.2 reply s' hperform)⟩

/-- A weaker invariant is kept too. -/
theorem Ensures.weaken {J : σ → Prop} {p : Program Call Reply α} {s : σ} (h : p.Ensures S I Q s)
    (hIJ : ∀ s', I s' → J s') : p.Ensures S J Q s := by
  induction p generalizing s with
  | done a => exact ⟨hIJ s h.1, h.2⟩
  | call c next ih => exact ⟨hIJ s h.1, fun reply s' hperform => ih reply (h.2 reply s' hperform)⟩

/-- Calls that leave the state alone end in the results the program yields. -/
theorem ensures_of_onlyCalls {P : Call → Prop} {Q : α → Prop}
    (hkeep : ∀ c s reply s', P c → S.perform c s reply s' → s' = s)
    {p : Program Call Reply α} {s : σ}
    (hs : I s) (hp : p.OnlyCalls P) (hQ : p.Yields Q) :
    p.Ensures S I (fun a s' => s' = s ∧ Q a) s := by
  induction p with
  | done a => exact ⟨hs, rfl, hQ⟩
  | call c next ih =>
    refine ⟨hs, fun reply s' hperform => ?_⟩
    obtain rfl := hkeep c s reply s' hp.1 hperform
    exact ih reply (hp.2 reply) (hQ reply)

/-- What is ensured holds of every configuration a run reaches. -/
theorem Ensures.reaches (hS : S.Alone) {p p' : Program Call Reply α} {s s' : σ}
    (h : p.Ensures S I Q s) (hrun : Reaches S (p, s) (p', s')) : p'.Ensures S I Q s' := by
  refine hrun.invariant (I := fun x => x.1.Ensures S I Q x.2) (fun x y hstep hx => ?_) h
  cases hstep with
  | call hperform => exact hx.2 _ _ hperform
  | others hothers => exact absurd hothers (hS _ _)

end Program

namespace Fallible

/-- `Program.OnlyCalls` of a program that may fail. -/
def OnlyCalls (P : Call → Prop) (p : Fallible Call Reply ε α) : Prop :=
  Program.OnlyCalls P (ExceptT.run p)

section Calls

variable {P : Call → Prop}

/-- A result makes no call. -/
theorem onlyCalls_pure (a : α) : OnlyCalls P (pure a : Fallible Call Reply ε α) := trivial

/-- An error makes no call. -/
theorem onlyCalls_throw (e : ε) : OnlyCalls P (throw e : Fallible Call Reply ε α) := trivial

/-- Sequencing makes the calls of both parts. -/
theorem onlyCalls_bind {p : Fallible Call Reply ε α} {f : α → Fallible Call Reply ε β}
    (hp : OnlyCalls P p) (hf : ∀ a, OnlyCalls P (f a)) : OnlyCalls P (p >>= f) := by
  refine Program.OnlyCalls.bind hp fun result => ?_
  cases result with
  | ok a => exact hf a
  | error e => trivial

/-- A call is one of its kind. -/
theorem onlyCalls_ask {Reply : Call → Type} {c : Call} (h : P c) :
    OnlyCalls P (ask c : Fallible Call (fun c => Except ε (Reply c)) ε (Reply c)) :=
  ⟨h, fun _ => trivial⟩

end Calls

/-- `Program.Yields` of a program that may fail: what is asked of its results that are no errors. -/
def Yields (Q : α → Prop) (p : Fallible Call Reply ε α) : Prop :=
  Program.Yields (fun result => ∀ a, result = .ok a → Q a) (ExceptT.run p)

section Results

variable {Q : α → Prop}

/-- A result is of its kind. -/
theorem yields_pure {a : α} (h : Q a) : Yields Q (pure a : Fallible Call Reply ε α) := by
  rintro _ ⟨⟩
  exact h

/-- An error is no result. -/
theorem yields_throw (e : ε) : Yields Q (throw e : Fallible Call Reply ε α) := by
  rintro _ ⟨⟩

/-- Nothing is asked of any result. -/
theorem yields_true (p : Fallible Call Reply ε α) : Yields (fun _ => True) p :=
  (Program.yields_true (ExceptT.run p)).mono fun _ _ _ _ => trivial

/-- The results of a sequence are those of its second part. -/
theorem yields_bind {R : β → Prop} {p : Fallible Call Reply ε α} {f : α → Fallible Call Reply ε β}
    (hp : Yields Q p) (hf : ∀ a, Q a → Yields R (f a)) : Yields R (p >>= f) := by
  refine Program.Yields.bind hp fun result hresult => ?_
  cases result with
  | ok a => exact hf a (hresult a rfl)
  | error e =>
    rintro _ ⟨⟩

end Results

/-- `Program.Ensures` of a program that may fail. -/
def Ensures (S : System Call Reply σ) (I : σ → Prop) (Q : Except ε α → σ → Prop)
    (p : Fallible Call Reply ε α) (s : σ) : Prop := Program.Ensures S I Q (ExceptT.run p) s

variable {S : System Call Reply σ} {I : σ → Prop} {s : σ}

/-- A result ensures what holds of it. -/
theorem ensures_pure {Q : Except ε α → σ → Prop} {a : α} (hI : I s) (hQ : Q (.ok a) s) :
    Ensures S I Q (pure a : Fallible Call Reply ε α) s := ⟨hI, hQ⟩

/-- An error ensures what holds of it. -/
theorem ensures_throw {Q : Except ε α → σ → Prop} {e : ε} (hI : I s) (hQ : Q (.error e) s) :
    Ensures S I Q (throw e : Fallible Call Reply ε α) s := ⟨hI, hQ⟩

/-- A sequence ensures what its second part does after a result, and what is asked after an
error of its first. -/
theorem ensures_bind {p : Fallible Call Reply ε α} {f : α → Fallible Call Reply ε β}
    {Q : Except ε β → σ → Prop}
    (h : Ensures S I (fun result s' =>
      match result with
      | .ok a => Ensures S I Q (f a) s'
      | .error e => Q (.error e) s') p s) : Ensures S I Q (p >>= f) s := by
  refine Program.Ensures.bind (h.mono fun result s' hI hresult => ?_)
  cases result with
  | ok a => exact hresult
  | error e => exact ⟨hI, hresult⟩

/-- A sequence whose first part leaves the state alone ensures what its second part does after what
the first yields. -/
theorem ensures_bind_of_onlyCalls {P : Call → Prop} {R : α → Prop}
    (hkeep : ∀ c s reply s', P c → S.perform c s reply s' → s' = s) (hs : I s)
    {p : Fallible Call Reply ε α} {f : α → Fallible Call Reply ε β} {Q : Except ε β → σ → Prop}
    (hp : OnlyCalls P p) (hR : Yields R p) (hf : ∀ a, R a → Ensures S I Q (f a) s)
    (herror : ∀ e, Q (.error e) s) : Ensures S I Q (p >>= f) s := by
  refine ensures_bind ((Program.ensures_of_onlyCalls hkeep hs hp hR).mono
    fun result s' _ hresult => ?_)
  obtain ⟨rfl, hyields⟩ := hresult
  cases result with
  | ok a => exact hf a (hyields a rfl)
  | error e => exact herror e

/-- A call ensures what all its answers do. -/
theorem ensures_ask {Reply : Call → Type} {S : System Call (fun c => Except ε (Reply c)) σ}
    {I : σ → Prop} {s : σ} {c : Call} {Q : Except ε (Reply c) → σ → Prop} (hI : I s)
    (h : ∀ reply s', S.perform c s reply s' → I s' ∧ Q reply s') :
    Ensures S I Q (ask c) s := ⟨hI, h⟩

end Fallible

end Interaction
