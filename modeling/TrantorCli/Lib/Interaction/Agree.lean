import TrantorCli.Lib.Interaction.Interp

/-!
# Programs that do the same on two systems

Two programs agree when they make corresponding calls in the same order and, told
corresponding answers, end in corresponding results. Agreement is kept by
sequencing and by interpretation, and systems on which corresponding calls act
alike then have the same runs of both programs.
-/

namespace Interaction

variable {Call Call' Op Op' : Type} {Reply : Call → Type} {Reply' : Call' → Type}
  {Outcome : Op → Type} {Outcome' : Op' → Type} {α β γ δ ε σ σ' : Type}

/-- Which calls of two languages correspond, and how their answers are then related. -/
abbrev Correspondence (Call Call' : Type) (Reply : Call → Type) (Reply' : Call' → Type) :=
  ∀ (c : Call) (c' : Call'), (Reply c → Reply' c' → Prop) → Prop

/-- The two programs make corresponding calls in the same order and end in results related by
`Q`. -/
inductive Program.Agree (T : Correspondence Call Call' Reply Reply') (Q : α → β → Prop) :
    Program Call Reply α → Program Call' Reply' β → Prop where
  | done {a : α} {b : β} (h : Q a b) : Agree T Q (.done a) (.done b)
  | call {c : Call} {c' : Call'} {R : Reply c → Reply' c' → Prop}
      {next : Reply c → Program Call Reply α} {next' : Reply' c' → Program Call' Reply' β}
      (hcall : T c c' R) (hnext : ∀ reply reply', R reply reply' →
        Agree T Q (next reply) (next' reply')) : Agree T Q (.call c next) (.call c' next')

namespace Program

variable {T : Correspondence Call Call' Reply Reply'} {Q : α → β → Prop}
  {p : Program Call Reply α} {p' : Program Call' Reply' β}

/-- Programs that agree do so in less. -/
theorem Agree.mono {R : α → β → Prop} (h : Agree T Q p p') (hQR : ∀ a b, Q a b → R a b) :
    Agree T R p p' := by
  induction h with
  | done h => exact .done (hQR _ _ h)
  | call hcall _ ih => exact .call hcall ih

/-- Agreement is kept by sequencing. -/
theorem Agree.bind {R : γ → δ → Prop} {f : α → Program Call Reply γ}
    {f' : β → Program Call' Reply' δ} (h : Agree T Q p p')
    (hf : ∀ a b, Q a b → Agree T R (f a) (f' b)) : Agree T R (p >>= f) (p' >>= f') := by
  induction h with
  | done h => exact hf _ _ h
  | call hcall _ ih => exact .call hcall ih

/-- Handlers that agree on corresponding calls turn programs that agree into programs that agree. -/
theorem Agree.interp {U : Correspondence Op Op' Outcome Outcome'} {p : Program Op Outcome α}
    {p' : Program Op' Outcome' β} {h : Handler Op Call Outcome Reply}
    {h' : Handler Op' Call' Outcome' Reply'} (hagree : Agree U Q p p')
    (hh : ∀ op op' R, U op op' R → Agree T R (h op) (h' op')) :
    Agree T Q (p.interp h) (p'.interp h') := by
  induction hagree with
  | done hab => exact .done hab
  | call hcall _ ih => exact (hh _ _ _ hcall).bind ih

end Program

/-! ## Runs -/

/-- What the first system does, the second can do on corresponding calls from related states. -/
structure Simulates (T : Correspondence Call Call' Reply Reply') (S : System Call Reply σ)
    (S' : System Call' Reply' σ') (related : σ → σ' → Prop) : Prop where
  perform : ∀ c c' R, T c c' R → ∀ s s' reply t, related s s' → S.perform c s reply t →
    ∃ reply' t', S'.perform c' s' reply' t' ∧ R reply reply' ∧ related t t'
  others : ∀ s s' t, related s s' → S.others s t → ∃ t', S'.others s' t' ∧ related t t'

/-- A run of one of two programs that agree is matched by a run of the other. -/
theorem Program.Agree.reaches {T : Correspondence Call Call' Reply Reply'} {Q : α → β → Prop}
    {S : System Call Reply σ} {S' : System Call' Reply' σ'} {related : σ → σ' → Prop}
    (hS : Simulates T S S' related) {p q : Program Call Reply α} {p' : Program Call' Reply' β}
    {s t : σ} {s' : σ'} (h : Agree T Q p p') (hs : related s s')
    (hrun : Reaches S (p, s) (q, t)) :
    ∃ q' t', Reaches S' (p', s') (q', t') ∧ Agree T Q q q' ∧ related t t' := by
  have hsteps : ∀ y, Reaches S (p, s) y →
      ∃ q' t', Reaches S' (p', s') (q', t') ∧ Agree T Q y.1 q' ∧ related y.2 t' := by
    intro y hy
    induction hy with
    | refl => exact ⟨p', s', .refl, h, hs⟩
    | tail _ hstep ih =>
      obtain ⟨q', t', hrun', hagree, ht⟩ := ih
      cases hstep with
      | call hperform =>
        cases hagree with
        | call hcall hnext =>
          obtain ⟨reply', u', hperform', hreply, hu⟩ := hS.perform _ _ _ hcall _ _ _ _ ht hperform
          exact ⟨_, u', hrun'.tail (.call hperform'), hnext _ _ hreply, hu⟩
      | others hothers =>
        obtain ⟨u', hothers', hu⟩ := hS.others _ _ _ ht hothers
        exact ⟨q', u', hrun'.tail (.others hothers'), hagree, hu⟩
  exact hsteps (q, t) hrun

/-- The correspondence read the other way. -/
def Correspondence.flip (T : Correspondence Call Call' Reply Reply') :
    Correspondence Call' Call Reply' Reply :=
  fun c' c R => ∃ R₀, T c c' R₀ ∧ ∀ reply reply', R reply' reply ↔ R₀ reply reply'

/-- Agreement read the other way round. -/
theorem Program.Agree.flip {T : Correspondence Call Call' Reply Reply'} {Q : α → β → Prop}
    {p : Program Call Reply α} {p' : Program Call' Reply' β} (h : Agree T Q p p') :
    Agree T.flip (fun b a => Q a b) p' p := by
  induction h with
  | done h => exact .done h
  | @call c c' R next next' hcall _ ih =>
    exact .call (R := fun reply' reply => R reply reply') ⟨R, hcall, fun _ _ => Iff.rfl⟩
      fun reply' reply hreply => ih reply reply' hreply

/-- Two systems over one kind of states do the same on corresponding calls, in every state that
satisfies `I`, and leave such a state. -/
structure ActAlike (T : Correspondence Call Call' Reply Reply') (I : σ → Prop)
    (S : System Call Reply σ) (S' : System Call' Reply' σ) : Prop where
  left : ∀ c c' R, T c c' R → ∀ s reply t, I s → S.perform c s reply t →
    I t ∧ ∃ reply', S'.perform c' s reply' t ∧ R reply reply'
  right : ∀ c c' R, T c c' R → ∀ s reply' t, I s → S'.perform c' s reply' t →
    I t ∧ ∃ reply, S.perform c s reply t ∧ R reply reply'
  others : ∀ s t, I s → (S.others s t ↔ S'.others s t)
  kept : ∀ s t, I s → S.others s t → I t

variable {T : Correspondence Call Call' Reply Reply'} {I : σ → Prop} {S : System Call Reply σ}
  {S' : System Call' Reply' σ}

private theorem ActAlike.flip (h : ActAlike T I S S') : ActAlike T.flip I S' S := by
  refine ⟨?_, ?_, fun s t hs => (h.others s t hs).symm, fun s t hs hothers => ?_⟩
  · rintro c' c R ⟨R₀, hcall, hR⟩ s reply' t hs hperform
    obtain ⟨ht, reply, hperform', hreply⟩ := h.right c c' R₀ hcall s reply' t hs hperform
    exact ⟨ht, reply, hperform', (hR _ _).mpr hreply⟩
  · rintro c' c R ⟨R₀, hcall, hR⟩ s reply t hs hperform
    obtain ⟨ht, reply', hperform', hreply⟩ := h.left c c' R₀ hcall s reply t hs hperform
    exact ⟨ht, reply', hperform', (hR _ _).mpr hreply⟩
  · exact h.kept s t hs ((h.others s t hs).mpr hothers)

namespace Fallible

variable {E : ε → ε → Prop} {Q : α → β → Prop}

/-- Both fail with errors related by `E`, or both succeed with results related by `Q`. -/
def SameResult (E : ε → ε → Prop) (Q : α → β → Prop) : Except ε α → Except ε β → Prop
  | .ok a, .ok b => Q a b
  | .error e, .error e' => E e e'
  | _, _ => False

/-- Two related results succeed alike or fail alike. -/
theorem SameResult.cases {result : Except ε α} {result' : Except ε β}
    (h : SameResult E Q result result') :
    (∃ a b, result = .ok a ∧ result' = .ok b ∧ Q a b) ∨
      ∃ e e', result = .error e ∧ result' = .error e' ∧ E e e' := by
  match result, result', h with
  | .ok a, .ok b, hab => exact .inl ⟨a, b, rfl, rfl, hab⟩
  | .error e, .error e', he => exact .inr ⟨e, e', rfl, rfl, he⟩

/-- `Program.Agree` of programs that may fail. -/
def Agree (T : Correspondence Call Call' Reply Reply') (E : ε → ε → Prop) (Q : α → β → Prop)
    (p : Fallible Call Reply ε α) (p' : Fallible Call' Reply' ε β) : Prop :=
  Program.Agree T (SameResult E Q) (ExceptT.run p) (ExceptT.run p')

end Fallible

end Interaction
