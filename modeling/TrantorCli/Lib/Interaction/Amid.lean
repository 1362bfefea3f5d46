import TrantorCli.Lib.Interaction.Run

/-!
# What a program leaves behind amid others

Others may act before every call and after the last one. A program ensures a
postcondition amid them when it holds whatever they do in between.
-/

namespace Interaction

variable {Call : Type} {Reply : Call → Type} {σ α β ε : Type} {S : System Call Reply σ}

/-- What the others may have done. -/
abbrev System.Meanwhile (S : System Call Reply σ) : σ → σ → Prop := Relation.ReflTransGen S.others

/-- What others keep holds whatever they do in the meantime. -/
theorem System.Meanwhile.keeps {I : σ → Prop} {s t : σ} (h : S.Meanwhile s t)
    (hothers : ∀ s t, I s → S.others s t → I t) (hs : I s) : I t := by
  induction h with
  | refl => exact hs
  | tail _ hlast ih => exact hothers _ _ ih hlast

/-- From state `s` on, every result comes with a state that satisfies `Q`, whatever others do. -/
def Program.EnsuresAmid (S : System Call Reply σ) (Q : α → σ → Prop) :
    Program Call Reply α → σ → Prop
  | .done a, s => ∀ t, S.Meanwhile s t → Q a t
  | .call c next, s => ∀ t, S.Meanwhile s t → ∀ reply t', S.perform c t reply t' →
    (next reply).EnsuresAmid S Q t'

namespace Program

variable {Q : α → σ → Prop} {s t : σ}

/-- What others do first changes nothing about it. -/
theorem EnsuresAmid.meanwhile {p : Program Call Reply α} (h : p.EnsuresAmid S Q s)
    (hst : S.Meanwhile s t) : p.EnsuresAmid S Q t := by
  cases p with
  | done a => exact fun u htu => h u (hst.trans htu)
  | call c next => exact fun u htu => h u (hst.trans htu)

/-- A program ensures what its postcondition implies. -/
theorem EnsuresAmid.mono {R : α → σ → Prop} {p : Program Call Reply α} (h : p.EnsuresAmid S Q s)
    (hQR : ∀ a t, Q a t → R a t) : p.EnsuresAmid S R s := by
  induction p generalizing s with
  | done a => exact fun t hst => hQR a t (h t hst)
  | call c next ih => exact fun t hst reply t' hperform => ih reply (h t hst reply t' hperform)

/-- A sequence ensures what its second part does from where the first left. -/
theorem EnsuresAmid.bind {R : β → σ → Prop} {p : Program Call Reply α}
    {f : α → Program Call Reply β}
    (h : p.EnsuresAmid S (fun a t => (f a).EnsuresAmid S R t) s) : (p >>= f).EnsuresAmid S R s := by
  induction p generalizing s with
  | done a => exact h s .refl
  | call c next ih => exact fun t hst reply t' hperform => ih reply (h t hst reply t' hperform)

/-- What neither the calls of a program nor others end holds when it is done. -/
theorem ensuresAmid_of_onlyCalls {P : Call → Prop} {I : σ → Prop}
    (hcall : ∀ c s reply s', P c → S.perform c s reply s' → I s → I s')
    (hothers : ∀ s t, I s → S.others s t → I t) {p : Program Call Reply α} (hp : p.OnlyCalls P)
    (hs : I s) : p.EnsuresAmid S (fun _ t => I t) s := by
  induction p generalizing s with
  | done a => exact fun t hst => hst.keeps hothers hs
  | call c next ih =>
    exact fun t hst reply t' hperform =>
      ih reply (hp.2 reply) (hcall c t reply t' hp.1 hperform (hst.keeps hothers hs))

/-- A program ensures both of what it ensures. -/
theorem EnsuresAmid.and {R : α → σ → Prop} {p : Program Call Reply α} (hQ : p.EnsuresAmid S Q s)
    (hR : p.EnsuresAmid S R s) : p.EnsuresAmid S (fun a t => Q a t ∧ R a t) s := by
  induction p generalizing s with
  | done a => exact fun t hst => ⟨hQ t hst, hR t hst⟩
  | call c next ih =>
    exact fun t hst reply t' hperform =>
      ih reply (hQ t hst reply t' hperform) (hR t hst reply t' hperform)

/-- While others act the program stays where it is. -/
theorem reaches_of_meanwhile (p : Program Call Reply α)  (h : S.Meanwhile s t) :
    Reaches S (p, s) (p, t) := by
  induction h with
  | refl => exact .refl
  | tail _ hothers ih => exact ih.tail (.others hothers)

/-- A run goes on after what others did and the answer to its first call. -/
theorem reaches_call {c : Call} {next : Reply c → Program Call Reply α} {s s₁ s₂ t : σ}
    {reply : Reply c} {a : α} (hs : S.Meanwhile s s₁) (hcall : S.perform c s₁ reply s₂)
    (h : Reaches S (next reply, s₂) (.done a, t)) : Reaches S (.call c next, s) (.done a, t) :=
  ((reaches_of_meanwhile _ hs).tail (.call hcall)).trans h

/-- What is left amid others is left by a run. -/
theorem ensuresAmid_reaches (p : Program Call Reply α) (s : σ) :
    p.EnsuresAmid S (fun a t => Reaches S (p, s) (.done a, t)) s := by
  induction p generalizing s with
  | done a => exact fun t hst => reaches_of_meanwhile _ hst
  | call c next ih =>
    intro s₁ hs reply s₂ hcall
    exact (ih reply s₂).mono fun a t hrun => reaches_call hs hcall hrun

/-- What is ensured amid others holds when a run ends. -/
theorem EnsuresAmid.reaches {p : Program Call Reply α} {a : α} (h : p.EnsuresAmid S Q s)
    (hrun : Reaches S (p, s) (.done a, t)) : Q a t := by
  have hlast : (Program.done a : Program Call Reply α).EnsuresAmid S Q t := by
    refine hrun.invariant (I := fun x => x.1.EnsuresAmid S Q x.2) (fun x y hstep hx => ?_) h
    cases hstep with
    | call hperform => exact hx _ .refl _ _ hperform
    | others hothers => exact hx.meanwhile (.single hothers)
  exact hlast t .refl

end Program

namespace Fallible

/-- `Program.EnsuresAmid` of a program that may fail. -/
def EnsuresAmid (S : System Call Reply σ) (Q : Except ε α → σ → Prop) (p : Fallible Call Reply ε α)
    (s : σ) : Prop := Program.EnsuresAmid S Q (ExceptT.run p) s

variable {Q : Except ε α → σ → Prop} {s : σ}

/-- A sequence ensures what its second part does after a result, and what is asked after an error
of its first. -/
theorem ensuresAmid_bind {p : Fallible Call Reply ε α} {f : α → Fallible Call Reply ε β}
    {R : Except ε β → σ → Prop}
    (h : EnsuresAmid S (fun result t =>
      match result with
      | .ok a => EnsuresAmid S R (f a) t
      | .error e => ∀ u, S.Meanwhile t u → R (.error e) u) p s) : EnsuresAmid S R (p >>= f) s := by
  refine Program.EnsuresAmid.bind (Program.EnsuresAmid.mono h fun result t hresult => ?_)
  cases result with
  | ok a => exact hresult
  | error e => exact hresult

end Fallible

end Interaction
