import TrantorCli.Lib.Interaction.Relying

/-!
# What a run was told

A run can be recorded call by call, each with its answer. A program that relies on
what is known, whatever that is, then goes by nothing but the answers on record,
and cannot tell systems apart that answer the calls alike that these allow.
-/

namespace Interaction

variable {Call : Type} {Reply : Call → Type} {α σ σ' : Type}

/-- A call and the answer to it. -/
abbrev Told (Call : Type) (Reply : Call → Type) := (c : Call) × Reply c

/-- The system, and beside its state the calls answered so far, the last one first. -/
def System.traced (S : System Call Reply σ) : System Call Reply (σ × List (Told Call Reply)) where
  perform c s reply t := S.perform c s.1 reply t.1 ∧ t.2 = ⟨c, reply⟩ :: s.2
  others s t := S.others s.1 t.1 ∧ t.2 = s.2

variable {S : System Call Reply σ}

/-- Every run can be recorded. -/
theorem Reaches.traced {p q : Program Call Reply α} {s t : σ} (h : Reaches S (p, s) (q, t))
    (told : List (Told Call Reply)) :
    ∃ told', Reaches S.traced (p, (s, told)) (q, (t, told')) := by
  have hsteps : ∀ y, Reaches S (p, s) y →
      ∃ told', Reaches S.traced (p, (s, told)) (y.1, (y.2, told')) := by
    intro y hy
    induction hy with
    | refl => exact ⟨told, .refl⟩
    | tail _ hstep ih =>
      obtain ⟨told', hrun⟩ := ih
      cases hstep with
      | call hperform => exact ⟨_, hrun.tail (.call ⟨hperform, rfl⟩)⟩
      | others hothers => exact ⟨told', hrun.tail (.others ⟨hothers, rfl⟩)⟩
  exact hsteps (q, t) h

/-- The system in which no call is answered as `odd` says. -/
def System.unless (S : System Call Reply σ) (odd : Told Call Reply → Prop) :
    System Call Reply σ where
  perform c s reply t := S.perform c s reply t ∧ ¬odd ⟨c, reply⟩
  others := S.others

/-- A run with nothing odd on record is one of the system without it. -/
theorem Reaches.unless {odd : Told Call Reply → Prop} {p q : Program Call Reply α} {s t : σ}
    {told told' : List (Told Call Reply)}
    (hrun : Reaches S.traced (p, (s, told)) (q, (t, told')))
    (hodd : ∀ entry ∈ told', ¬odd entry) : Reaches (S.unless odd) (p, s) (q, t) := by
  have hsteps : ∀ y, Reaches S.traced (p, (s, told)) y → (∀ entry ∈ y.2.2, ¬odd entry) →
      Reaches (S.unless odd) (p, s) (y.1, y.2.1) := by
    intro y hy
    induction hy with
    | refl => exact fun _ => .refl
    | @tail y z _ hstep ih =>
      obtain ⟨r, u, answers⟩ := y
      obtain ⟨r', u', answers'⟩ := z
      intro hnone
      cases hstep with
      | call hperform =>
        obtain ⟨hperform, rfl⟩ := hperform
        have hbefore := ih fun entry hentry => hnone entry (List.mem_cons_of_mem _ hentry)
        exact hbefore.tail (.call ⟨hperform, hnone _ List.mem_cons_self⟩)
      | others hothers =>
        obtain ⟨hothers, rfl⟩ := hothers
        exact (ih hnone).tail (.others hothers)
  exact hsteps (q, (t, told')) hrun hodd

namespace Program

variable {guar : (Told Call Reply → Prop) → Call → Prop}

/-- Relying only on answers that are known, the program makes calls that these allow. -/
abbrev Knowing (guar : (Told Call Reply → Prop) → Call → Prop) (known : Told Call Reply → Prop)
    (p : Program Call Reply α) : Prop :=
  p.Relying (fun c reply => known ⟨c, reply⟩) (guar known) fun _ => True

/-- What is left of a program goes by what is known once the answers on record are. -/
theorem Knowing.reaches {p q : Program Call Reply α} {s t : σ} {told told' : List (Told Call Reply)}
    (hp : ∀ known, (∀ entry ∈ told, known entry) → p.Knowing guar known)
    (hrun : Reaches S.traced (p, (s, told)) (q, (t, told'))) :
    ∀ known, (∀ entry ∈ told', known entry) → q.Knowing guar known := by
  apply hrun.invariant
    (I := fun x => ∀ known, (∀ entry ∈ x.2.2, known entry) → x.1.Knowing guar known) _ hp
  rintro ⟨p, s, told⟩ ⟨q, t, told'⟩ hstep ih known hknown
  cases hstep with
  | call hperform =>
    obtain ⟨-, rfl⟩ := hperform
    have hall := ih known fun entry hentry => hknown entry (List.mem_cons_of_mem _ hentry)
    exact hall.2 _ (hknown _ List.mem_cons_self)
  | others hothers =>
    obtain ⟨-, rfl⟩ := hothers
    exact ih known hknown

/-- At every moment the next call is one that the answers on record allow. -/
theorem Knowing.next {p : Program Call Reply α} {s t : σ} {told : List (Told Call Reply)} {c : Call}
    {next : Reply c → Program Call Reply α} (hp : ∀ known, p.Knowing guar known)
    (hrun : Reaches S.traced (p, (s, [])) (.call c next, (t, told))) : guar (· ∈ told) c :=
  (Knowing.reaches (fun known _ => hp known) hrun (· ∈ told) fun _ h => h).1

end Program

/-! ## What a run can tell -/

/-- The first system is matched by the second in the calls that the answers so far allow, and in
what others do, as long as they are alike after those answers. -/
structure AlikeFor (guar : (Told Call Reply → Prop) → Call → Prop) (S : System Call Reply σ)
    (S' : System Call Reply σ') (alike : List (Told Call Reply) → σ → σ' → Prop) : Prop where
  perform : ∀ told c s s' reply t, guar (· ∈ told) c → alike told s s' → S.perform c s reply t →
    ∃ t', S'.perform c s' reply t' ∧ alike (⟨c, reply⟩ :: told) t t'
  others : ∀ told s s' t, alike told s s' → S.others s t → ∃ t', S'.others s' t' ∧ alike told t t'

/-- What a run leaves to do on one system, it leaves to do on every one that is alike. -/
theorem Program.Knowing.reaches_alike {guar : (Told Call Reply → Prop) → Call → Prop}
    {S' : System Call Reply σ'} {alike : List (Told Call Reply) → σ → σ' → Prop}
    (halike : AlikeFor guar S S' alike) {p q : Program Call Reply α} {s t : σ} {s' : σ'}
    (hp : ∀ known, p.Knowing guar known) (hs : alike [] s s') (hrun : Reaches S (p, s) (q, t)) :
    ∃ told t', Reaches S' (p, s') (q, t') ∧ alike told t t' := by
  have hsteps : ∀ y, Reaches S (p, s) y → ∃ told t', Reaches S' (p, s') (y.1, t') ∧
      alike told y.2 t' ∧ ∀ known, (∀ entry ∈ told, known entry) → y.1.Knowing guar known := by
    intro y hy
    induction hy with
    | refl => exact ⟨[], s', .refl, hs, fun known _ => hp known⟩
    | tail _ hstep ih =>
      obtain ⟨told, u, hrun', hu, hknowing⟩ := ih
      cases hstep with
      | @call c next _ _ reply hperform =>
        obtain ⟨t', hperform', ht'⟩ :=
          halike.perform told c _ _ _ _ (hknowing (· ∈ told) fun _ h => h).1 hu hperform
        refine ⟨⟨c, reply⟩ :: told, t', hrun'.tail (.call hperform'), ht', fun known hknown => ?_⟩
        have hall := hknowing known fun entry hentry => hknown entry (List.mem_cons_of_mem _ hentry)
        exact hall.2 _ (hknown _ List.mem_cons_self)
      | others hothers =>
        obtain ⟨t', hothers', ht'⟩ := halike.others told _ _ _ hu hothers
        exact ⟨told, t', hrun'.tail (.others hothers'), ht', hknowing⟩
  obtain ⟨told, t', hrun', ht', -⟩ := hsteps (q, t) hrun
  exact ⟨told, t', hrun', ht'⟩

end Interaction
