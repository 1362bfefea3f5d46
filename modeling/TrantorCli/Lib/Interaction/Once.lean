import TrantorCli.Lib.Interaction.Amid
import TrantorCli.Lib.Interaction.Interp
import TrantorCli.Lib.Interaction.Relying

/-!
# A value that is found once

Some programs ask for a value that is found by the first one to ask and kept from
then on. Finding it only looks at the state, so each run is one in which the value
was given from the start, and it is found in at most one place of the run.
-/

namespace Interaction

variable {Call : Type} {Reply : Call → Type} {V σ α β : Type}

/-- The calls of a language, and the question for a value. -/
inductive Asking (Call : Type) where
  | value
  | own (c : Call)

/-- What a program that asks for a `V` is told. -/
def AskingReply (Reply : Call → Type) (V : Type) : Asking Call → Type
  | .value => V
  | .own c => Reply c

/-- The value is the same at every question. -/
def given (v : V) : Handler (Asking Call) Call (AskingReply Reply V) Reply
  | .value => Program.done v
  | .own c => Program.ask c

/-- A program of a language among those that may ask for a value. -/
def owned : Handler Call (Asking Call) Reply (AskingReply Reply V) := fun c =>
  Program.ask (Asking.own c)

/-- The call is one of the language's that satisfies `P`, or the question. -/
def Asking.Owns (P : Call → Prop) : Asking Call → Prop
  | .value => True
  | .own c => P c

namespace Program

/-- The value is found by `init` when it is first asked for, and kept in the cell. -/
def once : Program (Asking Call) (AskingReply Reply V) α → Program Call Reply V → Option V →
    Program Call Reply (α × Option V)
  | done a, _, cell => done (a, cell)
  | call (.own c) next, init, cell => call c fun reply => (next reply).once init cell
  | call .value next, init, some v => (next v).once init (some v)
  | call .value next, init, none => init >>= fun v => (next v).once init (some v)

/-- A program of the language takes no notice of the value. -/
theorem interp_owned (v : V) (p : Program Call Reply α) :
    (p.interp owned).interp (given v) = p := by
  induction p with
  | done a => rfl
  | call c next ih => exact congrArg (call c) (funext ih)

/-! ## What a run leaves -/

variable {S : System Call Reply σ}

/-- The result and the cell are those of a run in which the value was given from the start: the
one in the cell, or any while the cell is empty. -/
def OfGiven (S : System Call Reply σ) (p : Program (Asking Call) (AskingReply Reply V) α) (s : σ)
    (result : α × Option V) (t : σ) : Prop :=
  ∀ v, (∀ w, result.2 = some w → w = v) → Reaches S (p.interp (given v), s) (.done result.1, t)

/-- On its way from `x` to `y` the run finds `v` by `init`. -/
def Finds (S : System Call Reply σ) (init : Program Call Reply V) (v : V)
    (x y : Program Call Reply β × σ) : Prop :=
  ∃ k u u', Reaches S x (init >>= k, u) ∧ Reaches S (init, u) (.done v, u') ∧
    Reaches S (k v, u') y

private theorem Finds.head {init : Program Call Reply V} {v : V} {x x' y : Program Call Reply β × σ}
    (hx : Reaches S x x') (h : Finds S init v x' y) : Finds S init v x y := by
  obtain ⟨k, u, u', hbefore, hfound, hafter⟩ := h
  exact ⟨k, u, u', hx.trans hbefore, hfound, hafter⟩

/-- What is in the cell stays there, and what a run puts there it has found by `init`. -/
structure CellKept (S : System Call Reply σ) (init : Program Call Reply V) (cell : Option V)
    (x : Program Call Reply (α × Option V) × σ) (result : α × Option V) (t : σ) : Prop where
  kept : ∀ v, cell = some v → result.2 = some v
  found : ∀ v, result.2 = some v → cell = some v ∨ Finds S init v x (.done result, t)

private theorem CellKept.head {init : Program Call Reply V} {cell : Option V}
    {x x' : Program Call Reply (α × Option V) × σ} {result : α × Option V} {t : σ}
    (hx : Reaches S x x') (h : CellKept S init cell x' result t) :
    CellKept S init cell x result t :=
  ⟨h.kept, fun v hv => (h.found v hv).imp_right (Finds.head hx)⟩

variable {P : Call → Prop} {init : Program Call Reply V}

/-- Whatever others do, the program leaves what it would if the value had been given. -/
theorem once_ensuresAmid (hkeep : ∀ c s reply t, P c → S.perform c s reply t → t = s)
    (hinit : init.OnlyCalls P) (cell : Option V)
    (p : Program (Asking Call) (AskingReply Reply V) α) (s : σ) :
    (p.once init cell).EnsuresAmid S (fun result t =>
      CellKept S init cell (p.once init cell, s) result t ∧ OfGiven S p s result t) s := by
  induction p generalizing cell s with
  | done a =>
    intro t hst
    exact ⟨⟨fun _ h => h, fun _ h => .inl h⟩, fun v _ => reaches_of_meanwhile _ hst⟩
  | call c next ih =>
    cases c with
    | own c =>
      intro s₁ hs reply s₂ hcall
      apply (ih reply cell s₂).mono
      rintro result t ⟨hcell, hrun⟩
      constructor
      · exact hcell.head ((reaches_of_meanwhile _ hs).tail (.call hcall))
      · exact fun v hv => reaches_call hs hcall (hrun v hv)
    | value =>
      cases cell with
      | some v =>
        apply (ih v (some v) s).mono
        rintro result t ⟨hcell, hrun⟩
        apply And.intro hcell
        intro w hw
        obtain rfl := hw v (hcell.kept v rfl)
        exact hrun v hw
      | none =>
        have hquiet : init.EnsuresAmid S (fun _ u => S.Meanwhile s u) s := by
          apply ensuresAmid_of_onlyCalls (P := P) _ _ hinit .refl
          · intro c u reply u' hc hperform hu
            exact hkeep c u reply u' hc hperform ▸ hu
          · exact fun u u' hu hothers => hu.tail hothers
        apply EnsuresAmid.bind
        apply ((ensuresAmid_reaches init s).and hquiet).mono
        rintro v u ⟨hfound, hsu⟩
        apply ((ih v (some v) u).and (ensuresAmid_reaches _ u)).mono
        rintro result t ⟨⟨hcell, hrun⟩, hafter⟩
        constructor
        · refine ⟨by simp, fun w hw => .inr ?_⟩
          obtain rfl : v = w := by simpa [hcell.kept v rfl] using hw
          exact ⟨fun v => (next v).once init (some v), s, u, .refl, hfound, hafter⟩
        · intro w hw
          obtain rfl := hw v (hcell.kept v rfl)
          exact (reaches_of_meanwhile _ hsu).trans (hrun v hw)

/-! ## How often a call is made -/

/-- Along every branch at most `n` of the calls satisfy `P`. -/
inductive CallsAtMost (P : Call → Prop) : Nat → Program Call Reply α → Prop where
  | done {n : Nat} (a : α) : CallsAtMost P n (.done a)
  | counted {n : Nat} {c : Call} {next : Reply c → Program Call Reply α}
      (h : ∀ reply, CallsAtMost P n (next reply)) : CallsAtMost P (n + 1) (.call c next)
  | other {n : Nat} {c : Call} {next : Reply c → Program Call Reply α} (hc : ¬P c)
      (h : ∀ reply, CallsAtMost P n (next reply)) : CallsAtMost P n (.call c next)

private theorem CallsAtMost.mono {n m : Nat} {p : Program Call Reply α} (h : p.CallsAtMost P n)
    (hnm : n ≤ m) : p.CallsAtMost P m := by
  induction h generalizing m with
  | done a => exact .done a
  | counted _ ih =>
    obtain ⟨m, rfl⟩ := Nat.exists_eq_add_of_le' (Nat.le_trans (Nat.le_add_left 1 _) hnm)
    exact .counted fun reply => ih reply (Nat.le_of_succ_le_succ hnm)
  | other hc _ ih => exact .other hc fun reply => ih reply hnm

private theorem CallsAtMost.bind {n m : Nat} {p : Program Call Reply α}
    {f : α → Program Call Reply β}
    (hp : p.CallsAtMost P n) (hf : ∀ a, (f a).CallsAtMost P m) :
    (p >>= f).CallsAtMost P (m + n) := by
  induction hp with
  | done a => exact (hf a).mono (Nat.le_add_right m _)
  | counted _ ih => exact .counted ih
  | other hc _ ih => exact .other hc ih

private theorem callsAtMost_once_some (init : Program Call Reply V)
    {p : Program (Asking Call) (AskingReply Reply V) α}
    (hp : p.OnlyCalls (Asking.Owns fun c => ¬P c)) (v : V) :
    (p.once init (some v)).CallsAtMost P 0 := by
  induction p with
  | done a => exact .done _
  | call c next ih =>
    cases c with
    | own c => exact .other hp.1 fun reply => ih reply (hp.2 reply)
    | value => exact ih v (hp.2 v)

/-- However often the value is asked for, the calls that find it are made as often as finding
it once makes them. -/
theorem callsAtMost_once {n : Nat} {p : Program (Asking Call) (AskingReply Reply V) α}
    (hinit : init.CallsAtMost P n) (hp : p.OnlyCalls (Asking.Owns fun c => ¬P c)) :
    (p.once init none).CallsAtMost P n := by
  induction p with
  | done a => exact .done _
  | call c next ih =>
    cases c with
    | own c => exact .other hp.1 fun reply => ih reply (hp.2 reply)
    | value =>
      have h := hinit.bind fun v => callsAtMost_once_some init (hp.2 v) v
      rwa [Nat.zero_add] at h

/-! ## What is guaranteed of the calls -/

/-- Nothing is relied on of the value. -/
def AskingRelies (rely : ∀ c, Reply c → Prop) : ∀ c : Asking Call, AskingReply Reply V c → Prop
  | .value, _ => True
  | .own c, reply => rely c reply

/-- A program and what finds the value keep the same guarantees together. -/
theorem Relying.once {rely : ∀ c, Reply c → Prop} {guar : Call → Prop} {Q : α → Prop}
    {p : Program (Asking Call) (AskingReply Reply V) α}
    (hp : p.Relying (AskingRelies rely) (Asking.Owns guar) Q)
    (hinit : init.Relying rely guar fun _ => True) (cell : Option V) :
    (p.once init cell).Relying rely guar fun result => Q result.1 := by
  induction p generalizing cell with
  | done a => exact hp
  | call c next ih =>
    cases c with
    | own c => exact ⟨hp.1, fun reply hreply => ih reply (hp.2 reply hreply) cell⟩
    | value =>
      cases cell with
      | some v => exact ih v (hp.2 v trivial) (some v)
      | none => exact hinit.bind fun v _ => ih v (hp.2 v trivial) (some v)

end Program

end Interaction
