import TrantorCli.Lib.Interaction.Amid

/-!
# Writing all of a buffer

`std::io::Write::write_all` over any `write`: what a write takes is cut off the
front of the buffer, an interrupted write is made again, and every other error
ends it. What was taken until then is the front of the buffer.
-/

namespace Interaction

variable {Call : Type} {Reply : Call → Type} {σ ε α : Type}

/-- `write_all`, as far as `rounds` rounds of its loop go; it may go on for ever while it is
interrupted, and `none` is where it is still at it. -/
def writeAll (write : List α → Fallible Call Reply ε Nat) (interrupted : ε → Bool) (writeZero : ε) :
    Nat → List α → Fallible Call Reply (Option ε) Unit
  | _, [] => pure ()
  | 0, _ :: _ => throw none
  | rounds + 1, b :: bs => ExceptT.mk ((write (b :: bs)).run >>= fun result =>
    match result with
    | .ok 0 => pure (.error (some writeZero))
    | .ok (n + 1) => (writeAll write interrupted writeZero rounds (bs.drop n)).run
    | .error e =>
      if interrupted e then (writeAll write interrupted writeZero rounds (b :: bs)).run
      else pure (.error (some e)))

/-- `I` after a write that took a front of its buffer, where it held of what was taken before. -/
def TookFront (I : List α → σ → Prop) (taken buf : List α) : Except ε Nat → σ → Prop
  | .ok n, t => I (taken ++ buf.take n) t
  | .error _, t => I taken t

variable {S : System Call Reply σ} {write : List α → Fallible Call Reply ε Nat}
  {interrupted : ε → Bool} {writeZero : ε}

/-- It makes no calls but those of its writes. -/
theorem writeAll_onlyCalls {P : Call → Prop} (hwrite : ∀ buf, Fallible.OnlyCalls P (write buf))
    (rounds : Nat) (buf : List α) :
    Fallible.OnlyCalls P (writeAll write interrupted writeZero rounds buf) := by
  induction rounds generalizing buf with
  | zero => cases buf <;> trivial
  | succ rounds ih =>
    cases buf with
    | nil => trivial
    | cons b bs =>
      refine Program.OnlyCalls.bind (hwrite (b :: bs)) fun result => ?_
      rcases result with e | _ | n
      · simp only
        split
        · exact ih (b :: bs)
        · trivial
      · trivial
      · exact ih (bs.drop n)

/-- Where each write takes a front of its buffer, and `I` says of the state what was taken so far,
all of the buffer is taken in the end, or a front of it when it fails. -/
theorem writeAll_ensuresAmid {I : List α → σ → Prop}
    (hothers : ∀ taken s t, I taken s → S.others s t → I taken t)
    (hwrite : ∀ taken buf s, I taken s →
      Fallible.EnsuresAmid S (TookFront I taken buf) (write buf) s)
    (rounds : Nat) (taken buf : List α) (s : σ) (hs : I taken s) :
    Fallible.EnsuresAmid S (fun result t => ∃ part, part <+: buf ∧ (result = .ok () → part = buf) ∧
      I (taken ++ part) t) (writeAll write interrupted writeZero rounds buf) s := by
  have hmeanwhile : ∀ {taken s t}, I taken s → S.Meanwhile s t → I taken t := by
    intro taken s t hI h
    exact h.keeps (hothers taken) hI
  induction rounds generalizing taken buf s with
  | zero =>
    cases buf with
    | nil =>
      exact fun t hst => ⟨[], List.nil_prefix, fun _ => rfl, by simpa using hmeanwhile hs hst⟩
    | cons b bs =>
      exact fun t hst => ⟨[], List.nil_prefix, fun h => absurd h (by simp),
        by simpa using hmeanwhile hs hst⟩
  | succ rounds ih =>
    cases buf with
    | nil =>
      exact fun t hst => ⟨[], List.nil_prefix, fun _ => rfl, by simpa using hmeanwhile hs hst⟩
    | cons b bs =>
      refine Program.EnsuresAmid.bind
        ((hwrite taken (b :: bs) s hs).mono fun result t hresult => ?_)
      cases result with
      | ok n =>
        cases n with
        | zero =>
          refine fun u htu => ⟨[], List.nil_prefix, fun h => absurd h (by simp), ?_⟩
          simpa using hmeanwhile hresult htu
        | succ n =>
          refine (ih _ (bs.drop n) t hresult).mono fun result u h => ?_
          obtain ⟨part, hpart, hall, hI⟩ := h
          refine ⟨b :: bs.take n ++ part, ?_, fun hok => ?_, ?_⟩
          · rw [List.cons_append, List.cons_prefix_cons]
            obtain ⟨rest, hrest⟩ := hpart
            exact ⟨rfl, rest, by rw [List.append_assoc, hrest, List.take_append_drop]⟩
          · rw [hall hok, List.cons_append, List.take_append_drop]
          · simpa using hI
      | error e =>
        simp only
        split
        · exact ih taken (b :: bs) t hresult
        · refine fun u htu => ⟨[], List.nil_prefix, fun h => absurd h (by simp), ?_⟩
          simpa using hmeanwhile hresult htu

end Interaction
