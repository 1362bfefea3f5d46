import Mathlib.Data.List.Basic

/-!
# Reading through a buffer

A buffered reader lends out what it holds and is told how much of it was used.
Capping a reader and reading up to a delimiter are built on these two
operations alone. A reader that neither drops nor repeats what is pending is
still one when it is capped, and reading from it to a delimiter takes a prefix
of what is pending.
-/

namespace BufRead

variable {σ ε α : Type}

/-- Why a call does not return. -/
inductive Stuck where
  /-- It waits for something that is never given back. -/
  | blocked
  /-- It goes on for longer than it was given. -/
  | outOfFuel
  deriving DecidableEq, Repr

/-- A reader with states `σ`. -/
structure Reader (σ ε α : Type) where
  /-- What is buffered, read first if nothing is; empty at the end. -/
  fillBuf : σ → Except Stuck (Except ε (List α) × σ)
  /-- Marks the first so many of the buffered as used. -/
  consume : Nat → σ → σ

/-- A reader that gives at most as many as its limit says. -/
def Reader.take (r : Reader σ ε α) : Reader (Nat × σ) ε α where
  fillBuf
    | (limit, s) =>
      if limit = 0 then .ok (.ok [], (limit, s))
      else
        match r.fillBuf s with
        | .error stuck => .error stuck
        | .ok (.error e, s') => .ok (.error e, (limit, s'))
        | .ok (.ok buf, s') => .ok (.ok (buf.take (min buf.length limit)), (limit, s'))
  consume
    | amt, (limit, s) => (limit - min amt limit, r.consume (min amt limit) s)

/-- Reads up to and including `delim`, or to the end, appending to `buf`; an interrupted read is
made again. -/
def Reader.readUntil [BEq α] (r : Reader σ ε α) (interrupted : ε → Bool) (delim : α) :
    Nat → List α → σ → Except Stuck (Except ε (List α) × σ)
  | 0, _, _ => .error .outOfFuel
  | fuel + 1, buf, s =>
    match r.fillBuf s with
    | .error stuck => .error stuck
    | .ok (.error e, s') =>
      if interrupted e then r.readUntil interrupted delim fuel buf s' else .ok (.error e, s')
    | .ok (.ok available, s') =>
      match available.idxOf? delim with
      | some i => .ok (.ok (buf ++ available.take (i + 1)), r.consume (i + 1) s')
      | none =>
        if available.length = 0 then
          .ok (.ok (buf ++ available), r.consume available.length s')
        else
          r.readUntil interrupted delim fuel (buf ++ available) (r.consume available.length s')

/-- How the states of a reader are looked at. -/
structure View (σ α : Type) where
  /-- Nothing is lent out. -/
  Idle : σ → Prop
  /-- What is still to be given, in order. -/
  pending : σ → List α
  /-- Bounds how often the reader can be asked before it ends. -/
  cost : σ → Nat
  /-- How often the source has reported its end. -/
  ends : σ → Nat

/-- From `s` to `s'`, the first `n` of what was pending have been given. -/
structure View.Moves (v : View σ α) (n : Nat) (s s' : σ) : Prop where
  idle : v.Idle s'
  pending : v.pending s' = (v.pending s).drop n
  ends : v.ends s' = v.ends s

/-- What a fill leads to. -/
inductive View.Filled (v : View σ α) (r : Reader σ ε α) (interrupted : ε → Bool) (s s' : σ) :
    Except ε (List α) → Prop where
  | again {e : ε} (he : interrupted e = true) (hmoves : v.Moves 0 s s')
      (hcost : v.cost s' < v.cost s) : View.Filled v r interrupted s s' (.error e)
  | done (hidle : v.Idle s') (hpending : v.pending s' = v.pending s)
      (hends : v.ends s' ≤ v.ends s + 1) : View.Filled v r interrupted s s' (.ok [])
  | lent {available : List α} (hne : available ≠ []) (hpending : available <+: v.pending s)
      (hconsume : ∀ n, 0 < n → n ≤ available.length →
        v.Moves n s (r.consume n s') ∧ v.cost (r.consume n s') < v.cost s) :
      View.Filled v r interrupted s s' (.ok available)

/-- A reader that never blocks, gives what is pending in order, and is interrupted only so often. -/
structure Reader.Lawful (r : Reader σ ε α) (interrupted : ε → Bool) (v : View σ α) : Prop where
  consume_zero : ∀ s, v.Idle s → v.Moves 0 s (r.consume 0 s)
  fillBuf : ∀ s, v.Idle s →
    ∃ result s', r.fillBuf s = .ok (result, s') ∧ v.Filled r interrupted s s' result

variable {r : Reader σ ε α} {interrupted : ε → Bool} {v : View σ α} {s s' : σ}

/-- A capped reader, looked at as the reader itself. -/
def View.take (v : View σ α) : View (Nat × σ) α where
  Idle s := v.Idle s.2
  pending s := v.pending s.2
  cost s := v.cost s.2
  ends s := v.ends s.2

/-- What moves a reader moves the capped one. -/
theorem View.Moves.take {n : Nat} (h : v.Moves n s s') (limit limit' : Nat) :
    v.take.Moves n (limit, s) (limit', s') :=
  ⟨h.idle, h.pending, h.ends⟩

/-- Capping keeps a reader lawful. -/
theorem Reader.Lawful.take (h : r.Lawful interrupted v) : r.take.Lawful interrupted v.take := by
  refine ⟨fun (limit, s) hs => ?_, fun (limit, s) hs => ?_⟩
  · have hzero : r.take.consume 0 (limit, s) = (limit, r.consume 0 s) := by
      simp [Reader.take]
    rw [hzero]
    exact (h.consume_zero s hs).take limit limit
  · by_cases hlimit : limit = 0
    · refine ⟨.ok [], (limit, s), if_pos hlimit, .done hs rfl ?_⟩
      exact Nat.le_succ _
    · obtain ⟨result, s', hfill, hfilled⟩ := h.fillBuf s hs
      cases hfilled with
      | @again e he hmoves hcost =>
        exact ⟨.error e, (limit, s'), by simp [Reader.take, hlimit, hfill],
          .again he (hmoves.take _ _) hcost⟩
      | done hidle hpending hends =>
        exact ⟨.ok [], (limit, s'), by simp [Reader.take, hlimit, hfill],
          .done hidle hpending hends⟩
      | @lent available hne hpending hconsume =>
        have hlength : 0 < available.length := List.length_pos_iff.mpr hne
        refine ⟨.ok (available.take (min available.length limit)), (limit, s'),
          by simp [Reader.take, hlimit, hfill],
          .lent ?_ ((List.take_prefix _ _).trans hpending) fun n hn hle => ?_⟩
        · rw [Ne, ← List.length_eq_zero_iff, List.length_take]
          omega
        · rw [List.length_take] at hle
          obtain ⟨hmoves, hcost⟩ := hconsume n hn (by omega)
          have hamount : r.take.consume n (limit, s') = (limit - n, r.consume n s') := by
            have hmin : min n limit = n := by omega
            simp [Reader.take, hmin]
          rw [hamount]
          exact ⟨hmoves.take _ _, hcost⟩

/-- Reading to a delimiter returns, with a prefix of what is pending, and asks the source for its
end at most once. -/
theorem Reader.Lawful.readUntil [BEq α] [LawfulBEq α] (h : r.Lawful interrupted v) (delim : α)
    {fuel : Nat} (hs : v.Idle s) (hfuel : v.cost s < fuel) (buf : List α) :
    ∃ bytes s', r.readUntil interrupted delim fuel buf s = .ok (.ok (buf ++ bytes), s') ∧
      v.Idle s' ∧ bytes ++ v.pending s' = v.pending s ∧ v.ends s' ≤ v.ends s + 1 := by
  induction fuel generalizing s buf with
  | zero => omega
  | succ fuel ih =>
    obtain ⟨result, s', hfill, hfilled⟩ := h.fillBuf s hs
    rw [Reader.readUntil, hfill]
    cases hfilled with
    | @again e he hmoves hcost =>
      obtain ⟨bytes, s'', hread, hidle, hpending, hends⟩ := ih hmoves.idle (by omega) buf
      refine ⟨bytes, s'', by simpa [he] using hread, hidle, ?_, by rw [← hmoves.ends]; exact hends⟩
      rw [hpending, hmoves.pending, List.drop_zero]
    | done hidle hpending hends =>
      have hzero := h.consume_zero s' hidle
      refine ⟨[], r.consume 0 s', by simp, hzero.idle, ?_, by rw [hzero.ends]; exact hends⟩
      rw [List.nil_append, hzero.pending, List.drop_zero, hpending]
    | @lent available hne hpending hconsume =>
      obtain ⟨rest, hrest⟩ := hpending
      have hlength : 0 < available.length := List.length_pos_iff.mpr hne
      simp only
      cases hidx : available.idxOf? delim with
      | some i =>
        obtain ⟨hi, -⟩ := List.idxOf?_eq_some_iff.mp hidx
        obtain ⟨hmoves, -⟩ := hconsume (i + 1) (by omega) (by omega)
        refine ⟨available.take (i + 1), _, rfl, hmoves.idle, ?_, by rw [hmoves.ends]; omega⟩
        rw [hmoves.pending, ← hrest, List.drop_append_of_le_length (by omega), ← List.append_assoc,
          List.take_append_drop]
      | none =>
        obtain ⟨hmoves, hcost⟩ := hconsume available.length hlength (Nat.le_refl _)
        obtain ⟨bytes, s'', hread, hidle, hpending, hends⟩ :=
          ih hmoves.idle (by omega) (buf ++ available)
        refine ⟨available ++ bytes, s'', ?_, hidle, ?_, by rw [← hmoves.ends]; exact hends⟩
        · rw [← List.append_assoc]
          simpa [hne] using hread
        · rw [List.append_assoc, hpending, hmoves.pending, ← hrest, List.drop_left]

end BufRead
