import TrantorCli.Streams.Tokens

/-!
# A read that fails

Reading to a delimiter takes bytes as it goes, and drops what it has taken when a
read fails. A stream loses nothing over a run exactly when no failed read comes
in the middle of what a call is after.
-/

open Roc BufRead

namespace TrantorCli.Streams

open FsCore (IoError IOErr ioerr)
open Stdin (Global Event isInterrupted given)

/-- The bytes of the stream that a result accounts for. A line that is too long has been used up to
one byte past the cap. -/
def Gives : Except ReadErr (List UInt8) → List UInt8 → Prop
  | .ok bytes, raw => raw = bytes
  | .error .lineTooLong, raw => raw.length = maxLine.toNat + 1 ∧ 10 ∉ raw
  | .error _, raw => raw = []

/-- The results are what was pending, from its start and without a gap, up to what is pending
now. -/
def Continues (s : Global) (results : List (Except ReadErr (List UInt8))) (s' : Global) : Prop :=
  ∃ raws, List.Forall₂ Gives results raws ∧ raws.flatten ++ s'.pending = s.pending

/-- A failed read comes when the call has taken bytes and is not done. -/
def Call.CutShort (s : Global) : Call → Prop
  | .read _ => False
  | .readUntil delim max => BufRead.CutShort delim max.toNat (tokens s)
  | .readLine => BufRead.CutShort 10 (maxLine.toNat + 1) (tokens s)

/-- No call of a run is cut short, in the state that the calls before it leave. -/
def NoneCutShort (input : Input) (calls : List Call) (s : Global) : Prop :=
  ∀ before c after, calls = before ++ c :: after →
    ∀ results s', run input before s = .ok (results, s') → ¬c.CutShort s'

variable {input : Input} {s s' : Global}

/-! ### One call -/

private theorem pending_of_tokens (h : tokens s' = tokens s) : s'.pending = s.pending := by
  rw [← items_tokens, h, items_tokens]

/-- A read through the buffer leaves the lock and loses nothing, whether or not it fails. -/
theorem read_given (s : Global) (n : Nat) : ∃ result s', Stdin.read n s = (result, s') ∧
    s'.holder = s.holder ∧ given result ++ s'.pending = s.pending := by
  rw [Stdin.read]
  split
  · rename_i hlong
    obtain ⟨result, s', hread, hholder, hbuffer, hunread⟩ := Stdin.osRead_given s n
    refine ⟨result, s', hread, hholder, ?_⟩
    rw [Global.pending, Global.pending, hbuffer, hlong.1]
    exact hunread
  · obtain ⟨result, s', hfill, hholder, hresult⟩ := fillBuf_fill s
    rw [hfill]
    cases hresult with
    | @again e he htokens hcost => exact ⟨.error e, s', rfl, hholder, pending_of_tokens htokens⟩
    | @failed e he htokens =>
      refine ⟨.error e, s', rfl, hholder, ?_⟩
      rw [← items_tokens s, htokens, items_failed, items_tokens]
      rfl
    | ended htokens =>
      refine ⟨.ok ([].take n), _, rfl, hholder, ?_⟩
      have hitems : items (tokens s') = items (tokens s) := by
        obtain htokens | ⟨htokens, hnil⟩ := htokens
        · rw [htokens, items_ended]
        · rw [htokens, hnil]
      rw [items_tokens, items_tokens] at hitems
      rw [List.take_nil, ← hitems]
      rfl
    | lent hne htokens hcost =>
      refine ⟨.ok (s'.buffer.take n), _, rfl, hholder, ?_⟩
      rw [Stdin.pending_consume (Nat.min_le_left _ _), ← pending_of_tokens htokens, Global.pending,
        List.drop_append_of_le_length (Nat.min_le_left _ _), ← List.append_assoc]
      exact congrArg (· ++ _) (Stdin.take_append_drop_min s'.buffer n)

/-- What is left of a result's length is one of few. -/
theorem Gives.length {result : Except ReadErr (List UInt8)} {raw raw' : List UInt8}
    (h : Gives result raw) (h' : Gives result raw') : raw.length = raw'.length := by
  cases result with
  | ok bytes => rw [show raw = bytes from h, show raw' = bytes from h']
  | error e =>
    cases e with
    | lineTooLong => exact h.1.trans h'.1.symm
    | io err => rw [show raw = [] from h, show raw' = [] from h']
    | fileErr err => rw [show raw = [] from h, show raw' = [] from h']

/-- What a call does to the stream: it loses something exactly when it is cut short. -/
structure Answered (input : Input) (c : Call) (s : Global) (result : Except ReadErr (List UInt8))
    (s' : Global) : Prop where
  idle : input.Idle s'
  split : ∃ lost raw, Gives result raw ∧ lost ++ (raw ++ s'.pending) = s.pending ∧
    (lost = [] ↔ ¬c.CutShort s)

private theorem read_answered (hs : input.Idle s) (max : UInt64) :
    ∃ result s', read input max s = .ok (result, s') ∧ Answered input (.read max) s result s' := by
  have hinput (n : Nat) : ∃ outcome s', input.read n s = .ok (outcome, s') ∧ input.Idle s' ∧
      given outcome ++ s'.pending = s.pending := by
    cases input with
    | stdin id =>
      have hfree : s.holder = none := hs
      have hrelease : Stdin.release id s = s := if_neg (by rw [hfree]; simp)
      obtain ⟨outcome, s', hread, -, hgiven⟩ := read_given { s with holder := some .call } n
      refine ⟨outcome, Stdin.unlock s', ?_, rfl, hgiven⟩
      rw [Input.read, Stdin.sharedRead, hrelease, Stdin.lock, hfree, Try.ok_bind, hread]
      rfl
    | file =>
      obtain ⟨outcome, s', hread, -, hgiven⟩ := read_given s n
      exact ⟨outcome, s', congrArg Except.ok hread, trivial, hgiven⟩
  obtain ⟨outcome, s', hread, hidle, hgiven⟩ := hinput (min max.toNat Stdin.readChunkMax)
  refine ⟨outcome.mapError readErr, s', ?_, hidle, [], given outcome, ?_, hgiven,
    by simp [Call.CutShort]⟩
  · rw [read, hread, Try.ok_bind]
    rfl
  · cases outcome <;> rfl

private theorem readUntil_answered (hs : input.Idle s) (delim : UInt8) (max : UInt64) :
    ∃ result s', readUntil input delim max s = .ok (result, s') ∧
      Answered input (.readUntil delim max) s result s' := by
  obtain ⟨s', hread, hidle, htokens⟩ := readUntil_eq hs delim max
  obtain ⟨lost, hsplit, hlost⟩ := exists_lost_of_upTo delim max.toNat (tokens s)
  rw [← htokens, items_tokens, items_tokens] at hsplit
  refine ⟨_, s', hread, hidle, lost, _, ?_, hsplit, hlost⟩
  cases (upTo delim max.toNat (tokens s)).1 with
  | ok bytes => exact rfl
  | error e => exact rfl

/-- A line that is too long is all of what was read. -/
theorem gives_lineOf {bytes : List UInt8} (hlength : bytes.length ≤ maxLine.toNat + 1)
    (hdelim : 10 ∉ bytes.dropLast) : Gives (lineOf bytes) bytes := by
  rw [lineOf_eq]
  split
  · rename_i hlong
    obtain ⟨hmax, hlast⟩ := hlong
    refine ⟨by omega, fun hmem => ?_⟩
    have hne : bytes ≠ [] := List.ne_nil_of_mem hmem
    rw [← List.dropLast_append_getLast hne, List.mem_append, List.mem_singleton] at hmem
    obtain hmem | hmem := hmem
    · exact hdelim hmem
    · exact hlast (by rw [List.getLast?_eq_some_getLast hne, ← hmem])
  · exact rfl

private theorem fileReadLine_answered (hs : input.Idle s) :
    ∃ result s', fileReadLine input s = .ok (result, s') ∧
      Answered input .readLine s result s' := by
  obtain ⟨s', hread, hidle, htokens⟩ := readUntil_eq hs 10 (maxLine + 1)
  have hcap : (maxLine + 1).toNat = maxLine.toNat + 1 := rfl
  rw [hcap] at hread htokens
  obtain ⟨lost, hsplit, hlost⟩ := exists_lost_of_upTo 10 (maxLine.toNat + 1) (tokens s)
  rw [← htokens, items_tokens, items_tokens] at hsplit
  refine ⟨_, s', by rw [fileReadLine, hread]; rfl, hidle, lost, _, ?_, hsplit, hlost⟩
  obtain ⟨result, hresult⟩ : ∃ result, (upTo 10 (maxLine.toNat + 1) (tokens s)).1 = result :=
    ⟨_, rfl⟩
  rw [hresult]
  cases result with
  | error e => exact rfl
  | ok bytes =>
    obtain ⟨hlength, hdelim⟩ := shape_of_upTo (Prod.ext hresult rfl)
    exact gives_lineOf hlength hdelim

/-- Every call returns, and loses something exactly when it is cut short. -/
theorem call_answered (hs : input.Idle s) (c : Call) :
    ∃ result s', call input c s = .ok (result, s') ∧ Answered input c s result s' := by
  cases c with
  | read max => exact read_answered hs max
  | readUntil delim max => exact readUntil_answered hs delim max
  | readLine => exact fileReadLine_answered hs

/-! ### A run -/

/-- A run has no call cut short when neither its first call nor the rest has. -/
theorem noneCutShort_cons {c : Call} {calls : List Call} {result : Except ReadErr (List UInt8)}
    {s₁ : Global} (hcall : call input c s = .ok (result, s₁)) :
    NoneCutShort input (c :: calls) s ↔ ¬c.CutShort s ∧ NoneCutShort input calls s₁ := by
  constructor
  · intro h
    refine ⟨h [] c calls rfl [] s rfl, fun before c' after hcalls results s' hrun => ?_⟩
    refine h (c :: before) c' after (by rw [hcalls]; rfl) (result :: results) s' ?_
    rw [run_cons hcall, hrun]
    rfl
  · rintro ⟨hfirst, hrest⟩ before c' after hcalls results s' hrun
    cases before with
    | nil =>
      obtain ⟨rfl, -⟩ := List.cons.inj hcalls
      obtain ⟨-, rfl⟩ := Prod.mk.inj (Except.ok.inj hrun)
      exact hfirst
    | cons b before =>
      obtain ⟨rfl, htail⟩ := List.cons.inj hcalls
      rw [run_cons hcall] at hrun
      cases hbefore : run input before s₁ with
      | error stuck =>
        rw [hbefore] at hrun
        cases hrun
      | ok p =>
        rw [hbefore] at hrun
        obtain ⟨-, rfl⟩ := Prod.mk.inj (Except.ok.inj hrun)
        exact hrest before c' after htail p.1 p.2 hbefore

/-- Every run returns, and accounts for no more than was pending. -/
theorem run_returns (hs : input.Idle s) (calls : List Call) :
    ∃ results s', run input calls s = .ok (results, s') ∧ input.Idle s' ∧
      ∀ raws, List.Forall₂ Gives results raws →
        raws.flatten.length + s'.pending.length ≤ s.pending.length := by
  induction calls generalizing s with
  | nil =>
    refine ⟨[], s, rfl, hs, fun raws hraws => ?_⟩
    cases hraws
    exact Nat.le_of_eq (Nat.zero_add _)
  | cons c calls ih =>
    obtain ⟨result, s₁, hcall, hidle, lost, raw, hgives, hsplit, -⟩ := call_answered hs c
    obtain ⟨results, s', hrun, hidle', hbound⟩ := ih hidle
    refine ⟨result :: results, s', by rw [run_cons hcall, hrun]; rfl, hidle', fun raws hraws => ?_⟩
    cases hraws with
    | @cons _ raw' _ raws hgives' hraws =>
      have hraw := hgives.length hgives'
      have hrest := hbound raws hraws
      have hlength := congrArg List.length hsplit
      simp only [List.length_append] at hlength
      rw [List.flatten_cons, List.length_append]
      omega

/-- However a stream is called and however its reads fail: the calls return, and their results
continue one another without a gap exactly when none of them is cut short. -/
theorem run_continues_iff (hs : input.Idle s) (calls : List Call) :
    ∃ results s', run input calls s = .ok (results, s') ∧
      (Continues s results s' ↔ NoneCutShort input calls s) := by
  induction calls generalizing s with
  | nil =>
    refine ⟨[], s, rfl, iff_of_true ⟨[], .nil, rfl⟩ ?_⟩
    intro before c after hcalls
    cases before <;> cases hcalls
  | cons c calls ih =>
    obtain ⟨result, s₁, hcall, hidle, lost, raw, hgives, hsplit, hlost⟩ := call_answered hs c
    obtain ⟨results, s', hrun, hrest⟩ := ih hidle
    refine ⟨result :: results, s', by rw [run_cons hcall, hrun]; rfl, ?_⟩
    rw [noneCutShort_cons hcall, ← hlost, ← hrest]
    constructor
    · rintro ⟨raws, hraws, hpending⟩
      cases hraws with
      | @cons _ raw' _ raws hgives' hraws =>
        rw [List.flatten_cons, List.append_assoc] at hpending
        obtain ⟨_, _, hrun', -, hbound⟩ := run_returns hidle calls
        obtain ⟨rfl, rfl⟩ := Prod.mk.inj (Except.ok.inj (hrun.symm.trans hrun'))
        -- The results account for all of it, so nothing is left for what was lost.
        have hlength := congrArg List.length (hsplit.trans hpending.symm)
        have hraw := hgives.length hgives'
        have hrest' := hbound raws hraws
        simp only [List.length_append] at hlength
        have hnil : lost = [] := List.length_eq_zero_iff.mp (by omega)
        rw [hnil, List.nil_append, ← hpending] at hsplit
        exact ⟨hnil, raws, hraws, (List.append_inj hsplit hraw).2.symm⟩
    · rintro ⟨rfl, raws, hraws, hpending⟩
      refine ⟨raw :: raws, .cons hgives hraws, ?_⟩
      rw [List.flatten_cons, List.append_assoc, hpending]
      exact hsplit

/-- A read of standard input that fails between two lines. -/
theorem run_continues_between : NoneCutShort (.stdin 0)
    [.readUntil 10 100, .readUntil 10 100, .readUntil 10 100]
    (.start [.chunk [97, 10], .failed ⟨.other, "I/O error"⟩, .chunk [98, 10]]) := by
  have hresults : run (.stdin 0) [.readUntil 10 100, .readUntil 10 100, .readUntil 10 100]
      (.start [.chunk [97, 10], .failed ⟨.other, "I/O error"⟩, .chunk [98, 10]]) =
        .ok ([.ok [97, 10], .error (.io (.other "I/O error")), .ok [98, 10]],
          ⟨[], [], none, 0⟩) := by
    decide +kernel
  have hidle : (Input.stdin 0).Idle
      (.start [.chunk [97, 10], .failed ⟨.other, "I/O error"⟩, .chunk [98, 10]]) := rfl
  obtain ⟨results, s', hrun, hiff⟩ :=
    run_continues_iff hidle [.readUntil 10 100, .readUntil 10 100, .readUntil 10 100]
  obtain ⟨rfl, rfl⟩ := Prod.mk.inj (Except.ok.inj (hresults.symm.trans hrun))
  refine hiff.mp ⟨[[97, 10], [], [98, 10]], ?_, rfl⟩
  exact .cons rfl (.cons rfl (.cons rfl .nil))

/-- `ab`, a failed read, and `c\n`: the line that is read after the failure is `c\n`, and `ab` is in
no result. -/
theorem run_drops :
    run .file [.readLine, .readLine]
        (.start [.chunk [97, 98], .failed ⟨.other, "I/O error"⟩, .chunk [99, 10]]) =
      .ok ([.error (.fileErr (.other "I/O error")), .ok [99, 10]], ⟨[], [], none, 0⟩) ∧
    ¬Continues (.start [.chunk [97, 98], .failed ⟨.other, "I/O error"⟩, .chunk [99, 10]])
      [.error (.fileErr (.other "I/O error")), .ok [99, 10]] ⟨[], [], none, 0⟩ := by
  refine ⟨by decide +kernel, ?_⟩
  rintro ⟨raws, hraws, hpending⟩
  cases hraws with
  | @cons _ raw _ raws hraw hraws =>
    cases hraws with
    | @cons _ raw' _ raws hraw' hraws =>
      cases hraws
      obtain rfl : raw = [] := hraw
      obtain rfl : raw' = [99, 10] := hraw'
      exact absurd hpending (by decide)

end TrantorCli.Streams
