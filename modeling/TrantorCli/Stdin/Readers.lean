import TrantorCli.Lib.Checked
import TrantorCli.Stdin

/-!
# Standard input as a reader

While reads fail only by being interrupted, each of them gives what is next in the
input or nothing. Standard input is then a lawful reader in both of its forms: the
locked one of a single call, and the shared one, which takes the lock to lend its
buffer and gives it back when the bytes are consumed.
-/

open Roc BufRead

namespace TrantorCli.Stdin

open FsCore (IoError IOErr ioerr)

/-- Reads fail only by being interrupted. -/
def OnlyInterrupted (source : List Event) : Prop := ∀ e, .failed e ∈ source → isInterrupted e = true

/-- The lock is as `holder` says, and reads fail only by being interrupted. -/
structure Global.Ready (holder : Option Owner) (s : Global) : Prop where
  holder : s.holder = holder
  source : OnlyInterrupted s.source

/-- What is still to be read. -/
def Global.unread (s : Global) : List UInt8 := s.source.flatMap Event.bytes

/-- The bytes that an answer stands for: a line has its ending put back, and a line that is not
text is gone. -/
def Gives : Result → List UInt8 → Prop
  | .bytes bytes, raw => raw = bytes
  | .line text, raw => ∃ ending, (ending = [] ∨ ending = [10] ∨ ending = [13, 10]) ∧
      raw = text.bytes ++ ending
  | .endOfFile, raw => raw = []
  | .streamErr err, raw => err = .interrupted ∧ raw = []
  | .stdinErr _, raw => ¬Utf8.Valid raw

/-- The bytes of a read. -/
def given : Except IoError (List UInt8) → List UInt8
  | .ok bytes => bytes
  | .error _ => []

/-- A read answers bytes, the end of input, or an interruption. -/
def EndsWell (s s' : Global) : Except IoError (List UInt8) → Prop
  | .ok bytes => s'.source.length ≤ s.source.length ∧ s'.eofReads ≤ s.eofReads + 1 ∧
      (bytes ≠ [] → s'.eofReads = s.eofReads)
  | .error e => isInterrupted e = true ∧ s'.source.length < s.source.length ∧
      s'.eofReads = s.eofReads

variable {holder : Option Owner} {s s' : Global} {n : Nat}

private theorem EndsWell.ends {result : Except IoError (List UInt8)} (h : EndsWell s s' result) :
    s'.eofReads ≤ s.eofReads + 1 := by
  cases result with
  | ok bytes => exact h.2.1
  | error e => exact h.2.2 ▸ Nat.le_succ _

/-! ### Reads -/

private theorem OnlyInterrupted.tail {event : Event} {rest : List Event}
    (h : OnlyInterrupted (event :: rest)) : OnlyInterrupted rest :=
  fun e he => h e (List.mem_cons_of_mem _ he)

/-- A read of the descriptor gives what is next, or nothing, and touches neither the buffer nor the
lock. -/
theorem osRead_given (s : Global) (n : Nat) : ∃ result s', osRead n s = (result, s') ∧
    s'.holder = s.holder ∧ s'.buffer = s.buffer ∧ given result ++ s'.unread = s.unread := by
  obtain ⟨source, buffer, holder, eofReads⟩ := s
  cases source with
  | nil => exact ⟨_, _, rfl, rfl, rfl, rfl⟩
  | cons event rest =>
    cases event with
    | failed e => exact ⟨_, _, rfl, rfl, rfl, rfl⟩
    | chunk bytes =>
      rw [osRead]
      simp only
      split
      · rename_i hnil
        exact ⟨_, _, rfl, rfl, rfl, by simp [given, Global.unread, Event.bytes, hnil]⟩
      · split
        · exact ⟨_, _, rfl, rfl, rfl, rfl⟩
        · refine ⟨_, _, rfl, rfl, rfl, ?_⟩
          simp only [given, Global.unread, List.flatMap_cons, Event.bytes]
          rw [← List.append_assoc, List.take_append_drop]

/-- What is lent out is the start of what is pending. -/
theorem pending_consume (hn : n ≤ s.buffer.length) :
    (consume n s).pending = s.pending.drop n :=
  (List.drop_append_of_le_length hn).symm

/-- Consuming what is buffered brings the end nearer. -/
theorem cost_consume (hpos : 0 < n) (hn : n ≤ s.buffer.length) :
    (consume n s).cost < s.cost := by
  have hlength : s.buffer.length ≤ s.pending.length := by
    rw [Global.pending, List.length_append]
    omega
  rw [Global.cost, Global.cost, pending_consume hn, List.length_drop]
  exact Nat.add_lt_add_right (by omega) _

/-- What is taken and what is left make the whole. -/
theorem take_append_drop_min (available : List UInt8) (n : Nat) :
    available.take n ++ available.drop (min available.length n) = available := by
  by_cases hn : n ≤ available.length
  · rw [Nat.min_eq_right hn, List.take_append_drop]
  · rw [Nat.min_eq_left (by omega), List.take_of_length_le (by omega), List.drop_length,
      List.append_nil]

/-- Standard input, looked at through a reader. -/
def view (holder : Option Owner) : View Global UInt8 :=
  ⟨Global.Ready holder, Global.pending, Global.cost, Global.eofReads⟩

end TrantorCli.Stdin
