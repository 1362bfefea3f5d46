import TrantorCli.Lib.BufRead.Tokens
import TrantorCli.Stdin.Readers
import TrantorCli.Streams

/-!
# What an input stream comes to

The bytes buffered, and then what each read to come gives. Whatever is behind a
stream, its reader follows these tokens, and reading to a delimiter under a cap
reads them one by one.
-/

open Roc BufRead

namespace TrantorCli.Streams

open FsCore (IoError IOErr ioerr)
open Stdin (Global Event isInterrupted)

/-- What the reads that give an event come to. -/
def eventTokens : Event → List (Token IoError UInt8)
  | .failed e => if isInterrupted e then [] else [.failed e]
  | .chunk bytes => if bytes = [] then [.ended] else bytes.map .item

/-- What reading a stream comes to. -/
def tokens (s : Global) : List (Token IoError UInt8) :=
  s.buffer.map .item ++ s.source.flatMap eventTokens

/-- Nothing is lent out. -/
def Input.Idle : Input → Global → Prop
  | .stdin _, s => s.holder = none
  | .file, _ => True

/-- A stream, looked at as what it comes to. -/
def Input.view (input : Input) : StreamView Global IoError UInt8 :=
  ⟨input.Idle, tokens, Global.cost⟩

private theorem items_eventTokens (event : Event) : items (eventTokens event) = event.bytes := by
  cases event with
  | failed e =>
    rw [eventTokens]
    split <;> rfl
  | chunk bytes =>
    rw [eventTokens]
    split
    · rename_i hnil
      rw [hnil]
      rfl
    · exact items_map bytes

/-- The items of a stream are its bytes. -/
theorem items_tokens (s : Global) : items (tokens s) = s.pending := by
  have hsource (source : List Event) :
      items (source.flatMap eventTokens) = source.flatMap Event.bytes := by
    induction source with
    | nil => rfl
    | cons event rest ih =>
      rw [List.flatMap_cons, items_append, items_eventTokens, ih]
      rfl
  rw [tokens, items_append, items_map, hsource]
  rfl

/-! ### Filling the buffer -/

/-- What a fill leads to. -/
inductive Fill (s s' : Global) : Except IoError (List UInt8) → Prop where
  | again {e : IoError} (he : isInterrupted e = true) (htokens : tokens s' = tokens s)
      (hcost : s'.cost < s.cost) : Fill s s' (.error e)
  | failed {e : IoError} (he : isInterrupted e = false)
      (htokens : tokens s = .failed e :: tokens s') : Fill s s' (.error e)
  | ended (htokens : tokens s = .ended :: tokens s' ∨ tokens s = [] ∧ tokens s' = []) :
      Fill s s' (.ok [])
  | lent (hne : s'.buffer ≠ []) (htokens : tokens s' = tokens s) (hcost : s'.cost ≤ s.cost) :
      Fill s s' (.ok s'.buffer)

/-- A fill leaves the lock, and gives the next of the stream. -/
theorem fillBuf_fill (s : Global) : ∃ result s', Stdin.fillBuf s = (result, s') ∧
    s'.holder = s.holder ∧ Fill s s' result := by
  obtain ⟨source, buffer, holder, eofReads⟩ := s
  cases buffer with
  | cons b buffer => exact ⟨_, _, rfl, rfl, .lent (List.cons_ne_nil b buffer) rfl (Nat.le_refl _)⟩
  | nil =>
    cases source with
    | nil => exact ⟨_, _, rfl, rfl, .ended (.inr ⟨rfl, rfl⟩)⟩
    | cons event rest =>
      cases event with
      | failed e =>
        refine ⟨_, _, rfl, rfl, ?_⟩
        cases he : isInterrupted e with
        | true => exact .again he (by simp [tokens, eventTokens, he]) (Nat.lt_succ_self _)
        | false => exact .failed he (by simp [tokens, eventTokens, he])
      | chunk bytes =>
        by_cases hnil : bytes = []
        · subst hnil
          exact ⟨_, _, rfl, rfl, .ended (.inl rfl)⟩
        · by_cases hshort : bytes.length ≤ Stdin.bufSize
          · refine ⟨.ok bytes, ⟨rest, bytes, holder, eofReads⟩, ?_, rfl, .lent hnil ?_ ?_⟩
            · simp [Stdin.fillBuf, Stdin.osRead, hnil, hshort]
            · simp [tokens, eventTokens, hnil]
            · simp [Global.cost, Global.pending, Event.bytes]
          · have hdrop : bytes.drop Stdin.bufSize ≠ [] := by
              rw [Ne, List.drop_eq_nil_iff]
              exact hshort
            have hsize : Stdin.bufSize ≠ 0 := by simp [Stdin.bufSize]
            refine ⟨.ok (bytes.take Stdin.bufSize), ⟨.chunk (bytes.drop Stdin.bufSize) :: rest,
              bytes.take Stdin.bufSize, holder, eofReads⟩, ?_, rfl, .lent ?_ ?_ ?_⟩
            · simp [Stdin.fillBuf, Stdin.osRead, hnil, hshort]
            · simp [hnil, hsize]
            · simp only [tokens, eventTokens, List.flatMap_cons, if_neg hnil, if_neg hdrop,
                List.map_nil, List.nil_append]
              rw [← List.append_assoc, ← List.map_append, List.take_append_drop]
            · simp only [Global.cost, Global.pending, Event.bytes, List.flatMap_cons]
              rw [← List.append_assoc, List.take_append_drop]
              exact Nat.le_refl _

/-- Using part of the buffer takes it off the stream. -/
theorem tokens_consume {s : Global} {n : Nat} (hn : n ≤ s.buffer.length) :
    tokens (Stdin.consume n s) = (tokens s).drop n := by
  have hlength : n ≤ (s.buffer.map (Token.item (ε := IoError))).length := by
    rw [List.length_map]
    exact hn
  rw [tokens, tokens, List.drop_append_of_le_length hlength, ← List.map_drop]
  rfl

/-! ### Readers -/

/-- A file is a reader that follows its stream. -/
theorem follows_file : Input.file.reader.Follows isInterrupted Input.file.view := by
  refine ⟨fun s _ => ⟨trivial, rfl⟩, fun s _ => ?_⟩
  obtain ⟨result, s', hfill, -, hresult⟩ := fillBuf_fill s
  refine ⟨result, s', congrArg Except.ok hfill, ?_⟩
  cases hresult with
  | again he htokens hcost => exact .again he trivial htokens hcost
  | failed he htokens => exact .failed he trivial htokens
  | ended htokens => exact .ended trivial htokens
  | lent hne htokens hcost =>
    refine .lent hne ?_ fun n hpos hn => ⟨trivial, ?_, ?_⟩
    · exact ⟨_, htokens⟩
    · exact (tokens_consume hn).trans (congrArg (List.drop n) htokens)
    · exact Nat.lt_of_lt_of_le (Stdin.cost_consume hpos hn) hcost

/-- A handle of standard input follows its stream while no lock is held. -/
theorem follows_stdin (id : Nat) :
    (Input.stdin id).reader.Follows isInterrupted (Input.stdin id).view := by
  refine ⟨fun s hs => ?_, fun s hs => ?_⟩
  · have hidle : s.holder = none := hs
    have hzero : (Input.stdin id).reader.consume 0 s = s := if_neg (by rw [hidle]; simp)
    rw [hzero]
    exact ⟨hs, rfl⟩
  · have hidle : s.holder = none := hs
    have hlock : Stdin.getOrLock id s = .ok { s with holder := some (.handle id) } := by
      rw [Stdin.getOrLock, if_neg (by rw [hidle]; simp), Stdin.lock, hidle]
    obtain ⟨result, s', hfill, hholder, hresult⟩ :=
      fillBuf_fill { s with holder := some (.handle id) }
    have hrelease : Stdin.release id s' = Stdin.unlock s' := if_pos hholder
    have hreader : (Input.stdin id).reader.fillBuf s = Stdin.sharedFillBuf id s := rfl
    rw [hreader, Stdin.sharedFillBuf, hlock, Try.ok_bind, hfill]
    cases hresult with
    | @again e he htokens hcost =>
      exact ⟨.error e, Stdin.unlock s', by simp only [hrelease, pure, Except.pure],
        .again he rfl htokens hcost⟩
    | @failed e he htokens =>
      exact ⟨.error e, Stdin.unlock s', by simp only [hrelease, pure, Except.pure],
        .failed he rfl htokens⟩
    | ended htokens =>
      exact ⟨.ok [], Stdin.unlock s', by simp [hrelease, pure, Except.pure], .ended rfl htokens⟩
    | lent hne htokens hcost =>
      have hagain : Stdin.fillBuf s' = (.ok s'.buffer, s') := if_neg hne
      refine ⟨.ok s'.buffer, s', by simp [hne, hholder, hagain, pure, Except.pure], ?_⟩
      have hconsume (n : Nat) :
          (Input.stdin id).reader.consume n s' = Stdin.unlock (Stdin.consume n s') :=
        if_pos hholder
      refine .lent hne ⟨_, htokens⟩ fun n hpos hn => ?_
      rw [hconsume]
      exact ⟨rfl, (tokens_consume hn).trans (congrArg (List.drop n) htokens),
        Nat.lt_of_lt_of_le (Stdin.cost_consume hpos hn) hcost⟩

/-- Every stream is read in order. -/
theorem follows (input : Input) : input.reader.Follows isInterrupted input.view := by
  cases input with
  | stdin id => exact follows_stdin id
  | file => exact follows_file

/-! ### The calls -/

/-- `read_until!` reads token by token, and leaves the stream as it is to be called again. -/
theorem readUntil_eq {input : Input} {s : Global} (hs : input.Idle s) (delim : UInt8)
    (max : UInt64) :
    ∃ s', readUntil input delim max s =
        .ok ((upTo delim max.toNat (tokens s)).1.mapError readErr, s') ∧
      input.Idle s' ∧ tokens s' = (upTo delim max.toNat (tokens s)).2 := by
  have hidle : input.view.Idle s := hs
  obtain ⟨limit, s', hread, hidle', htokens⟩ :=
    (follows input).take_readUntil delim max.toNat hidle (Nat.lt_succ_self _) []
  have hread' : input.reader.take.readUntil isInterrupted delim (s.cost + 1) [] (max.toNat, s) =
      .ok ((upTo delim max.toNat (tokens s)).1, limit, s') := by
    have hid : ([] ++ · : List UInt8 → List UInt8) = id := rfl
    rw [hid, Except.map_id] at hread
    exact hread
  refine ⟨s', ?_, hidle', htokens⟩
  rw [readUntil, hread', Try.ok_bind]
  rfl

/-- A run is its first call and the rest. -/
theorem run_cons {input : Input} {s : Global} {c : Call} {calls : List Call} 
    {result : Except ReadErr (List UInt8)} {s₁ : Global}
    (hcall : call input c s = .ok (result, s₁)) :
    run input (c :: calls) s =
      (run input calls s₁).map fun (results, s') => (result :: results, s') := by
  rw [run, hcall, Try.ok_bind]
  simp only
  cases run input calls s₁ <;> rfl

end TrantorCli.Streams
