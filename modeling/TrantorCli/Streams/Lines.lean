import TrantorCli.Lib.Cut
import TrantorCli.Streams.Tokens

/-!
# The lines of a file

While no read fails, reading lines from a file cuts it at its newlines, however
the reads come. A line whose text is longer than the cap is refused, one byte past
the cap is used up, and reading goes on from there.
-/

open Roc BufRead

namespace TrantorCli.Streams

open FsCore (IoError IOErr ioerr)
open Stdin (Global Event isInterrupted)

/-- The reads give `content`, some bytes at a time, and fail only by being interrupted. -/
structure Splits (source : List Event) (content : List UInt8) : Prop where
  events : ∀ event ∈ source, (∃ e, event = .failed e ∧ isInterrupted e = true) ∨
    ∃ bytes, event = .chunk bytes ∧ bytes ≠ []
  content : source.flatMap Event.bytes = content

/-- The first line without its newline. -/
def lineText (rest : List UInt8) : List UInt8 := rest.takeWhile (· ≠ 10)

/-- Up to and including the first newline, or all of it if there is none. -/
def firstLine (rest : List UInt8) : List UInt8 := rest.take ((lineText rest).length + 1)

/-- What reading a line gives and leaves, said of the bytes alone. -/
def cutLine (rest : List UInt8) : Except ReadErr (List UInt8) × List UInt8 :=
  if rest = [] then (.ok [], [])
  else if (lineText rest).length ≤ maxLine.toNat then
    (.ok (firstLine rest), rest.drop (firstLine rest).length)
  else (.error .lineTooLong, rest.drop (maxLine.toNat + 1))

/-- What reading so many lines gives and leaves. -/
def cutLines : Nat → List UInt8 → List (Except ReadErr (List UInt8)) × List UInt8
  | 0, rest => ([], rest)
  | n + 1, rest =>
    let (result, rest) := cutLine rest
    let (results, rest) := cutLines n rest
    (result :: results, rest)

/-! ### The first line -/

private theorem lineText_append {text after : List UInt8} (htext : 10 ∉ text) :
    lineText (text ++ 10 :: after) = text :=
  (Cut.takeWhile_ne_append htext after).1

private theorem lineText_of_notMem {rest : List UInt8} (hrest : 10 ∉ rest) : lineText rest = rest :=
  (Cut.takeWhile_ne_of_notMem hrest).1

private theorem notMem_lineText (rest : List UInt8) : 10 ∉ lineText rest := by
  intro hmem
  have hne := List.all_eq_true.mp List.all_takeWhile 10 hmem
  simp at hne

/-- There is a newline, which ends the first line, or there is none. -/
theorem firstLine_cases (rest : List UInt8) :
    (∃ text after, rest = text ++ 10 :: after ∧ 10 ∉ text ∧ lineText rest = text ∧
      firstLine rest = text ++ [10]) ∨
    (10 ∉ rest ∧ lineText rest = rest ∧ firstLine rest = rest) := by
  by_cases hmem : (10 : UInt8) ∈ rest
  · obtain ⟨text, after, rfl, htext⟩ := List.eq_append_cons_of_mem hmem
    refine .inl ⟨text, after, rfl, htext, lineText_append htext, ?_⟩
    rw [firstLine, lineText_append htext]
    exact List.take_length_add_append 1
  · refine .inr ⟨hmem, lineText_of_notMem hmem, ?_⟩
    rw [firstLine, lineText_of_notMem hmem, List.take_of_length_le (Nat.le_succ _)]

/-- Reading the bytes one by one to a newline or to one byte past the cap cuts the first line. -/
theorem upTo_bytes (rest : List UInt8) :
    ∃ bytes rest', upTo 10 (maxLine.toNat + 1) (rest.map (Token.item (ε := IoError))) =
        (.ok bytes, rest'.map .item) ∧
      cutLine rest = (lineOf bytes, rest') := by
  by_cases hshort : (lineText rest).length ≤ maxLine.toNat
  · obtain ⟨text, after, rfl, htext, hline, hfirst⟩ | ⟨hdelim, hline, hfirst⟩ :=
      firstLine_cases rest
    · rw [hline] at hshort
      obtain ⟨k, hk⟩ : ∃ k, maxLine.toNat + 1 = text.length + (k + 1) :=
        ⟨maxLine.toNat - text.length, by omega⟩
      refine ⟨text ++ [10], after, ?_, ?_⟩
      · rw [hk, List.map_append, List.map_cons, upTo_delim htext]
      · have hok : lineOf (text ++ [10]) = .ok (text ++ [10]) := by
          rw [lineOf_eq, if_neg fun h => h.2 List.getLast?_concat]
        have hdrop : (text ++ 10 :: after).drop (text ++ [10]).length = after := by
          rw [List.length_append, List.length_singleton]
          exact List.drop_length_add_append 1
        rw [cutLine, if_neg (by simp), hline, if_pos hshort, hfirst, hok, hdrop]
    · rw [hline] at hshort
      obtain ⟨k, hk⟩ : ∃ k, maxLine.toNat + 1 = rest.length + (k + 1) :=
        ⟨maxLine.toNat - rest.length, by omega⟩
      refine ⟨rest, [], ?_, ?_⟩
      · have hread := upTo_map_append hdelim (k + 1) ([] : List (Token IoError UInt8))
        rw [List.append_nil, upTo] at hread
        rw [hk, hread]
        simp [Except.map]
      · have hok : lineOf rest = .ok rest := by
          rw [lineOf_eq, if_neg fun h => absurd h.1 (by omega)]
        rw [hok, cutLine, hline, if_pos hshort, hfirst, List.drop_length]
        split
        · rename_i hnil
          rw [hnil]
        · rfl
  · have hprefix : lineText rest <+: rest := List.takeWhile_prefix _
    have hlength := hprefix.length_le
    obtain ⟨text, htext⟩ : ∃ text, rest.take (maxLine.toNat + 1) = text := ⟨_, rfl⟩
    have hfull : text.length = maxLine.toNat + 1 := by
      rw [← htext, List.length_take]
      omega
    have hwithin : text <+: lineText rest := by
      refine List.prefix_of_prefix_length_le ?_ hprefix (by omega)
      rw [← htext]
      exact List.take_prefix _ _
    have hdelim : 10 ∉ text := fun hmem => notMem_lineText rest (hwithin.mem hmem)
    refine ⟨text, rest.drop (maxLine.toNat + 1), ?_, ?_⟩
    · have hread := upTo_map_append hdelim 0
        ((rest.drop (maxLine.toNat + 1)).map (Token.item (ε := IoError)))
      rw [upTo, hfull, ← List.map_append, ← htext, List.take_append_drop] at hread
      rw [← htext]
      simpa [Except.map] using hread
    · have hlong : lineOf text = .error .lineTooLong := by
        rw [lineOf_eq, if_pos ⟨by omega, fun h => hdelim (List.mem_of_getLast? h)⟩]
      have hne : rest ≠ [] := by
        rintro rfl
        simp [lineText] at hshort
      rw [hlong, cutLine, if_neg hne, if_neg hshort]

/-! ### The calls -/

/-- There is no failed read and no end of the input before the end. -/
def Clean (s : Global) : Prop := tokens s = s.pending.map .item

private theorem clean_start {source : List Event} {content : List UInt8}
    (h : Splits source content) :
    Clean (.start source) := by
  have hsource (source : List Event) (hevents : ∀ event ∈ source,
      (∃ e, event = .failed e ∧ isInterrupted e = true) ∨
        ∃ bytes, event = .chunk bytes ∧ bytes ≠ []) :
      source.flatMap eventTokens = (source.flatMap Event.bytes).map .item := by
    induction source with
    | nil => rfl
    | cons event rest ih =>
      rw [List.flatMap_cons, List.flatMap_cons, List.map_append,
        ih fun event hevent => hevents event (List.mem_cons_of_mem _ hevent)]
      obtain ⟨e, rfl, he⟩ | ⟨bytes, rfl, hne⟩ := hevents event List.mem_cons_self
      · simp [eventTokens, he, Event.bytes]
      · simp [eventTokens, hne, Event.bytes]
  exact hsource source h.events

/-- A line is cut from what is pending. -/
theorem fileReadLine_cut {s : Global} (hs : Clean s) :
    ∃ s', call .file .readLine s = .ok ((cutLine s.pending).1, s') ∧
      s'.pending = (cutLine s.pending).2 ∧ Clean s' := by
  have hidle : Input.file.Idle s := trivial
  obtain ⟨s', hread, -, htokens⟩ := readUntil_eq hidle 10 (maxLine + 1)
  obtain ⟨bytes, rest', hupTo, hcut⟩ := upTo_bytes s.pending
  have hcap : (maxLine + 1).toNat = maxLine.toNat + 1 := rfl
  have hclean : tokens s = s.pending.map .item := hs
  rw [hcap, hclean, hupTo] at hread htokens
  have hpending : s'.pending = rest' := by
    rw [← items_tokens, htokens, items_map]
  refine ⟨s', ?_, by rw [hcut, hpending], htokens.trans (by rw [hpending])⟩
  rw [call, fileReadLine, hread, hcut]
  rfl

/-- A line that does not end with a newline is the end. -/
theorem cutLine_ended {rest bytes : List UInt8} (h : (cutLine rest).1 = .ok bytes)
    (hne : bytes ≠ [])
    (hlast : bytes.getLast? ≠ some 10) : (cutLine rest).2 = [] := by
  rw [cutLine] at h ⊢
  split
  · rfl
  · rename_i hrest
    rw [if_neg hrest] at h
    split at h
    · rename_i hshort
      obtain rfl : firstLine rest = bytes := Except.ok.inj h
      rw [if_pos hshort]
      obtain ⟨text, after, -, -, -, hfirst⟩ | ⟨-, -, hfirst⟩ := firstLine_cases rest
      · exact absurd (by rw [hfirst]; exact List.getLast?_concat) hlast
      · rw [hfirst, List.drop_length]
    · cases h

/-- Whatever a file holds and however its reads come, so long as none fails: reading lines gives
what the bytes alone say, call after call, and a line that does not end with a newline is the end of
the file. -/
theorem run_readLines {source : List Event} {content : List UInt8} (h : Splits source content)
    (n : Nat) :
    ∃ s, run .file (List.replicate n .readLine) (.start source) =
        .ok ((cutLines n content).1, s) ∧
      s.pending = (cutLines n content).2 ∧
      (∃ s', call .file .readLine s = .ok ((cutLine s.pending).1, s') ∧
        s'.pending = (cutLine s.pending).2) ∧
      ∀ bytes, (cutLine s.pending).1 = .ok bytes → bytes ≠ [] → bytes.getLast? ≠ some 10 →
        (cutLine s.pending).2 = [] := by
  have hrun (s : Global) (hs : Clean s) :
      ∃ s', run .file (List.replicate n .readLine) s = .ok ((cutLines n s.pending).1, s') ∧
        s'.pending = (cutLines n s.pending).2 ∧ Clean s' := by
    induction n generalizing s with
    | zero => exact ⟨s, rfl, rfl, hs⟩
    | succ n ih =>
      obtain ⟨s₁, hcall, hpending, hclean⟩ := fileReadLine_cut hs
      obtain ⟨s', hrun, hpending', hclean'⟩ := ih s₁ hclean
      rw [hpending] at hrun hpending'
      exact ⟨s', by rw [List.replicate_succ, run_cons hcall, hrun]; rfl, hpending', hclean'⟩
  obtain ⟨s, hs, hpending, hclean⟩ := hrun (.start source) (clean_start h)
  have hcontent : (Global.start source).pending = content := h.content
  rw [hcontent] at hs hpending
  obtain ⟨s', hcall, hpending', -⟩ := fileReadLine_cut hclean
  exact ⟨s, hs, hpending, ⟨s', hcall, hpending'⟩, fun _ => cutLine_ended⟩

/-- `a\nbc`, split in the middle of a line and with an interruption. -/
theorem run_readLines_two :
    ∃ s, run .file [.readLine, .readLine]
        (.start [.chunk [97, 10, 98], .failed ⟨.interrupted, ""⟩, .chunk [99]]) =
      .ok ([.ok [97, 10], .ok [98, 99]], s) ∧ s.pending = [] := by
  have hsplits : Splits [.chunk [97, 10, 98], .failed ⟨.interrupted, ""⟩, .chunk [99]]
      [97, 10, 98, 99] := by
    refine ⟨fun event hevent => ?_, rfl⟩
    obtain rfl | rfl | rfl : event = .chunk [97, 10, 98] ∨ event = .failed ⟨.interrupted, ""⟩ ∨
        event = .chunk [99] := by
      simpa using hevent
    · exact .inr ⟨_, rfl, by simp⟩
    · exact .inl ⟨_, rfl, rfl⟩
    · exact .inr ⟨_, rfl, by simp⟩
  have hcut : cutLines 2 [97, 10, 98, 99] = ([.ok [97, 10], .ok [98, 99]], []) := by
    decide +kernel
  obtain ⟨s, hrun, hpending, -⟩ := run_readLines hsplits 2
  rw [hcut] at hrun hpending
  exact ⟨s, hrun, hpending⟩

end TrantorCli.Streams
