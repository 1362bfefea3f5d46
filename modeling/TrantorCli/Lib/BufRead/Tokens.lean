import TrantorCli.Lib.BufRead

/-!
# Reading a stream that fails

A stream is looked at as what its reads come to: items, ends of the input and
failed reads. Neither how the items are split into reads nor an interruption is
seen in it. Reading to a delimiter under a cap, chunk by chunk, does what reading
token by token does.
-/

namespace BufRead

variable {σ ε α : Type}

/-- What reading comes to. -/
inductive Token (ε α : Type) where
  | item (a : α)
  /-- A read reports the end of the input. -/
  | ended
  /-- A read fails, and not by being interrupted. -/
  | failed (e : ε)

/-- The item of a token. -/
def Token.item? : Token ε α → Option α
  | .item a => some a
  | _ => none

/-- The items of a stream. -/
def items (ts : List (Token ε α)) : List α := ts.filterMap Token.item?

/-- No tokens, no items. -/
@[simp] theorem items_nil : items ([] : List (Token ε α)) = [] := rfl

/-- An item counts. -/
@[simp] theorem items_item (a : α) (ts : List (Token ε α)) :
    items (.item a :: ts) = a :: items ts := rfl

/-- An end of input is no item. -/
@[simp] theorem items_ended (ts : List (Token ε α)) : items (.ended :: ts) = items ts := rfl

/-- A failure is no item. -/
@[simp] theorem items_failed (e : ε) (ts : List (Token ε α)) :
    items (.failed e :: ts) = items ts := rfl

/-- Items are taken from one part after the other. -/
@[simp] theorem items_append (ts ts' : List (Token ε α)) :
    items (ts ++ ts') = items ts ++ items ts' :=
  List.filterMap_append

/-- Items alone are themselves. -/
@[simp] theorem items_map (l : List α) : items (l.map (Token.item (ε := ε))) = l := by
  induction l with
  | nil => rfl
  | cons a l ih => rw [List.map_cons, items_item, ih]

/-- Reads token by token, at most so many items, up to and including `delim`. -/
def upTo [BEq α] (delim : α) :
    Nat → List (Token ε α) → Except ε (List α) × List (Token ε α)
  | 0, ts => (.ok [], ts)
  | _ + 1, [] => (.ok [], [])
  | _ + 1, .ended :: ts => (.ok [], ts)
  | _ + 1, .failed e :: ts => (.error e, ts)
  | limit + 1, .item a :: ts =>
    if a == delim then (.ok [a], ts)
    else
      let (result, rest) := upTo delim limit ts
      (result.map (a :: ·), rest)

/-- The items before the next failed read, if that comes before an end of the input. -/
def stretch : List (Token ε α) → Option (List α)
  | [] => none
  | .ended :: _ => none
  | .failed _ :: _ => some []
  | .item a :: ts => (stretch ts).map (a :: ·)

/-- A failed read comes when reading to `delim` has taken items and is not done. -/
def CutShort (delim : α) (limit : Nat) (ts : List (Token ε α)) : Prop :=
  ∃ taken, stretch ts = some taken ∧ taken ≠ [] ∧ taken.length < limit ∧ delim ∉ taken

variable [BEq α] [LawfulBEq α] {delim : α}

/-! ### Token by token -/

/-- Items without the delimiter are taken whole. -/
theorem upTo_map_append {l : List α} (hl : delim ∉ l) (limit : Nat) (ts : List (Token ε α)) :
    upTo delim (l.length + limit) (l.map .item ++ ts) =
      ((upTo delim limit ts).1.map (l ++ ·), (upTo delim limit ts).2) := by
  induction l with
  | nil =>
    have hid : ([] ++ · : List α → List α) = id := rfl
    rw [hid, Except.map_id, List.length_nil, Nat.zero_add]
    rfl
  | cons a l ih =>
    obtain ⟨ha, hl⟩ := not_or.mp (fun h => hl (List.mem_cons.mpr h))
    have hne : (a == delim) = false := by simpa using Ne.symm ha
    have hlength : (a :: l).length + limit = l.length + limit + 1 := by
      rw [List.length_cons]
      omega
    rw [hlength, List.map_cons, List.cons_append, upTo, hne, ih hl]
    cases (upTo delim limit ts).1 <;> rfl

/-- The delimiter ends the reading. -/
theorem upTo_delim {l : List α} (hl : delim ∉ l) (limit : Nat) (ts : List (Token ε α)) :
    upTo delim (l.length + (limit + 1)) (l.map .item ++ .item delim :: ts) =
      (.ok (l ++ [delim]), ts) := by
  rw [upTo_map_append hl, upTo, beq_self_eq_true, if_pos rfl]
  rfl

/-- Reading ends with what was there, or fails where the stretch before a failed read is neither
long enough nor delimited. -/
theorem upTo_cases (delim : α) (limit : Nat) (ts : List (Token ε α)) :
    (∃ l, (upTo delim limit ts).1 = .ok l ∧ l ++ items (upTo delim limit ts).2 = items ts ∧
      ∀ taken, stretch ts = some taken → taken.length < limit → delim ∈ taken) ∨
    (∃ e taken, (upTo delim limit ts).1 = .error e ∧
      taken ++ items (upTo delim limit ts).2 = items ts ∧
      stretch ts = some taken ∧ taken.length < limit ∧ delim ∉ taken) := by
  induction limit, ts using upTo.induct delim with
  | case1 ts => exact .inl ⟨[], by rw [upTo], by rw [upTo, List.nil_append], by simp⟩
  | case2 limit => exact .inl ⟨[], rfl, rfl, by simp [stretch]⟩
  | case3 limit ts => exact .inl ⟨[], rfl, rfl, by simp [stretch]⟩
  | case4 limit e ts => exact .inr ⟨e, [], rfl, rfl, rfl, by simp, by simp⟩
  | case5 limit a ts ha =>
    rw [upTo, if_pos ha]
    refine .inl ⟨[a], rfl, rfl, fun taken htaken _ => ?_⟩
    obtain ⟨taken, -, rfl⟩ := Option.map_eq_some_iff.mp htaken
    rw [eq_of_beq ha]
    exact List.mem_cons_self
  | case6 limit a ts ha result rest hread ih =>
    rw [hread] at ih
    rw [upTo, if_neg ha, hread]
    obtain ⟨l, rfl, hitems, hdone⟩ | ⟨e, taken, rfl, hitems, htaken, hlength, hdelim⟩ := ih
    · refine .inl ⟨a :: l, rfl, congrArg (a :: ·) hitems, fun taken htaken hlength => ?_⟩
      obtain ⟨before, hbefore, rfl⟩ := Option.map_eq_some_iff.mp htaken
      exact List.mem_cons_of_mem _ (hdone before hbefore (Nat.lt_of_succ_lt_succ hlength))
    · refine .inr ⟨e, a :: taken, rfl, congrArg (a :: ·) hitems, ?_, Nat.succ_lt_succ hlength, ?_⟩
      · rw [stretch, htaken]
        rfl
      · have hne : delim ≠ a := fun h => ha (by rw [h, beq_self_eq_true])
        exact fun h => (List.mem_cons.mp h).elim hne hdelim

/-- What is read is within the cap, and only its last item can be the delimiter. -/
theorem shape_of_upTo {limit : Nat} {ts rest : List (Token ε α)} {l : List α}
    (h : upTo delim limit ts = (.ok l, rest)) : l.length ≤ limit ∧ delim ∉ l.dropLast := by
  induction limit, ts using upTo.induct delim generalizing l rest with
  | case1 ts =>
    obtain ⟨⟨rfl⟩, -⟩ := Prod.mk.inj h
    simp
  | case2 limit =>
    obtain ⟨⟨rfl⟩, -⟩ := Prod.mk.inj h
    simp
  | case3 limit ts =>
    obtain ⟨⟨rfl⟩, -⟩ := Prod.mk.inj h
    simp
  | case4 limit e ts => cases h
  | case5 limit a ts ha =>
    rw [upTo, if_pos ha] at h
    obtain ⟨⟨rfl⟩, -⟩ := Prod.mk.inj h
    simp
  | case6 limit a ts ha result rest' hread ih =>
    rw [upTo, if_neg ha, hread] at h
    obtain ⟨hresult, -⟩ := Prod.mk.inj h
    cases result with
    | error e => cases hresult
    | ok l' =>
      obtain ⟨rfl⟩ := hresult
      obtain ⟨hlength, hdelim⟩ := ih hread
      refine ⟨Nat.succ_le_succ hlength, fun hmem => ?_⟩
      cases l' with
      | nil => cases hmem
      | cons b l' =>
        obtain hhead | htail := List.mem_cons.mp hmem
        · exact ha (by rw [hhead, beq_self_eq_true])
        · exact hdelim htail

/-- What reading loses is nothing exactly when it is not cut short. -/
theorem exists_lost_of_upTo (delim : α) (limit : Nat) (ts : List (Token ε α)) :
    ∃ lost, lost ++ ((upTo delim limit ts).1.toOption.getD [] ++ items (upTo delim limit ts).2) =
        items ts ∧
      (lost = [] ↔ ¬CutShort delim limit ts) := by
  obtain ⟨l, hl, hitems, hdone⟩ | ⟨e, taken, he, hitems, htaken, hlength, hdelim⟩ :=
    upTo_cases delim limit ts
  · refine ⟨[], by rw [hl]; exact hitems, iff_of_true rfl ?_⟩
    rintro ⟨taken, htaken, -, hlength, hdelim⟩
    exact hdelim (hdone taken htaken hlength)
  · refine ⟨taken, by rw [he]; exact hitems, ?_, fun hkept => ?_⟩
    · rintro rfl ⟨taken, htaken', hne, -⟩
      exact hne (Option.some.inj (htaken'.symm.trans htaken))
    · by_contra hne
      exact hkept ⟨taken, htaken, hne, hlength, hdelim⟩

/-! ### Chunk by chunk -/

/-- How the states of a reader that can fail are looked at. -/
structure StreamView (σ ε α : Type) where
  /-- Nothing is lent out. -/
  Idle : σ → Prop
  /-- What reading comes to. -/
  tokens : σ → List (Token ε α)
  /-- Bounds how often the reader can be asked before it ends. -/
  cost : σ → Nat

/-- What a fill leads to. -/
inductive StreamView.Filled (v : StreamView σ ε α) (r : Reader σ ε α) (interrupted : ε → Bool)
    (s s' : σ) : Except ε (List α) → Prop where
  | again {e : ε} (he : interrupted e = true) (hidle : v.Idle s')
    (htokens : v.tokens s' = v.tokens s)
      (hcost : v.cost s' < v.cost s) : StreamView.Filled v r interrupted s s' (.error e)
  | failed {e : ε} (he : interrupted e = false) (hidle : v.Idle s')
      (htokens : v.tokens s = .failed e :: v.tokens s') :
      StreamView.Filled v r interrupted s s' (.error e)
  | ended (hidle : v.Idle s')
      (htokens : v.tokens s = .ended :: v.tokens s' ∨ v.tokens s = [] ∧ v.tokens s' = []) :
      StreamView.Filled v r interrupted s s' (.ok [])
  | lent {available : List α} (hne : available ≠ [])
      (htokens : available.map .item <+: v.tokens s)
      (hconsume : ∀ n, 0 < n → n ≤ available.length → v.Idle (r.consume n s') ∧
        v.tokens (r.consume n s') = (v.tokens s).drop n ∧ v.cost (r.consume n s') < v.cost s) :
      StreamView.Filled v r interrupted s s' (.ok available)

/-- A reader that never blocks and gives its stream in order. -/
structure Reader.Follows (r : Reader σ ε α) (interrupted : ε → Bool) (v : StreamView σ ε α) :
    Prop where
  consume_zero : ∀ s, v.Idle s → v.Idle (r.consume 0 s) ∧ v.tokens (r.consume 0 s) = v.tokens s
  fillBuf : ∀ s, v.Idle s →
    ∃ result s', r.fillBuf s = .ok (result, s') ∧ v.Filled r interrupted s s' result

omit [BEq α] [LawfulBEq α] in
/-- A cap that is not used up shortens what is lent. -/
theorem Reader.take_fillBuf {r : Reader σ ε α} {limit : Nat} {s s' : σ}
    {result : Except ε (List α)} (hlimit : limit ≠ 0) (h : r.fillBuf s = .ok (result, s')) :
    r.take.fillBuf (limit, s) = .ok (result.map (List.take limit), limit, s') := by
  have hmin (l : List α) : l.take (min l.length limit) = l.take limit := by
    rw [Nat.min_comm, List.take_eq_take_iff]
    omega
  cases result <;> simp [Reader.take, hlimit, h, hmin, Except.map]

omit [BEq α] [LawfulBEq α] in
/-- Using part of what a capped reader lends. -/
theorem Reader.take_consume {r : Reader σ ε α} {limit n : Nat} {s : σ} (hn : n ≤ limit) :
    r.take.consume n (limit, s) = (limit - n, r.consume n s) := by
  simp only [Reader.take, Nat.min_eq_left hn]

/-- A delimiter splits what is lent. -/
theorem exists_of_idxOf? {l : List α} {i : Nat} (h : l.idxOf? delim = some i) :
    ∃ before after, l = before ++ delim :: after ∧ delim ∉ before ∧ before.length = i := by
  obtain ⟨hi, hat, hbefore⟩ := List.idxOf?_eq_some_iff.mp h
  refine ⟨l.take i, l.drop (i + 1), ?_, fun hmem => ?_, List.length_take_of_le (by omega)⟩
  · rw [← hat, List.getElem_cons_drop, List.take_append_drop]
  · obtain ⟨j, hj, hget⟩ := List.mem_take_iff_getElem.mp hmem
    exact hbefore j (by omega) hget

/-- A capped reader reads to a delimiter as one reads token by token, and always returns. -/
theorem Reader.Follows.take_readUntil {r : Reader σ ε α} {interrupted : ε → Bool}
    {v : StreamView σ ε α} (h : r.Follows interrupted v) (delim : α) {fuel : Nat} (limit : Nat)
    {s : σ} (hs : v.Idle s) (hfuel : v.cost s < fuel) (buf : List α) :
    ∃ limit' s', r.take.readUntil interrupted delim fuel buf (limit, s) =
        .ok ((upTo delim limit (v.tokens s)).1.map (buf ++ ·), limit', s') ∧
      v.Idle s' ∧ v.tokens s' = (upTo delim limit (v.tokens s)).2 := by
  induction fuel generalizing limit s buf with
  | zero => omega
  | succ fuel ih =>
    cases limit with
    | zero =>
      obtain ⟨hidle, htokens⟩ := h.consume_zero s hs
      refine ⟨0, r.consume 0 s, ?_, hidle, by rw [htokens, upTo]⟩
      simp [Reader.readUntil, Reader.take, upTo, Except.map]
    | succ limit =>
      obtain ⟨result, s', hfill, hfilled⟩ := h.fillBuf s hs
      rw [Reader.readUntil, Reader.take_fillBuf (Nat.succ_ne_zero limit) hfill]
      cases hfilled with
      | @again e he hidle htokens hcost =>
        obtain ⟨limit', s'', hread, hidle', htokens'⟩ := ih (limit + 1) hidle (by omega) buf
        rw [htokens] at hread htokens'
        exact ⟨limit', s'', by simpa [Except.map, he] using hread, hidle', htokens'⟩
      | @failed e he hidle htokens =>
        exact ⟨limit + 1, s', by simp [Except.map, he, htokens, upTo], hidle, by rw [htokens, upTo]⟩
      | ended hidle htokens =>
        obtain ⟨hidle', hzero⟩ := h.consume_zero s' hidle
        have hread : upTo delim (limit + 1) (v.tokens s) = (.ok [], v.tokens s') := by
          obtain htokens | ⟨htokens, hnil⟩ := htokens
          · rw [htokens, upTo]
          · rw [htokens, hnil, upTo]
        rw [hread]
        refine ⟨limit + 1, r.consume 0 s', ?_, hidle', hzero⟩
        simp [Except.map, Reader.take]
      | @lent available hne htokens hconsume =>
        obtain ⟨l, hl⟩ : ∃ l, available.take (limit + 1) = l := ⟨_, rfl⟩
        have hlength : l.length ≤ limit + 1 ∧ l.length ≤ available.length := by
          rw [← hl, List.length_take]
          omega
        have hpos : 0 < l.length := by
          rw [← hl, List.length_take]
          have := List.length_pos_iff.mpr hne
          omega
        have hprefix : l.map .item <+: v.tokens s := by
          rw [← hl, List.map_take]
          exact (List.take_prefix _ _).trans htokens
        obtain ⟨ts, hts⟩ := hprefix
        simp only [Except.map, hl]
        cases hidx : l.idxOf? delim with
        | some i =>
          obtain ⟨before, after, rfl, hbefore, rfl⟩ := exists_of_idxOf? hidx
          have hi : before.length + 1 ≤ (before ++ delim :: after).length := by
            rw [List.length_append, List.length_cons]
            omega
          obtain ⟨k, hk⟩ : ∃ k, limit + 1 = before.length + (k + 1) :=
            ⟨limit - before.length, by omega⟩
          obtain ⟨hidle, hafter, -⟩ := hconsume (before.length + 1) (by omega) (by omega)
          have htokens' : v.tokens s =
            before.map .item ++ .item delim :: (after.map .item ++ ts) := by
            rw [← hts]
            simp
          have hread : upTo delim (limit + 1) (v.tokens s) =
              (.ok (before ++ [delim]), after.map .item ++ ts) := by
            rw [htokens', hk, upTo_delim hbefore]
          rw [hread]
          have htake : (before ++ delim :: after).take (before.length + 1) = before ++ [delim] :=
            List.take_length_add_append 1
          refine ⟨limit - before.length, r.consume (before.length + 1) s', ?_, hidle, ?_⟩
          · have hamount : limit + 1 - (before.length + 1) = limit - before.length := by omega
            rw [← hamount, ← Reader.take_consume (by omega)]
            simp only [htake]
          · have hlength : (before.map (Token.item (ε := ε))).length = before.length :=
              List.length_map _
            rw [hafter, htokens', ← hlength, List.drop_length_add_append]
            rfl
        | none =>
          have hdelim : delim ∉ l := List.idxOf?_eq_none_iff.mp hidx
          obtain ⟨hidle, hafter, hcost⟩ := hconsume l.length hpos hlength.2
          obtain ⟨limit', s'', hread, hidle', htokens'⟩ :=
            ih (limit + 1 - l.length) hidle (by omega) (buf ++ l)
          have hrest : v.tokens (r.consume l.length s') = ts := by
            rw [hafter, ← hts]
            exact List.drop_left' (List.length_map _)
          have hupTo : upTo delim (limit + 1) (v.tokens s) = _ :=
            (congrArg₂ (upTo delim) (by omega) hts.symm).trans
              (upTo_map_append hdelim (limit + 1 - l.length) ts)
          rw [hrest] at hread htokens'
          rw [hupTo]
          refine ⟨limit', s'', ?_, hidle', htokens'⟩
          simp only [if_neg (Nat.ne_of_gt hpos)]
          rw [Reader.take_consume (by omega), hread]
          cases (upTo delim (limit + 1 - l.length) ts).1 with
          | error e => rfl
          | ok more => simp only [Except.map, List.append_assoc]

end BufRead
