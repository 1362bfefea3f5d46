import TrantorCli.OpenFiles.Writers

/-!
# The cursor streams share

A stream made at an offset writes on where the open file's cursor stands, which
every other stream on the descriptor and every child handed it moves too: what
they write one after the other lies one behind the other. A stream made to append
looks for the end before each write, and leaves the descriptor as it was opened.
-/

open Interaction

namespace TrantorCli.OpenFiles

/-! ### Where bytes land -/

/-- A file where `bytes` were written through an open file whose cursor stood at `cursor`. -/
def landed (of : OpenFile) (cursor : Nat) (l bytes : List UInt8) : List UInt8 :=
  if of.append || !of.positioned then l ++ bytes else l.overwrite 0 cursor bytes

/-- Nothing lands of nothing. -/
@[simp] theorem landed_nil (of : OpenFile) (cursor : Nat) (l : List UInt8) :
    landed of cursor l [] = l := by
  simp [landed]

/-- What is written next lands behind it. -/
theorem landed_append (of : OpenFile) (cursor : Nat) (l a b : List UInt8) :
    landed of (cursor + a.length) (landed of cursor l a) b = landed of cursor l (a ++ b) := by
  simp only [landed]
  split
  · rw [List.append_assoc]
  · rw [List.overwrite_append]

/-- `o` is as it was opened, but for its cursor. -/
def OpenedAs (of : OpenFile) (o : Nat) (t : Files) : Prop :=
  (t.openFiles o).file = of.file ∧ (t.openFiles o).append = of.append ∧
    (t.openFiles o).positioned = of.positioned

/-- Since the log was `log`, the cursor at `cursor` and `l` in the file, whatever reached the file
went through `o`; `taken` is of the program, and of others only what `P` allows. -/
def Through (P : Chunk → Prop) (of : OpenFile) (o : Nat) (log : List Chunk) (cursor : Nat)
    (l taken : List UInt8) (t : Files) : Prop :=
  OpenedAs of o t ∧ ∃ chunks, t.log = log ++ chunks ∧
    t.contents of.file = landed of cursor l (onFile of.file chunks) ∧
    (of.append = false → of.positioned = true →
      (t.openFiles o).cursor = cursor + (onFile of.file chunks).length) ∧
    mine chunks = taken ∧ ∀ c ∈ chunks, if c.mine then c.file = of.file else P c

/-- What others do to the file of `o` they do by writing through `o`, of what `P` allows. -/
def OnlyThrough (P : Chunk → Prop) (of : OpenFile) (o : Nat) (w w' : Files) : Prop :=
  w'.table = w.table ∧
    ((∃ bytes, P ⟨false, of.file, bytes⟩ ∧ w' = w.accept false o bytes) ∨
      (w'.openFiles o = w.openFiles o ∧ w'.contents of.file = w.contents of.file ∧
        ∃ chunks, w'.log = w.log ++ chunks ∧ ∀ c ∈ chunks, c.mine = false ∧ c.file ≠ of.file ∧ P c))

variable {others : Files → Files → Prop} {P : Chunk → Prop} {of : OpenFile} {o fd cursor : Nat}
  {log : List Chunk} {l taken : List UInt8} {w s t : Files}

private theorem onFile_eq_nil {f : Nat} {chunks : List Chunk} (h : ∀ c ∈ chunks, c.file ≠ f) :
    onFile f chunks = [] := by
  have hnone : chunks.filter (·.file = f) = [] := by
    rw [List.filter_eq_nil_iff]
    exact fun c hc => by simp [h c hc]
  rw [onFile, hnone, List.flatMap_nil]

private theorem Through.refl (P : Chunk → Prop) (h : OpenedAs of o t)
    (hcursor : (t.openFiles o).cursor = cursor ∨
    of.positioned = false) : Through P of o t.log cursor (t.contents of.file) [] t := by
  refine ⟨h, [], (List.append_nil _).symm, by simp, fun _ hpositioned => ?_, rfl, nofun⟩
  rcases hcursor with hcursor | hnone
  · exact hcursor
  · exact absurd hpositioned (by simp [hnone])

/-- A write through `o` lands behind what was written through it before. -/
theorem Through.accept (h : Through P of o log cursor l taken s) (m : Bool) (bytes : List UInt8)
    (hP : m = false → P ⟨false, of.file, bytes⟩) :
    Through P of o log cursor l (taken ++ if m then bytes else []) (s.accept m o bytes) := by
  obtain ⟨⟨hfile, happend, hpositioned⟩, chunks, hlog, hcontents, hcursor, htaken, hchunks⟩ := h
  obtain ⟨hfile', happend', hpositioned'⟩ := openFiles_accept s m o bytes o
  refine ⟨⟨by rw [hfile', hfile], by rw [happend', happend], by rw [hpositioned', hpositioned]⟩,
    chunks ++ [⟨m, of.file, bytes⟩], ?_, ?_, fun hnot hhas => ?_, ?_, fun c hc => ?_⟩
  · rw [log_accept, hlog, hfile, List.append_assoc]
  · rw [contents_accept, if_pos hfile, onFile_append, onFile_single, if_pos rfl, ← landed_append,
      ← hcontents,
      Files.position, happend, hpositioned, hfile, landed]
    by_cases hend : (of.append || !of.positioned) = true
    · rw [if_pos hend, if_pos hend, List.overwrite_length]
    · rw [if_neg hend, if_neg hend, hcursor (by simp_all) (by simp_all)]
  · rw [cursor_accept, Files.position, happend, hpositioned, hnot, hhas, onFile_append,
      onFile_single,
      if_pos rfl, List.length_append, ← Nat.add_assoc, ← hcursor hnot hhas]
    rfl
  · rw [mine_append, htaken, mine_single]
  · rcases List.mem_append.mp hc with hold | hnew
    · exact hchunks c hold
    · rw [List.mem_singleton.mp hnew]
      cases m with
      | true => exact rfl
      | false => exact hP rfl

private theorem Through.besides (h : Through P of o log cursor l taken s)
    (hothers : OnlyThrough P of o s t) :
    Through P of o log cursor l taken t := by
  rcases hothers.2 with ⟨bytes, hP, rfl⟩ | ⟨hsame, hcontents', new, hlog', hnew⟩
  · simpa using h.accept false bytes fun _ => hP
  · obtain ⟨⟨hfile, happend, hpositioned⟩, chunks, hlog, hcontents, hcursor, htaken, hchunks⟩ := h
    have hnone : onFile of.file (chunks ++ new) = onFile of.file chunks := by
      rw [onFile_append, onFile_eq_nil fun c hc => (hnew c hc).2.1, List.append_nil]
    refine ⟨by rw [OpenedAs, hsame]; exact ⟨hfile, happend, hpositioned⟩, chunks ++ new,
      ?_, ?_, ?_, ?_, ?_⟩
    · rw [hlog', hlog, List.append_assoc]
    · rw [hcontents', hcontents, hnone]
    · rw [hnone, hsame]
      exact hcursor
    · rw [mine_append, htaken, mine_eq_nil fun c hc => (hnew c hc).1, List.append_nil]
    · intro c hc
      rcases List.mem_append.mp hc with hold | hc
      · exact hchunks c hold
      · rw [(hnew c hc).1]
        exact (hnew c hc).2.2

/-- Calls that write nothing and move no cursor keep it. -/
theorem Through.of_eq (h : Through P of o log cursor l taken s)
    (hopen : t.openFiles o = s.openFiles o)
    (hcontents : t.contents of.file = s.contents of.file) (hlog : t.log = s.log) :
    Through P of o log cursor l taken t := by
  obtain ⟨hof, chunks, hchunks⟩ := h
  refine ⟨by rw [OpenedAs, hopen]; exact hof, chunks, ?_⟩
  rw [hlog, hcontents, hopen]
  exact hchunks

/-- From where the cursor is set, the file and the log are what they are there. -/
theorem Through.seek (h : Through P of o log cursor l taken t) (offset : Nat) :
    Through P of o t.log offset (t.contents of.file) [] (t.setCursor o offset) := by
  obtain ⟨hfile, happend, hpositioned⟩ := openFiles_setCursor t o offset o
  obtain ⟨hfile', happend', hpositioned'⟩ := h.1
  refine Through.refl (t := t.setCursor o offset) P ⟨hfile.trans hfile', happend.trans happend',
    hpositioned.trans hpositioned'⟩ (.inl ?_)
  simp [Files.setCursor]

/-- A stream made at an offset: until then all went through the cursor where it stood, and from then
on all goes from the offset on. -/
def MadeAt (P : Chunk → Prop) (of : OpenFile) (o : Nat) (w : Files) (offset : UInt64) :
    Except OsError Output → Files → Prop
  | .ok out, t => out.endWriter = false ∧ w.table out.fd = none ∧
    t.table = Function.update w.table out.fd (some o) ∧
      ∃ m, Through P of o w.log (w.openFiles o).cursor (w.contents of.file) [] m ∧
      Through P of o m.log offset.toNat (m.contents of.file) [] t
  | .error _, t => t.table = w.table ∧
    Through P of o w.log (w.openFiles o).cursor (w.contents of.file) [] t

section Amid

variable (hothers : ∀ s t, others s t → OnlyThrough P of o s t)
include hothers

private theorem Through.meanwhile (h : Through P of o log cursor l taken s)
    (hst : (kernel others).Meanwhile s t) : Through P of o log cursor l taken t :=
  hst.keeps (fun s t h hother => h.besides (hothers s t hother)) h

private theorem table_meanwhile (hst : (kernel others).Meanwhile s t) : t.table = s.table :=
  hst.keeps (I := fun t => t.table = s.table)
    (fun s t h hother => (hothers s t hother).1.trans h) rfl

/-- The duplicate of a descriptor, under a number that was free. -/
theorem dup_through {Q : Except OsError Nat → Files → Prop}
    (hw : Through P of o log cursor l taken s) (hfd : s.table fd = some o)
    (hok : ∀ new, s.table new = none → ∀ t, Through P of o log cursor l taken t →
      t.table = Function.update s.table new (some o) → Q (.ok new) t)
    (herror : ∀ t, Through P of o log cursor l taken t → t.table = s.table → ∀ e, Q (.error e) t) :
    Fallible.EnsuresAmid (kernel others) Q (dup fd) s := by
  refine dup_ensuresAmid (fun t hst new o' ho _ hfree u htu => ?_) fun t hst e =>
    herror t (hw.meanwhile hothers hst) (table_meanwhile hothers hst) e
  have htable := table_meanwhile hothers hst
  obtain rfl : o = o' := Option.some.inj (by rw [← ho, htable, hfd])
  refine hok new (by rw [← htable, hfree]) u ?_ ?_
  · exact ((hw.meanwhile hothers hst).of_eq rfl rfl rfl :
      Through P of o log cursor l taken (t.setTable new (some o))).meanwhile hothers htu
  · rw [table_meanwhile hothers htu, ← htable]
    rfl

/-- The stream shares the open file of its descriptor, at the offset. -/
theorem writeViaStream_through (offset : UInt64) (hw : OpenedAs of o w)
    (hfd : w.table fd = some o) :
    Fallible.EnsuresAmid (kernel others) (MadeAt P of o w offset)
      (writeViaStream (.file fd) offset) w := by
  refine Fallible.ensuresAmid_bind (dup_through hothers (Through.refl P hw (.inl rfl)) hfd
    (fun new hfree t ht htable => ?_) fun t ht htable e u htu =>
      ⟨by rw [table_meanwhile hothers htu, htable], ht.meanwhile hothers htu⟩)
  have hnew : t.table new = some o := by rw [htable, Function.update_self]
  refine Fallible.ensuresAmid_bind (orDrop_ensuresAmid (seekIfPositioned_ensuresAmid ?_ ?_ ?_))
  · intro u htu o' ho' _ v huv x hvx y hxy
    obtain rfl : o = o' := Option.some.inj (by rw [← ho', table_meanwhile hothers htu, hnew])
    have hu := ht.meanwhile hothers htu
    have hy : (kernel others).Meanwhile (u.setCursor o offset.toNat) y := (huv.trans hvx).trans hxy
    refine ⟨rfl, hfree, ?_, u, hu, (hu.seek offset.toNat).meanwhile hothers hy⟩
    rw [table_meanwhile hothers hy, ← htable, ← table_meanwhile hothers htu]
    rfl
  · intro u htu hnone v huv x hvx y hxy
    have hu := ht.meanwhile hothers htu
    have hy : (kernel others).Meanwhile u y := (huv.trans hvx).trans hxy
    have hpipe := hnone o (by rw [table_meanwhile hothers htu, hnew])
    refine ⟨rfl, hfree, by rw [table_meanwhile hothers (htu.trans hy), htable], u, hu, ?_⟩
    exact (Through.refl P hu.1 (.inr (hu.1.2.2.symm.trans hpipe))).meanwhile hothers hy
  · intro u htu e v huv x hvx y hxy
    refine ⟨?_, ((ht.meanwhile hothers (htu.trans huv)).of_eq rfl rfl rfl :
      Through P of o w.log (w.openFiles o).cursor (w.contents of.file) []
        (v.setTable new none)).meanwhile
        hothers (hvx.trans hxy)⟩
    rw [table_meanwhile hothers (hvx.trans hxy)]
    change Function.update v.table new none = w.table
    rw [table_meanwhile hothers (htu.trans huv), htable, Function.update_idem, ← hfree,
      Function.update_eq_self]

/-- What is written through the descriptor, with whatever others write through it. -/
theorem writeEach_through {out : Output} (hend : out.endWriter = false) (rounds : Nat)
    (writes : List (List UInt8)) (hs : Through P of o log cursor l [] s)
    (hfd : s.table out.fd = some o) :
    Program.EnsuresAmid (kernel others) (fun results t => ∃ taken, Taken writes results taken ∧
      Through P of o log cursor l taken t ∧ t.table = s.table) (writeEach rounds out writes) s := by
  refine (writeEach_ensuresAmid
    (I := fun taken t => Through P of o log cursor l taken t ∧ t.table = s.table)
    (fun taken s t hs hst => ⟨hs.1.besides (hothers s t hst), by rw [(hothers s t hst).1, hs.2]⟩)
    (fun taken buf s hs => ?_) rounds writes [] s ⟨hs, rfl⟩).mono fun results t h => ?_
  · rw [Output.write, hend]
    refine writeFd_ensuresAmid (fun t hst n o' ho u htu => ?_) fun t hst e =>
      ⟨hs.1.meanwhile hothers hst, by rw [table_meanwhile hothers hst, hs.2]⟩
    obtain rfl : o = o' := by
      rw [table_meanwhile hothers hst, hs.2, hfd] at ho
      exact Option.some.inj ho
    refine ⟨?_, by
      rw [table_meanwhile hothers htu, table_accept, table_meanwhile hothers hst, hs.2]⟩
    exact ((hs.1.meanwhile hothers hst).accept true (buf.take n) (by simp)).meanwhile hothers htu
  · obtain ⟨parts, htaken, ht⟩ := h
    exact ⟨parts, htaken, ht⟩

/-- A stream made at an offset shares its cursor with every child its descriptor was handed to:
whatever order their writes come in, from the offset on they lie one behind the other, and what was
written through the cursor before that lies where it stood. -/
theorem cursor_is_shared (rounds : Nat) (offset : UInt64) (writes : List (List UInt8))
    (hfd : w.table fd = some o) (hof : w.openFiles o = of)
    {result : Except OsError (List (Except (Option OsError) Unit))} {w' : Files}
    (hrun : Reaches (kernel others)
      ((streaming rounds (writeViaStream (.file fd) offset) writes).run, w) (.done result, w')) :
    ∃ before after, w'.log = w.log ++ before ++ after ∧ mine before = [] ∧
      w'.contents of.file = landed of offset.toNat
        (landed of of.cursor (w.contents of.file) (onFile of.file before)) (onFile of.file after) ∧
      (∀ results, result = .ok results → Taken writes results (mine after)) ∧
      (∀ e, result = .error e → after = []) := by
  subst hof
  have hafter : Fallible.EnsuresAmid (kernel others) (fun result t =>
      (∀ results, result = .ok results → ∃ m taken,
        Through P (w.openFiles o) o w.log (w.openFiles o).cursor (w.contents (w.openFiles o).file)
          [] m ∧
        Through P (w.openFiles o) o m.log offset.toNat (m.contents (w.openFiles o).file) taken t ∧
          Taken writes results taken) ∧
      (∀ e, result = .error e → Through P (w.openFiles o) o w.log (w.openFiles o).cursor
        (w.contents (w.openFiles o).file) [] t))
      (streaming rounds (writeViaStream (.file fd) offset) writes) w := by
    refine Fallible.ensuresAmid_bind
      ((writeViaStream_through hothers offset ⟨rfl, rfl, rfl⟩ hfd).mono
      fun result t ht => ?_)
    cases result with
    | error e => exact fun u htu => ⟨nofun, fun _ _ => ht.2.meanwhile hothers htu⟩
    | ok out =>
      obtain ⟨hend, -, htable, m, hm, hseek⟩ := ht
      refine Program.EnsuresAmid.bind
        ((writeEach_through hothers hend rounds writes hseek
          (by rw [htable, Function.update_self])).mono fun results u h => ?_)
      obtain ⟨taken, htaken, hu, -⟩ := h
      intro v huv
      refine ⟨?_, nofun⟩
      rintro _ ⟨⟩
      exact ⟨m, taken, hm, hu.meanwhile hothers huv, htaken⟩
  obtain ⟨hok, herror⟩ := hafter.reaches hrun
  cases result with
  | ok results =>
    obtain ⟨m, taken, ⟨-, before, hlog, hcontents, -, hmine, -⟩,
      ⟨-, after, hlog', hcontents', -, rfl, -⟩, htaken⟩ := hok results rfl
    refine ⟨before, after, by rw [hlog', hlog], hmine, by rw [hcontents', hcontents], ?_, nofun⟩
    rintro _ ⟨⟩
    exact htaken
  | error e =>
    obtain ⟨-, before, hlog, hcontents, -, hmine, -⟩ := herror e rfl
    refine ⟨before, [], by rw [hlog, List.append_nil], hmine, ?_, nofun, fun _ _ => rfl⟩
    rw [onFile_nil, landed_nil, hcontents]

end Amid

/-- A child writes `9` before the seek and `5` between two writes of the stream. -/
theorem cursor_is_shared_with_child : ∃ w' : Files, w'.contents 0 = [1, 7, 5, 8, 5, 6] ∧
    ∃ before after, w'.log = [] ++ before ++ after ∧ mine before = [] ∧
      w'.contents 0 = landed ⟨0, 2, false, true⟩ 1
        (landed ⟨0, 2, false, true⟩ 2 [1, 2, 3, 4, 5, 6] (onFile 0 before)) (onFile 0 after) ∧
      (∀ results, (.ok [.ok ()] : Except OsError _) = .ok results →
        Taken [[7, 8]] results (mine after)) ∧
      (∀ e, (.ok [.ok ()] : Except OsError (List (Except (Option OsError) Unit))) = .error e →
        after = []) := by
  let w : Files := ⟨fun fd => if fd = 3 then some 0 else none, fun _ => ⟨0, 2, false, true⟩, 1,
    fun _ => [1, 2, 3, 4, 5, 6], []⟩
  let m := ((w.setTable 4 (some 0)).accept false 0 [9]).setCursor 0 (UInt64.toNat 1)
  refine ⟨((m.accept true 0 [7]).accept false 0 [5]).accept true 0 [8], by decide, ?_⟩
  have hothers : ∀ s t, OnlyThrough (fun _ => True) ⟨0, 2, false, true⟩ 0 s t →
      OnlyThrough (fun _ => True) ⟨0, 2, false, true⟩ 0 s t := fun _ _ h => h
  have hfd : w.table 3 = some 0 := rfl
  refine cursor_is_shared hothers 2 1 [[7, 8]] hfd rfl ?_
  have hchild (s : Files) (bytes : List UInt8) :
      OnlyThrough (fun _ => True) ⟨0, 2, false, true⟩ 0 s (s.accept false 0 bytes) :=
    ⟨rfl, .inl ⟨bytes, trivial, rfl⟩⟩
  exact .head (.call (.inl ⟨4, 0, rfl, rfl, by decide, rfl, rfl⟩)) <|
    .head (.others (hchild _ [9])) <|
    .head (.call (.inl ⟨0, rfl, rfl, rfl, rfl⟩)) <|
    .head (.call (.inl ⟨1, 0, rfl, by decide, rfl, rfl⟩)) <|
    .head (.others (hchild _ [5])) <|
    .head (.call (.inl ⟨1, 0, rfl, by decide, rfl, rfl⟩)) .refl

end TrantorCli.OpenFiles
