import TrantorCli.OpenFiles.SharedCursor

/-!
# Streams in turn

Streams that are made on one descriptor, written through and dropped, one after
the other: an append stream looks for the end before each write and leaves the
descriptor as it was opened, so that a later write stream is not append-only.
-/

open Interaction

namespace TrantorCli.OpenFiles

variable {others : Files → Files → Prop} {of : OpenFile} {o fd cursor : Nat} {log : List Chunk}
  {l taken : List UInt8} {w s t : Files}

/-- Others leave the open file and what is in its file. -/
structure LeavesAlone (of : OpenFile) (o : Nat) (w w' : Files) : Prop where
  table : w'.table = w.table
  open_ : w'.openFiles o = w.openFiles o
  contents : w'.contents of.file = w.contents of.file
  log : ∃ chunks, w'.log = w.log ++ chunks ∧ ∀ c ∈ chunks, c.mine = false ∧ c.file ≠ of.file

private theorem LeavesAlone.onlyThrough (h : LeavesAlone of o w t) :
    OnlyThrough (fun c => c.file ≠ of.file) of o w t := by
  obtain ⟨chunks, hlog, hchunks⟩ := h.log
  exact ⟨h.table, .inr ⟨h.open_, h.contents, chunks, hlog, fun c hc =>
    ⟨(hchunks c hc).1, (hchunks c hc).2, (hchunks c hc).2⟩⟩⟩

/-- A file with `l` in it, where a stream wrote `taken`: a write stream from its offset on, an
append stream at the end. -/
def StreamUse.lands (of : OpenFile) (l taken : List UInt8) : StreamUse → List UInt8
  | .write offset _ => landed of offset.toNat l taken
  | .append _ => l ++ taken

/-- What streams on a descriptor make of its file, one after the other. -/
inductive SessionOutcome (of : OpenFile) :
    List StreamUse → List (Except OsError (List (Except (Option OsError) Unit))) →
      List UInt8 → List UInt8 → Prop
  | nil {l : List UInt8} : SessionOutcome of [] [] l l
  | failed {use uses e results} {l l' : List UInt8} (hrest : SessionOutcome of uses results l l') :
      SessionOutcome of (use :: uses) (.error e :: results) l l'
  | used {use uses written results} {taken l l' : List UInt8}
      (htaken : Taken use.writes written taken)
      (hrest : SessionOutcome of uses results (use.lands of l taken) l') :
      SessionOutcome of (use :: uses) (.ok written :: results) l l'

/-- `o` is as it was opened, with `l` in its file, and the descriptors are those of `table`. -/
def Holds (of : OpenFile) (o : Nat) (table : Nat → Option Nat) (l : List UInt8) (t : Files) :
    Prop :=
  OpenedAs of o t ∧ t.table = table ∧ t.contents of.file = l

variable {table : Nat → Option Nat}

/-- Where all that reached the file is the program's, it is what the program wrote. -/
theorem onFile_eq_mine {f : Nat} {chunks : List Chunk}
    (h : ∀ c ∈ chunks, if c.mine then c.file = f else c.file ≠ f) :
    onFile f chunks = mine chunks := by
  have hsame : chunks.filter (·.file = f) = chunks.filter (·.mine) := by
    refine List.filter_congr fun c hc => ?_
    cases hmine : c.mine with
    | true => simpa [hmine] using h c hc
    | false => simpa [hmine] using h c hc
  rw [onFile, hsame, mine]

/-- With nobody else at the file, what was taken landed. -/
theorem Through.contents (h : Through (fun c => c.file ≠ of.file) of o log cursor l taken t) :
    t.contents of.file = landed of cursor l taken := by
  obtain ⟨-, chunks, -, hcontents, -, rfl, hchunks⟩ := h
  rw [hcontents, onFile_eq_mine hchunks]

private theorem Holds.besides (h : Holds of o table l s) (hothers : LeavesAlone of o s t) :
    Holds of o table l t := by
  obtain ⟨hof, htable, hl⟩ := h
  exact ⟨by rw [OpenedAs, hothers.open_]; exact hof, by rw [hothers.table, htable],
    by rw [hothers.contents, hl]⟩

/-- A duplicate is closed. -/
theorem Holds.close {new : Nat} (h : Holds of o (Function.update table new (some o)) l t)
    (hfree : table new = none) : Holds of o table l (t.setTable new none) := by
  refine ⟨h.1, ?_, h.2.2⟩
  change Function.update t.table new none = table
  rw [h.2.1, Function.update_idem, ← hfree, Function.update_eq_self]

/-- A write at the end. -/
theorem Holds.accept (h : Holds of o table l t) (hend : t.position o = (t.contents of.file).length)
    (bytes : List UInt8) : Holds of o table (l ++ bytes) (t.accept true o bytes) := by
  obtain ⟨⟨hfile, happend, hpositioned⟩, htable, rfl⟩ := h
  obtain ⟨hfile', happend', hpositioned'⟩ := openFiles_accept t true o bytes o
  refine ⟨⟨hfile'.trans hfile, happend'.trans happend, hpositioned'.trans hpositioned⟩, htable, ?_⟩
  rw [contents_accept, if_pos hfile, hend, List.overwrite_length]

/-- The next write through `o` is at the end. -/
def AtEnd (of : OpenFile) (o : Nat) (t : Files) : Prop :=
  OpenedAs of o t ∧ t.position o = (t.contents of.file).length

private theorem AtEnd.besides (h : AtEnd of o s) (hothers : LeavesAlone of o s t) :
    AtEnd of o t := by
  obtain ⟨hof, hend⟩ := h
  refine ⟨by rw [OpenedAs, hothers.open_]; exact hof, ?_⟩
  rw [Files.position, hof.1] at hend
  rw [Files.position, hothers.open_, hof.1, hothers.contents, hend]

private theorem atEnd_of_not_positioned (h : OpenedAs of o t)
    (hnone : (t.openFiles o).positioned = false) :
    AtEnd of o t := by
  refine ⟨h, ?_⟩
  rw [Files.position, if_pos (by simp [hnone]), h.1]

private theorem atEnd_setCursor (h : OpenedAs of o t) :
    AtEnd of o (t.setCursor o (t.contents (t.openFiles o).file).length) := by
  obtain ⟨hfile, happend, hpositioned⟩ := openFiles_setCursor t o
    (t.contents (t.openFiles o).file).length o
  refine ⟨⟨hfile.trans h.1, happend.trans h.2.1, hpositioned.trans h.2.2⟩, ?_⟩
  rw [Files.position, hfile, h.1]
  split
  · rfl
  · simp [Files.setCursor]

section Alone

variable (hothers : ∀ s t, others s t → LeavesAlone of o s t)
include hothers

private theorem Holds.meanwhile (h : Holds of o table l s) (hst : (kernel others).Meanwhile s t) :
    Holds of o table l t :=
  hst.keeps (fun s t h hother => h.besides (hothers s t hother)) h

private theorem AtEnd.meanwhile (h : AtEnd of o s) (hst : (kernel others).Meanwhile s t) :
    AtEnd of o t :=
  hst.keeps (fun s t h hother => h.besides (hothers s t hother)) h

private theorem writeFd_atEnd (hfd : table fd = some o) (buf : List UInt8)
    (hs : Holds of o table l s)
    (hend : AtEnd of o s) :
    Fallible.EnsuresAmid (kernel others) (TookFront (Holds of o table) l buf)
      (writeFd fd buf) s := by
  refine writeFd_ensuresAmid (fun t hst n o' ho u htu => ?_) fun t hst e => hs.meanwhile hothers hst
  have ht := hs.meanwhile hothers hst
  obtain rfl : o = o' := Option.some.inj (by rw [← ho, ht.2.1, hfd])
  exact (ht.accept (hend.meanwhile hothers hst).2 (buf.take n)).meanwhile hothers htu

/-- `EndWriter::write` writes at the end, wherever the cursor stands. -/
theorem endWriterWrite_atEnd (hfd : table fd = some o) (buf : List UInt8)
    (hs : Holds of o table l s) :
    Fallible.EnsuresAmid (kernel others) (TookFront (Holds of o table) l buf)
      (endWriterWrite fd buf) s := by
  refine Fallible.ensuresAmid_bind (seekIfPositioned_ensuresAmid ?_ ?_ ?_)
  · intro t hst o' ho hpositioned u htu
    have ht := hs.meanwhile hothers hst
    obtain rfl : o = o' := Option.some.inj (by rw [← ho, ht.2.1, hfd])
    have hend := atEnd_setCursor ht.1
    exact writeFd_atEnd hothers hfd buf (Holds.meanwhile hothers ⟨hend.1, ht.2⟩ htu)
      (hend.meanwhile hothers htu)
  · intro t hst hnone u htu
    have ht := hs.meanwhile hothers hst
    have hend := atEnd_of_not_positioned ht.1 (hnone o (by rw [ht.2.1, hfd]))
    exact writeFd_atEnd hothers hfd buf (ht.meanwhile hothers htu) (hend.meanwhile hothers htu)
  · exact fun t hst e u htu => hs.meanwhile hothers (hst.trans htu)

/-- A stream was made to append: an `EndWriter`, where the descriptor is not in append mode. -/
def MadeToAppend (of : OpenFile) (o : Nat) (table : Nat → Option Nat) (l : List UInt8) :
    Except OsError Output → Files → Prop
  | .ok out, t => table out.fd = none ∧ Holds of o (Function.update table out.fd (some o)) l t ∧
    (out.endWriter = false → of.append = true)
  | .error _, t => Holds of o table l t

private theorem appendViaStream_made (hfd : table fd = some o) (hs : Holds of o table l s) :
    Fallible.EnsuresAmid (kernel others) (MadeToAppend of o table l)
      (appendViaStream (.file fd)) s := by
  refine Fallible.ensuresAmid_bind (dup_ensuresAmid (fun t hst new o' ho _ hfree u htu => ?_)
    fun t hst e u htu => hs.meanwhile hothers (hst.trans htu))
  have ht := hs.meanwhile hothers hst
  obtain rfl : o = o' := Option.some.inj (by rw [← ho, ht.2.1, hfd])
  rw [ht.2.1] at hfree
  have hu : Holds of o (Function.update table new (some o)) l u := by
    refine Holds.meanwhile (s := t.setTable new (some o)) hothers ⟨ht.1, ?_, ht.2.2⟩ htu
    rw [← ht.2.1]
    rfl
  refine Fallible.ensuresAmid_bind (orDrop_ensuresAmid (getAppend_ensuresAmid ?_ ?_))
  · intro v huv o' ho' x hvx y hxy
    have hv := hu.meanwhile hothers huv
    have hy := hv.meanwhile hothers (hvx.trans hxy)
    obtain rfl : o = o' := Option.some.inj (by rw [← ho', hv.2.1, Function.update_self])
    rw [hv.1.2.1]
    cases happend : of.append with
    | true => exact fun z hyz => ⟨hfree, hy.meanwhile hothers hyz, fun _ => happend⟩
    | false => exact fun z hyz => ⟨hfree, hy.meanwhile hothers hyz, nofun⟩
  · intro v huv e x hvx y hxy z hyz
    exact ((hu.meanwhile hothers (huv.trans hvx)).close hfree).meanwhile hothers (hxy.trans hyz)

/-- The writes of a stream that was made to append. -/
theorem writeEach_atEnd {out : Output} (hout : table out.fd = some o)
    (hplain : out.endWriter = false → of.append = true) (rounds : Nat) (writes : List (List UInt8))
    (hs : Holds of o table l s) :
    Program.EnsuresAmid (kernel others) (fun results t => ∃ taken, Taken writes results taken ∧
      Holds of o table (l ++ taken) t) (writeEach rounds out writes) s := by
  refine writeEach_ensuresAmid (I := fun taken t => Holds of o table (l ++ taken) t)
    (fun taken s t hs hst => hs.besides (hothers s t hst)) (fun taken buf s hs => ?_)
    rounds writes [] s
    (by rwa [List.append_nil])
  have hfront : ∀ {p : FdSys Nat}, Fallible.EnsuresAmid (kernel others)
      (TookFront (Holds of o table) (l ++ taken) buf) p s → Fallible.EnsuresAmid (kernel others)
      (TookFront (fun taken t => Holds of o table (l ++ taken) t) taken buf) p s := by
    refine fun hp => Program.EnsuresAmid.mono hp fun result t ht => ?_
    cases result with
    | ok n =>
      change Holds of o table (l ++ (taken ++ buf.take n)) t
      rw [← List.append_assoc]
      exact ht
    | error e => exact ht
  rw [Output.write]
  cases hend : out.endWriter with
  | true => exact hfront (endWriterWrite_atEnd hothers hout buf hs)
  | false =>
    refine hfront (writeFd_atEnd hothers hout buf hs ⟨hs.1, ?_⟩)
    rw [Files.position, hs.1.2.1, hplain hend, hs.1.1]
    rfl

/-- What a use of a stream leaves. -/
def UseOutcome (of : OpenFile) (o : Nat) (table : Nat → Option Nat) (use : StreamUse)
    (l : List UInt8) :
    Except OsError (List (Except (Option OsError) Unit)) → Files → Prop
  | .ok written, t => ∃ taken, Taken use.writes written taken ∧
    Holds of o table (use.lands of l taken) t
  | .error _, t => Holds of o table l t

private theorem streamUse_outcome (rounds : Nat) (use : StreamUse) (hfd : table fd = some o)
    (hs : Holds of o table l s) :
    Fallible.EnsuresAmid (kernel others) (UseOutcome of o table use l)
      (use.run rounds (.file fd)) s := by
  have hthrough : ∀ s t, others s t → OnlyThrough (fun c => c.file ≠ of.file) of o s t :=
    fun s t h => (hothers s t h).onlyThrough
  have hclose : ∀ {new : Nat} {written t taken}, table new = none → Taken use.writes written taken →
      Holds of o (Function.update table new (some o)) (use.lands of l taken) t →
      Fallible.EnsuresAmid (kernel others) (UseOutcome of o table use l)
        (ExceptT.mk ((closeFd new).run >>= fun _ => pure (.ok written))) t := by
    intro new written t taken hfree htaken ht u htu reply u' hperform v huv
    obtain rfl : u' = u.setTable new none := hperform
    exact ⟨taken, htaken, ((ht.meanwhile hothers htu).close hfree).meanwhile hothers huv⟩
  cases use with
  | write offset writes =>
    refine Fallible.ensuresAmid_bind ((writeViaStream_through hthrough offset hs.1
      (by rw [hs.2.1, hfd])).mono fun result t ht => ?_)
    cases result with
    | error e =>
      have hl : Holds of o table l t :=
        ⟨ht.2.1, ht.1.trans hs.2.1, by rw [ht.2.contents, landed_nil, hs.2.2]⟩
      exact fun u htu => hl.meanwhile hothers htu
    | ok out =>
      obtain ⟨hend, hfree, htable, m, hm, hseek⟩ := ht
      rw [hs.2.1] at hfree htable
      have hbase : m.contents of.file = l := by rw [hm.contents, landed_nil, hs.2.2]
      refine Program.EnsuresAmid.bind ((writeEach_through hthrough hend rounds writes hseek
        (by rw [htable, Function.update_self])).mono fun written u h => ?_)
      obtain ⟨taken, htaken, hu, htable'⟩ := h
      refine hclose hfree htaken ⟨hu.1, htable'.trans htable, ?_⟩
      rw [hu.contents, hbase]
      rfl
  | append writes =>
    refine Fallible.ensuresAmid_bind
      ((appendViaStream_made hothers hfd hs).mono fun result t ht => ?_)
    cases result with
    | error e => exact fun u htu => Holds.meanwhile hothers ht htu
    | ok out =>
      obtain ⟨hfree, ht, hplain⟩ := ht
      refine Program.EnsuresAmid.bind
        ((writeEach_atEnd hothers (Function.update_self ..) hplain rounds
        writes ht).mono fun written u h => ?_)
      obtain ⟨taken, htaken, hu⟩ := h
      exact hclose hfree htaken hu

/-- Streams made and dropped one after the other on a descriptor, in append mode or not, a pipe's or
a file's: each has what its writes took where its kind says, an append stream at the end whatever
the cursor, a write stream at its offset whatever was appended before. No descriptor is left behind,
and the descriptor stays as it was opened. -/
theorem streams_in_turn (rounds : Nat) (uses : List StreamUse) (hfd : w.table fd = some o)
    (hof : OpenedAs of o w) {results : List (Except OsError (List (Except (Option OsError) Unit)))}
    {w' : Files}
    (hrun : Reaches (kernel others) (streamEach rounds (.file fd) uses, w) (.done results, w')) :
    SessionOutcome of uses results (w.contents of.file) (w'.contents of.file) ∧
      w'.table = w.table ∧ OpenedAs of o w' := by
  have hafter : ∀ uses (l : List UInt8) s, Holds of o w.table l s →
      Program.EnsuresAmid (kernel others) (fun results t => ∃ l',
        SessionOutcome of uses results l l' ∧ Holds of o w.table l' t)
        (streamEach rounds (.file fd) uses) s := by
    intro uses
    induction uses with
    | nil => exact fun l s hs t hst => ⟨l, .nil, hs.meanwhile hothers hst⟩
    | cons use uses ih =>
      intro l s hs
      refine Program.EnsuresAmid.bind
        (Program.EnsuresAmid.mono (streamUse_outcome hothers rounds use hfd hs)
        fun result t ht => ?_)
      cases result with
      | error e =>
        refine Program.EnsuresAmid.bind ((ih l t ht).mono fun results u h v huv => ?_)
        obtain ⟨l', houtcome, hu⟩ := h
        exact ⟨l', .failed houtcome, hu.meanwhile hothers huv⟩
      | ok written =>
        obtain ⟨taken, htaken, ht⟩ := ht
        refine Program.EnsuresAmid.bind ((ih _ t ht).mono fun results u h v huv => ?_)
        obtain ⟨l', houtcome, hu⟩ := h
        exact ⟨l', .used htaken houtcome, hu.meanwhile hothers huv⟩
  obtain ⟨l', houtcome, hopened, htable, rfl⟩ := (hafter uses _ w ⟨hof, rfl, rfl⟩).reaches hrun
  exact ⟨houtcome, htable, hopened⟩

end Alone

/-- `9` appended in a file of three bytes, whose second byte is written then. -/
theorem streams_in_turn_plain : ∃ w' : Files, w'.contents 0 = [1, 7, 3, 9] ∧
    SessionOutcome ⟨0, 2, false, true⟩ [.append [[9]], .write 1 [[7]]] [.ok [.ok ()], .ok [.ok ()]]
      [1, 2, 3] (w'.contents 0) ∧
    w'.table = (fun fd => if fd = 3 then some 0 else none) ∧ OpenedAs ⟨0, 2, false, true⟩ 0 w' := by
  let w : Files := ⟨fun fd => if fd = 3 then some 0 else none, fun _ => ⟨0, 2, false, true⟩, 1,
    fun _ => [1, 2, 3], []⟩
  let m := (((w.setTable 4 (some 0)).setCursor 0 3).accept true 0 [9]).setTable 4 none
  refine ⟨
    (((m.setTable 4 (some 0)).setCursor 0 (UInt64.toNat 1)).accept true 0 [7]).setTable 4 none,
    by decide, ?_⟩
  have hothers : ∀ s t, LeavesAlone ⟨0, 2, false, true⟩ 0 s t →
      LeavesAlone ⟨0, 2, false, true⟩ 0 s t :=
    fun _ _ h => h
  have hfd : w.table 3 = some 0 := rfl
  have hclose {α : Type} (s : Files) (next : FdAnswer (.close 4) → Program FdCall FdAnswer α) :
      Step (kernel (LeavesAlone ⟨0, 2, false, true⟩ 0)) (.call (.close 4) next, s)
        (next (.ok ()), s.setTable 4 none) := .call rfl
  refine streams_in_turn hothers 1 [.append [[9]], .write 1 [[7]]] hfd ⟨rfl, rfl, rfl⟩ ?_
  exact .head (.call (.inl ⟨4, 0, rfl, rfl, by decide, rfl, rfl⟩)) <|
    .head (.call (.inl ⟨0, rfl, rfl, rfl⟩)) <|
    .head (.call (.inl ⟨0, rfl, rfl, rfl, rfl⟩)) <|
    .head (.call (.inl ⟨1, 0, rfl, by decide, rfl, rfl⟩)) <|
    .head (hclose _ _) <|
    .head (.call (.inl ⟨4, 0, rfl, rfl, by decide, rfl, rfl⟩)) <|
    .head (.call (.inl ⟨0, rfl, rfl, rfl, rfl⟩)) <|
    .head (.call (.inl ⟨1, 0, rfl, by decide, rfl, rfl⟩)) <|
    .head (hclose _ _) .refl

end TrantorCli.OpenFiles
