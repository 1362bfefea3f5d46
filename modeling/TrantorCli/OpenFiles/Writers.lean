import TrantorCli.OpenFiles.Kernel

/-!
# Appending next to others

`open_append!` and what is written through it: every write lands at the end of
the file, so that nothing anybody wrote is lost or torn, however many writes the
system makes of one and whatever else fails.
-/

open Interaction

namespace TrantorCli.OpenFiles

/-! ### Taking parts -/

/-- `taken` is what a file got of the writes: of each a front, and all of it where it succeeded. -/
inductive Taken : List (List UInt8) → List (Except (Option OsError) Unit) → List UInt8 → Prop
  | nil : Taken [] [] []
  | cons {bytes part : List UInt8} {result : Except (Option OsError) Unit} {writes results rest}
      (hpart : part <+: bytes) (hall : result = .ok () → part = bytes)
      (hrest : Taken writes results rest) :
      Taken (bytes :: writes) (result :: results) (part ++ rest)

section WriteEach

variable {S : System FdCall FdAnswer Files} {I : List UInt8 → Files → Prop} {o : Output}

/-- What `write` keeps, up to what was taken so far, the writes of a stream keep. -/
theorem writeEach_ensuresAmid (hothers : ∀ taken s t, I taken s → S.others s t → I taken t)
    (hwrite : ∀ taken buf s, I taken s →
      Fallible.EnsuresAmid S (TookFront I taken buf) (o.write buf) s)
    (rounds : Nat) (writes : List (List UInt8)) (taken : List UInt8) (s : Files) (hs : I taken s) :
    Program.EnsuresAmid S
      (fun results t => ∃ parts, Taken writes results parts ∧ I (taken ++ parts) t)
      (writeEach rounds o writes) s := by
  induction writes generalizing taken s with
  | nil =>
    intro t hst
    refine ⟨[], .nil, ?_⟩
    rw [List.append_nil]
    exact hst.keeps (hothers taken) hs
  | cons bytes writes ih =>
    refine Program.EnsuresAmid.bind ?_
    refine Program.EnsuresAmid.mono
      (writeAll_ensuresAmid hothers hwrite rounds taken bytes s hs) fun result t h => ?_
    obtain ⟨part, hpart, hall, ht⟩ := h
    refine Program.EnsuresAmid.bind ((ih (taken ++ part) t ht).mono fun results u h => ?_)
    obtain ⟨parts, htaken, hu⟩ := h
    refine fun v huv => ⟨part ++ parts, .cons hpart hall htaken, ?_⟩
    rw [← List.append_assoc]
    exact huv.keeps (hothers _) hu

end WriteEach

/-! ### Appending -/

/-- What others do who only append to `f`, and leave the program its descriptors. -/
structure OnlyAppends (f : Nat) (w w' : Files) : Prop where
  table : w'.table = w.table
  opened : w.nextOpen ≤ w'.nextOpen
  kept : ∀ o < w.nextOpen, (w'.openFiles o).file = (w.openFiles o).file ∧
    (w'.openFiles o).append = (w.openFiles o).append
  written : ∃ chunks, (∀ c ∈ chunks, c.mine = false) ∧ w'.log = w.log ++ chunks ∧
    w'.contents f = w.contents f ++ onFile f chunks

/-- What was written to `f` since `w` is behind what was there, and `taken` is what the program
wrote, to one file if anything. -/
def Appended (w : Files) (f : Nat) (own : Option Nat) (taken : List UInt8) (t : Files) : Prop :=
  ∃ chunks, t.log = w.log ++ chunks ∧ t.contents f = w.contents f ++ onFile f chunks ∧
    mine chunks = taken ∧ ∀ c ∈ chunks, c.mine = true → own = some c.file

/-- Behind a descriptor is an open file in append mode. -/
def AppendsTo (fd own : Nat) (t : Files) : Prop :=
  ∃ o < t.nextOpen, t.table fd = some o ∧ (t.openFiles o).file = own ∧ (t.openFiles o).append = true

variable {others : Files → Files → Prop} {w s t : Files} {f fd own : Nat} {taken : List UInt8}

private theorem Appended.refl (w : Files) (f : Nat) : Appended w f none [] w :=
  ⟨[], (List.append_nil _).symm, (List.append_nil _).symm, rfl, nofun⟩

/-- A call that writes nothing keeps it. -/
theorem Appended.of_eq {own : Option Nat} (h : Appended w f own taken s) (hlog : t.log = s.log)
    (hcontents : t.contents f = s.contents f) : Appended w f own taken t := by
  obtain ⟨chunks, hchunks⟩ := h
  exact ⟨chunks, by rwa [hlog, hcontents]⟩

/-- Nothing of the program's is there yet. -/
theorem Appended.owned (h : Appended w f none [] t) (own : Option Nat) : Appended w f own [] t := by
  obtain ⟨chunks, hlog, hcontents, htaken, hown⟩ := h
  exact ⟨chunks, hlog, hcontents, htaken, fun c hc hmine => absurd (hown c hc hmine) (by simp)⟩

/-- Where no chunk is the program's, it wrote nothing. -/
theorem mine_eq_nil {chunks : List Chunk} (h : ∀ c ∈ chunks, c.mine = false) :
    mine chunks = [] := by
  have hnone : chunks.filter (·.mine) = [] := by
    rw [List.filter_eq_nil_iff]
    exact fun c hc => by simp [h c hc]
  rw [mine, hnone, List.flatMap_nil]

private theorem Appended.besides {own : Option Nat} (h : Appended w f own taken s)
    (hothers : OnlyAppends f s t) :
    Appended w f own taken t := by
  obtain ⟨chunks, hlog, hcontents, htaken, hown⟩ := h
  obtain ⟨new, hnew, hlog', hcontents'⟩ := hothers.written
  refine ⟨chunks ++ new, ?_, ?_, ?_, fun c hc hmine => ?_⟩
  · rw [hlog', hlog, List.append_assoc]
  · rw [hcontents', hcontents, onFile_append, List.append_assoc]
  · rw [mine_append, htaken, mine_eq_nil hnew, List.append_nil]
  · rcases List.mem_append.mp hc with hold | hc
    · exact hown c hold hmine
    · exact absurd hmine (by simp [hnew c hc])

private theorem AppendsTo.besides (h : AppendsTo fd own s) (hothers : OnlyAppends f s t) :
    AppendsTo fd own t := by
  obtain ⟨o, ho, htable, hfile, happend⟩ := h
  obtain ⟨hfile', happend'⟩ := hothers.kept o ho
  exact ⟨o, lt_of_lt_of_le ho hothers.opened, by rw [hothers.table, htable], by rw [hfile', hfile],
    by rw [happend', happend]⟩

/-- A write through an open file in append mode. -/
theorem Appended.accept (h : Appended w f (some own) taken s) (hfd : AppendsTo fd own s) {o : Nat}
    (ho : s.table fd = some o) (bytes : List UInt8) :
    Appended w f (some own) (taken ++ bytes) (s.accept true o bytes) := by
  obtain ⟨chunks, hlog, hcontents, htaken, hown⟩ := h
  obtain ⟨o', -, ho', hfile, happend⟩ := hfd
  obtain rfl : o' = o := Option.some.inj (ho'.symm.trans ho)
  refine ⟨chunks ++ [⟨true, (s.openFiles o').file, bytes⟩], ?_, ?_, ?_, fun c hc hmine => ?_⟩
  · rw [log_accept, hlog, List.append_assoc]
  · rw [contents_accept_of_append true (by rw [happend]; rfl), hcontents, onFile_append,
      List.append_assoc]
  · rw [mine_append, htaken, mine_single, if_pos rfl]
  · rcases List.mem_append.mp hc with hold | hnew
    · exact hown c hold hmine
    · rw [List.mem_singleton.mp hnew, hfile]

private theorem AppendsTo.accept (h : AppendsTo fd own s) (o : Nat) (bytes : List UInt8) :
    AppendsTo fd own (s.accept true o bytes) := by
  obtain ⟨o', ho', htable, hfile, happend⟩ := h
  obtain ⟨hfile', happend', -⟩ := openFiles_accept s true o bytes o'
  exact ⟨o', ho', htable, by rw [hfile', hfile], by rw [happend', happend]⟩

/-- A second number for it. -/
theorem AppendsTo.dup (h : AppendsTo fd own s) {o new : Nat} (ho : s.table fd = some o) :
    AppendsTo new own (s.setTable new (some o)) := by
  obtain ⟨o', ho', htable, hfile, happend⟩ := h
  obtain rfl : o' = o := Option.some.inj (htable.symm.trans ho)
  exact ⟨o', ho', Function.update_self .., hfile, happend⟩

/-- What `open_append!` gives: a stream that writes through an open file in append mode. -/
def OpenedToAppend (w : Files) (f : Nat) : Except FsCore.IOErr Writer → Files → Prop
  | .ok writer, t => Appended w f none [] t ∧ writer.stream.endWriter = false ∧
    ∃ own, AppendsTo writer.stream.fd own t
  | .error _, t => Appended w f none [] t

section Amid

variable (hothers : ∀ s t, others s t → OnlyAppends f s t)
include hothers

private theorem Appended.meanwhile {own : Option Nat} (h : Appended w f own taken s)
    (hst : (kernel others).Meanwhile s t) : Appended w f own taken t :=
  hst.keeps (fun s t h hother => h.besides (hothers s t hother)) h

private theorem AppendsTo.meanwhile (h : AppendsTo fd own s) (hst : (kernel others).Meanwhile s t) :
    AppendsTo fd own t :=
  hst.keeps (fun s t h hother => h.besides (hothers s t hother)) h

/-- In append mode `append_via_stream` hands the duplicate on as it is. -/
theorem appendViaStream_ensuresAmid (hw : Appended w f none [] s) (hfd : AppendsTo fd own s) :
    Fallible.EnsuresAmid (kernel others) (fun result t =>
      Appended w f none [] t ∧ ∀ o, result = .ok o → o.endWriter = false ∧ AppendsTo o.fd own t)
      (appendViaStream (.file fd)) s := by
  refine Fallible.ensuresAmid_bind (dup_ensuresAmid (fun t hst new o ho _ _ u htu => ?_)
    fun t hst e u htu => ⟨hw.meanwhile hothers (hst.trans htu), nofun⟩)
  have hnew : AppendsTo new own (t.setTable new (some o)) := (hfd.meanwhile hothers hst).dup ho
  have hwu : Appended w f none [] u :=
    ((hw.meanwhile hothers hst).of_eq rfl rfl : Appended w f none []
      (t.setTable new (some o))).meanwhile
      hothers htu
  refine Fallible.ensuresAmid_bind (orDrop_ensuresAmid (getAppend_ensuresAmid ?_ ?_))
  · intro v huv o' ho' x hvx y hxy
    have hnewv := (hnew.meanwhile hothers htu).meanwhile hothers huv
    obtain ⟨o'', -, htable, -, happend⟩ := id hnewv
    obtain rfl : o'' = o' := Option.some.inj (htable.symm.trans ho')
    simp only [happend, if_true]
    refine fun z hyz => ⟨hwu.meanwhile hothers ((huv.trans hvx).trans (hxy.trans hyz)), ?_⟩
    rintro _ ⟨⟩
    exact ⟨rfl, hnewv.meanwhile hothers (hvx.trans (hxy.trans hyz))⟩
  · intro v huv e x hvx y hxy z hyz
    have hx : Appended w f none [] (x.setTable new none) :=
      (hwu.meanwhile hothers (huv.trans hvx)).of_eq rfl rfl
    exact ⟨hx.meanwhile hothers (hxy.trans hyz), nofun⟩

private theorem openAppend_ensuresAmid (s : FsOps.Process) (path : UnixPath.PathBuf) :
    Fallible.EnsuresAmid (kernel others) (OpenedToAppend w f) (openAppend s path) w := by
  refine Fallible.ensuresAmid_bind
    (openAt_ensuresAmid rfl (fun t hst fd file positioned hfree u htu => ?_)
    fun t hst e u htu => (Appended.refl w f).meanwhile hothers (hst.trans htu))
  have hw : Appended w f none [] u :=
    (((Appended.refl w f).meanwhile hothers hst).of_eq rfl rfl :
      Appended w f none [] (t.openNew fd file positioned _)).meanwhile hothers htu
  have hfd : AppendsTo fd file u := by
    refine AppendsTo.meanwhile hothers
      ⟨t.nextOpen, Nat.lt_succ_self _, Function.update_self .., ?_, ?_⟩ htu
    · simp [Files.openNew]
    · simp [Files.openNew]
  refine Fallible.ensuresAmid_bind (hosted_ensuresAmid
    ((appendViaStream_ensuresAmid hothers hw hfd).mono fun result x hresult y hxy => ?_))
  cases result with
  | ok o =>
    obtain ⟨hend, ho⟩ := hresult.2 o rfl
    exact fun z hyz => ⟨hresult.1.meanwhile hothers (hxy.trans hyz), hend, file,
      ho.meanwhile hothers (hxy.trans hyz)⟩
  | error e => exact fun z hyz => hresult.1.meanwhile hothers (hxy.trans hyz)

/-- Whatever others append meanwhile, and whatever fails, what `open_append!` and the writes of its
stream put into a file comes behind all that was there, chunk by chunk with what others write, and
is of each write a front, all of it when it succeeded. -/
theorem appends_are_kept (rounds : Nat) (s : FsOps.Process) (path : UnixPath.PathBuf)
    (writes : List (List UInt8))
    {result : Except FsCore.IOErr (List (Except (Option OsError) Unit))}
    {w' : Files}
    (hrun : Reaches (kernel others) ((writing rounds (openAppend s path) writes).run, w)
      (.done result, w')) :
    ∃ own chunks, w'.log = w.log ++ chunks ∧ w'.contents f = w.contents f ++ onFile f chunks ∧
      (∀ c ∈ chunks, c.mine = true → own = some c.file) ∧
      (∀ results, result = .ok results → Taken writes results (mine chunks)) ∧
      (∀ e, result = .error e → mine chunks = []) := by
  have hafter : Fallible.EnsuresAmid (kernel others) (fun result t =>
      ∃ own taken, Appended w f own taken t ∧
        (∀ results, result = .ok results → Taken writes results taken) ∧
        (∀ e, result = .error e → taken = [])) (writing rounds (openAppend s path) writes) w := by
    refine Fallible.ensuresAmid_bind
      ((openAppend_ensuresAmid hothers s path).mono fun result t ht => ?_)
    cases result with
    | error e =>
      exact fun u htu => ⟨none, [], ht.meanwhile hothers htu, nofun, fun _ _ => rfl⟩
    | ok writer =>
      obtain ⟨hw, hend, own, hfd⟩ := ht
      refine Program.EnsuresAmid.bind ((writeEach_ensuresAmid
        (I := fun taken t => Appended w f (some own) taken t ∧ AppendsTo writer.stream.fd own t)
        (fun taken s t hs hst => ⟨hs.1.besides (hothers s t hst), hs.2.besides (hothers s t hst)⟩)
        (fun taken buf s hs => ?_) rounds writes [] t ⟨hw.owned _, hfd⟩).mono fun results u h => ?_)
      · rw [Output.write, hend]
        refine writeFd_ensuresAmid (fun t hst n o ho u htu => ?_) fun t hst e =>
          ⟨hs.1.meanwhile hothers hst, hs.2.meanwhile hothers hst⟩
        have hfd := hs.2.meanwhile hothers hst
        exact ⟨((hs.1.meanwhile hothers hst).accept hfd ho _).meanwhile hothers htu,
          (hfd.accept o _).meanwhile hothers htu⟩
      · obtain ⟨parts, htaken, hu, -⟩ := h
        intro v huv
        refine ⟨some own, parts, hu.meanwhile hothers huv, ?_, nofun⟩
        rintro _ ⟨⟩
        exact htaken
  obtain ⟨own, taken, ⟨chunks, hlog, hcontents, rfl, hown⟩, hok, herror⟩ := hafter.reaches hrun
  exact ⟨own, chunks, hlog, hcontents, hown, hok, herror⟩

end Amid

/-- Nothing is open, and `5` is in every file. -/
def closedFiles : Files := ⟨fun _ => none, fun _ => ⟨0, 0, false, true⟩, 0, fun _ => [5], []⟩

/-- A file opened to append under 3, and duplicated to 4. -/
def openedTwice : Files :=
  (closedFiles.openNew 3 0 true
    { read := false, write := true, create := true, exclusive := false, truncate := false,
      append := true, directory := false, followSymlinks := true,
      mode := Fs.defaultFileMode }).setTable 4 (some 0)

/-- Of `1, 2` first only `1` is taken, and another's `9` comes before the rest. -/
theorem appends_are_kept_between : ∃ w' : Files, w'.contents 0 = [5, 1, 9, 2] ∧
    ∃ own chunks, w'.log = closedFiles.log ++ chunks ∧
      w'.contents 0 = closedFiles.contents 0 ++ onFile 0 chunks ∧
      (∀ c ∈ chunks, c.mine = true → own = some c.file) ∧
      (∀ results, (.ok [.ok ()] : Except FsCore.IOErr _) = .ok results →
        Taken [[1, 2]] results (mine chunks)) ∧
      (∀ e, (.ok [.ok ()] : Except FsCore.IOErr (List (Except (Option OsError) Unit))) = .error e →
        mine chunks = []) := by
  have hother : OnlyAppends 0 (openedTwice.accept true 0 [1])
      ((openedTwice.accept true 0 [1]).accept false 0 [9]) := by
    refine ⟨rfl, le_refl _, fun o _ => ?_, [⟨false, 0, [9]⟩], by simp, rfl, ?_⟩
    · obtain ⟨hfile, happend, -⟩ := openFiles_accept (openedTwice.accept true 0 [1]) false 0 [9] o
      exact ⟨hfile, happend⟩
    · rw [contents_accept_of_append false rfl]
      rfl
  refine ⟨((openedTwice.accept true 0 [1]).accept false 0 [9]).accept true 0 [2], by decide, ?_⟩
  have hothers : ∀ s t, OnlyAppends 0 s t → OnlyAppends 0 s t := fun _ _ h => h
  refine appends_are_kept hothers 2 FsOps.lossyProcess [120] [[1, 2]] ?_
  exact .head (.call (.inl ⟨3, 0, true, rfl, rfl, rfl⟩)) <|
    .head (.call (.inl ⟨4, 0, rfl, rfl, by decide, rfl, rfl⟩)) <|
    .head (.call (.inl ⟨0, rfl, rfl, rfl⟩)) <|
    .head (.call (.inl ⟨1, 0, rfl, by decide, rfl, rfl⟩)) <|
    .head (.others hother) <|
    .head (.call (.inl ⟨1, 0, rfl, by decide, rfl, rfl⟩)) .refl

end TrantorCli.OpenFiles
