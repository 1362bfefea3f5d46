import TrantorCli.FsCore.Operations
import TrantorCli.OsStr

/-!
# Listing a directory

`list!` answers one path for every entry of a directory, made of the path that was
asked about and the name of the entry. The order is that of the names, whatever
order the operating system has them in.
-/

open Interaction UnixPath Roc

namespace TrantorCli

open FsCore

/-! ### Through the layers -/

/-- `DirErr` -/
inductive DirErr where
  | dirErr (err : IOErr)
  deriving DecidableEq, Repr

/-- `PathErr` -/
inductive PathErr where
  | pathErr (err : IOErr)
  deriving DecidableEq, Repr

namespace FsOps

/-- `entries!` -/
def entries (s : Process) (p : PathBuf) : Fallible PathCall PathAnswer DirErr (List EntryRec) :=
  ExceptT.adapt DirErr.dirErr (readDirAt s.root .root (resolve s p))

/-- `list!` -/
def list (s : Process) (p : PathBuf) : Fallible PathCall PathAnswer DirErr (List (List UInt8)) := do
  let entries ← entries s p
  return entries.map fun e => e.name

end FsOps

namespace Host

/-- `native_bytes` -/
def nativeBytes : OsStr → Except IOErr PathBuf
  | .utf8 s => .ok s.toUtf8
  | .unixBytes b => .ok b
  | .windowsU16s _ => .error (.other "windows paths are not supported on this host")

/-- `dir_bytes` -/
def dirBytes (p : OsStr) : Except DirErr PathBuf := (nativeBytes p).mapError DirErr.dirErr

/-- `join_entry` -/
def joinEntry (dir name : List UInt8) : List UInt8 :=
  match dir.getLast? with
  | some c => if c = 47 then dir ++ name else (dir ++ [47]) ++ name
  | none => name

/-- `dir_list!` -/
def dirList (s : FsOps.Process) (p : OsStr) :
    Fallible PathCall PathAnswer DirErr (List OsStr) := do
  let dir ← ExceptT.mk (pure (dirBytes p))
  let names ← FsOps.list s dir
  return names.map fun name => native (joinEntry dir name)

end Host

/-- `Err(DirErr(err)) => Err(PathErr(err))` -/
def DirErr.toPathErr : DirErr → PathErr
  | .dirErr err => .pathErr err

/-- `Path.list!` -/
def Path.list (s : FsOps.Process) (path : Path) :
    Fallible PathCall PathAnswer PathErr (List Path) := do
  let paths ← ExceptT.adapt DirErr.toPathErr (Host.dirList s path.toRaw)
  return paths.map Path.fromRaw

/-! ### What a directory answers -/

/-- The names of the entries that were reached. -/
def entryNames (found : List (Except IoError DirEntry)) : List (List UInt8) :=
  found.filterMap fun entry => entry.toOption.map (·.fileName)

/-- Every entry was reached, and its type could be read. -/
def Readable (found : List (Except IoError DirEntry)) : Prop :=
  ∀ entry ∈ found, ∃ e t, entry = .ok e ∧ e.fileType = .ok t

/-- What `read_dir` answers: every entry has a name of its own, which is a name and neither `.`
nor `..`. -/
structure DirListing (found : List (Except IoError DirEntry)) : Prop where
  distinct : (entryNames found).Nodup
  inner : ∀ name ∈ entryNames found, (Component.normal name).Inner

/-- Bytewise order, as `sort_by` compares names. -/
def nameLe (a b : List UInt8) : Bool := decide (a ≤ b)

variable {found found' : List (Except IoError DirEntry)} {collected : List EntryRec}

/-- The entries are collected exactly when all are readable, under their names. -/
theorem collectEntries_eq_ok (h : collectEntries found = .ok collected) :
    Readable found ∧ collected.map (·.name) = entryNames found := by
  induction found generalizing collected with
  | nil =>
    obtain rfl := Except.ok.inj h
    exact ⟨by simp [Readable], rfl⟩
  | cons entry found ih =>
    cases entry with
    | error e => cases h
    | ok entry =>
      cases htype : entry.fileType with
      | error e => simp [collectEntries, htype, Bind.bind, Except.bind] at h
      | ok t =>
        cases hrest : collectEntries found with
        | error e => simp [collectEntries, htype, hrest, Bind.bind, Except.bind] at h
        | ok rest =>
          obtain ⟨hreadable, hnames⟩ := ih hrest
          have hcollected :
              ⟨entry.fileName, kindOf t.isDir t.isFile t.isSymlink⟩ :: rest = collected := by
            simpa [collectEntries, htype, hrest, Bind.bind, Except.bind, pure, Except.pure] using h
          constructor
          · intro entry' hentry'
            rcases List.mem_cons.mp hentry' with rfl | hmem
            · exact ⟨entry, t, rfl, htype⟩
            · exact hreadable entry' hmem
          · rw [← hcollected, List.map_cons, hnames]
            rfl

private theorem exists_collectEntries (h : Readable found) :
    ∃ collected, collectEntries found = .ok collected := by
  induction found with
  | nil => exact ⟨[], rfl⟩
  | cons entry found ih =>
    obtain ⟨e, t, rfl, htype⟩ := h entry List.mem_cons_self
    obtain ⟨rest, hrest⟩ := ih fun entry' hmem => h entry' (List.mem_cons_of_mem _ hmem)
    refine ⟨⟨e.fileName, kindOf t.isDir t.isFile t.isSymlink⟩ :: rest, ?_⟩
    simp [collectEntries, htype, hrest, Bind.bind, Except.bind, pure, Except.pure]

/-! ### Sorted names -/

private theorem nameLe_trans (a b c : List UInt8) (hab : nameLe a b = true)
    (hbc : nameLe b c = true) :
    nameLe a c = true :=
  decide_eq_true (List.le_trans (of_decide_eq_true hab) (of_decide_eq_true hbc))

private theorem nameLe_total (a b : List UInt8) : (nameLe a b || nameLe b a) = true := by
  simpa [nameLe] using List.le_total a b

private theorem pairwise_sorted (names : List (List UInt8)) :
    (names.mergeSort nameLe).Pairwise (· ≤ ·) :=
  (List.pairwise_mergeSort nameLe_trans nameLe_total names).imp of_decide_eq_true

/-- The sorted names do not depend on the order they were found in. -/
theorem sorted_of_perm {names names' : List (List UInt8)} (h : names.Perm names') :
    names.mergeSort nameLe = names'.mergeSort nameLe := by
  apply List.Perm.eq_of_pairwise (fun a b _ _ => List.le_antisymm) (pairwise_sorted names)
    (pairwise_sorted names')
  exact (List.mergeSort_perm _ _).trans (h.trans (List.mergeSort_perm _ _).symm)

/-- Distinct names are sorted strictly. -/
theorem pairwise_lt_sorted {names : List (List UInt8)} (h : names.Nodup) :
    (names.mergeSort nameLe).Pairwise (· < ·) := by
  have hnodup : (names.mergeSort nameLe).Nodup := (List.mergeSort_perm names nameLe).nodup_iff.mpr h
  apply ((pairwise_sorted names).and hnodup).imp
  rintro a b ⟨hle, hne⟩
  by_contra hlt
  exact hne (List.le_antisymm hle hlt)

/-! ### The directory that is listed -/

section Evaluated

variable (os : ∀ c, PathAnswer c) {r : Root} {d : Desc} {path : PathBuf}

private theorem eval_reported {α : Type} (p : PathSys α) :
    Fallible.eval os (reported p) = (Fallible.eval os p).mapError ioerr := by
  rw [Fallible.eval, reported, ExceptT.run_mk, Program.eval_bind, Program.eval_pure, Fallible.eval]

/-- Adapting the error of a program adapts that of its result. -/
theorem eval_adapt {ε ε' α : Type} (f : ε → ε') (p : Fallible PathCall PathAnswer ε α) :
    Fallible.eval os (ExceptT.adapt f p) = (Fallible.eval os p).mapError f := by
  have hrun : ExceptT.run (ExceptT.adapt f p) =
      ExceptT.run p >>= fun result => pure (result.mapError f) := rfl
  rw [Fallible.eval, hrun, Program.eval_bind, Program.eval_pure, Fallible.eval]

/-- Only the error is mapped. -/
theorem mapError_eq_ok {ε ε' α : Type} {f : ε → ε'} {result : Except ε α} {a : α} :
    result.mapError f = .ok a ↔ result = .ok a := by
  cases result <;> simp [Except.mapError]

/-- The answers to the calls of a copy or a removal among those to the calls on names. -/
def sysAnswers : Os := fun c => os (.sys c)

/-- Only the result is mapped. -/
theorem map_eq_ok {ε α β : Type} {f : α → β} {result : Except ε α} {b : β} :
    result.map f = .ok b ↔ ∃ a, result = .ok a ∧ f a = b := by
  cases result <;> simp [Except.map]

/-- What a path leads to, under fixed answers. -/
def leadsTo (r : Root) (d : Desc) (path : PathBuf) : Except IoError Target :=
  Fallible.eval (sysAnswers os) (resolveAt r d path)

/-- What reading a directory answers. -/
def dirAnswer (tg : Target) : Except IoError (List (Except IoError DirEntry)) := os (.readDir tg)

/-- A path that leads anywhere is not empty. -/
theorem ne_nil_of_leadsTo {tg : Target} (h : leadsTo os r d path = .ok tg) : path ≠ [] := by
  rintro rfl
  rw [leadsTo, resolveAt, eval_withPath] at h
  cases hdir : dirOf r d with
  | error e => rw [hdir] at h; cases h
  | ok dir => rw [hdir] at h; cases h

private theorem eval_readDirAt {entries : List EntryRec} :
    Fallible.eval os (readDirAt r d path) = .ok entries ↔
      ∃ tg found collected, leadsTo os r d path = .ok tg ∧ dirAnswer os tg = .ok found ∧
        collectEntries found = .ok collected ∧
        entries = collected.mergeSort fun a b => nameLe a.name b.name := by
  have hlift : Fallible.eval os (Sys.lift (resolveAt r d path)) = leadsTo os r d path :=
    Fallible.eval_interp sysHandler os _
  rw [readDirAt, eval_reported, mapError_eq_ok, atPath, Fallible.eval_bind, hlift]
  cases leadsTo os r d path with
  | error e => simp [Bind.bind, Except.bind]
  | ok tg =>
    rw [Try.ok_bind, Fallible.eval_bind]
    have hread : Fallible.eval os (readDir tg) = dirAnswer os tg := rfl
    rw [hread]
    cases hfound : dirAnswer os tg with
    | error e => simp [hfound, Bind.bind, Except.bind]
    | ok found =>
      rw [Try.ok_bind, Fallible.eval_bind]
      have hcollect : Fallible.eval os (ExceptT.mk (pure (collectEntries found))) =
          collectEntries found := rfl
      rw [hcollect]
      cases hcollected : collectEntries found with
      | error e => simp [hfound, hcollected, Bind.bind, Except.bind]
      | ok collected =>
        rw [Try.ok_bind, Fallible.eval_pure]
        constructor
        · intro h
          exact ⟨tg, found, collected, rfl, hfound, hcollected, (Except.ok.inj h).symm⟩
        · rintro ⟨tg', found', collected', htg, hfound', hcollected', rfl⟩
          obtain rfl := Except.ok.inj htg
          obtain rfl := Except.ok.inj (hfound.symm.trans hfound')
          obtain rfl := Except.ok.inj (hcollected.symm.trans hcollected')
          rfl

end Evaluated

/-- A directory lists the names of its entries in their order, as long as all can be read. -/
theorem eval_list (os : ∀ c, PathAnswer c) (s : FsOps.Process) {dir : PathBuf}
    {names : List (List UInt8)} :
    Fallible.eval os (FsOps.list s dir) = .ok names ↔
      ∃ tg found, leadsTo os s.root .root (FsOps.resolve s dir) = .ok tg ∧
        dirAnswer os tg = .ok found ∧ Readable found ∧
        names = (entryNames found).mergeSort nameLe := by
  have hlist : Fallible.eval os (FsOps.list s dir) =
      (Fallible.eval os (FsOps.entries s dir)).map fun entries => entries.map fun e => e.name := by
    rw [FsOps.list, Fallible.eval_bind]
    cases Fallible.eval os (FsOps.entries s dir) <;> rfl
  have hsorted (collected : List EntryRec) :
      (collected.mergeSort fun a b => nameLe a.name b.name).map (·.name) =
        (collected.map (·.name)).mergeSort nameLe :=
    List.map_mergeSort fun _ _ _ _ => rfl
  rw [hlist, FsOps.entries, eval_adapt]
  constructor
  · intro h
    obtain ⟨entries, hentries, rfl⟩ := map_eq_ok.mp h
    obtain ⟨tg, found, collected, htg, hfound, hcollected, rfl⟩ :=
      (eval_readDirAt os).mp (mapError_eq_ok.mp hentries)
    obtain ⟨hreadable, hnames⟩ := collectEntries_eq_ok hcollected
    exact ⟨tg, found, htg, hfound, hreadable, by rw [hsorted, hnames]⟩
  · rintro ⟨tg, found, htg, hfound, hreadable, rfl⟩
    obtain ⟨collected, hcollected⟩ := exists_collectEntries hreadable
    have hentries := (eval_readDirAt os).mpr ⟨tg, found, collected, htg, hfound, hcollected, rfl⟩
    rw [hentries, ← (collectEntries_eq_ok hcollected).2, ← hsorted]
    rfl

end TrantorCli
