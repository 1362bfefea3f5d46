import Mathlib.Logic.Function.Basic
import TrantorCli.Lib.Overwrite
import TrantorCli.OpenFiles

/-!
# Open files as the kernel has them

Descriptors are numbers for open files, and an open file is a position in a file.
What is written is kept, in order, with who wrote it and to which file, to be
talked about.
-/

open Interaction

namespace TrantorCli.OpenFiles

/-- An open file description. -/
structure OpenFile where
  file : Nat
  cursor : Nat
  append : Bool
  /-- A pipe or a terminal has no position. -/
  positioned : Bool

/-- What one `write(2)` took. -/
structure Chunk where
  mine : Bool
  file : Nat
  bytes : List UInt8

/-- The open files and what is in the files. -/
structure Files where
  table : Nat → Option Nat
  openFiles : Nat → OpenFile
  nextOpen : Nat
  contents : Nat → List UInt8
  log : List Chunk

/-- What was written to a file. -/
def onFile (f : Nat) (log : List Chunk) : List UInt8 := (log.filter (·.file = f)).flatMap (·.bytes)

/-- What the program wrote. -/
def mine (log : List Chunk) : List UInt8 := (log.filter (·.mine)).flatMap (·.bytes)

/-- Where a seek goes in a file of some length. -/
def SeekFrom.target : SeekFrom → Nat → Nat
  | .start offset, _ => offset.toNat
  | .atEnd, length => length

namespace Files

/-- Where a write through an open file goes. -/
def position (w : Files) (o : Nat) : Nat :=
  if (w.openFiles o).append || !(w.openFiles o).positioned then
    (w.contents (w.openFiles o).file).length
  else (w.openFiles o).cursor

/-- The cursor of an open file is set. -/
def setCursor (w : Files) (o cursor : Nat) : Files :=
  { w with openFiles := Function.update w.openFiles o { w.openFiles o with cursor } }

/-- `bytes` are taken by a write through an open file. -/
def accept (w : Files) (mine : Bool) (o : Nat) (bytes : List UInt8) : Files :=
  let f := (w.openFiles o).file
  { w.setCursor o (w.position o + bytes.length) with
    contents := Function.update w.contents f ((w.contents f).overwrite 0 (w.position o) bytes)
    log := w.log ++ [⟨mine, f, bytes⟩] }

/-- A file is opened under a number that was free. -/
def openNew (w : Files) (fd file : Nat) (positioned : Bool) (flags : FsCore.OpenFlags) : Files :=
  { w with
    table := Function.update w.table fd (some w.nextOpen)
    openFiles := Function.update w.openFiles w.nextOpen ⟨file, 0, flags.append, positioned⟩
    nextOpen := w.nextOpen + 1
    contents := if flags.truncate then Function.update w.contents file [] else w.contents }

/-- A number for an open file, or none. -/
def setTable (w : Files) (fd : Nat) (o : Option Nat) : Files :=
  { w with table := Function.update w.table fd o }

end Files

/-- What a call may answer and do. A call that fails changes nothing, but that a descriptor is
closed whatever `close` answers. -/
def perform : (c : FdCall) → Files → FdAnswer c → Files → Prop
  | .openFile _ flags, w, answer, w' =>
    (∃ (fd file : Nat) (positioned : Bool), answer = .ok fd ∧ w.table fd = none ∧
      w' = w.openNew fd file positioned flags) ∨
      (∃ e, answer = .error e ∧ w' = w)
  | .dup fd, w, answer, w' =>
    (∃ new o : Nat, answer = .ok new ∧ w.table fd = some o ∧ 3 ≤ new ∧ w.table new = none ∧
      w' = w.setTable new (some o)) ∨ (∃ e, answer = .error e ∧ w' = w)
  | .seek fd pos, w, answer, w' =>
    (∃ o : Nat, answer = .ok () ∧ w.table fd = some o ∧ (w.openFiles o).positioned = true ∧
      w' = w.setCursor o (pos.target (w.contents (w.openFiles o).file).length)) ∨
      (∃ e, answer = .error e ∧ w' = w ∧ (e.espipe = true →
        ∀ o, w.table fd = some o → (w.openFiles o).positioned = false))
  | .write fd buf, w, answer, w' =>
    (∃ n o : Nat, answer = .ok n ∧ n ≤ buf.length ∧ w.table fd = some o ∧
      w' = w.accept true o (buf.take n)) ∨
      (∃ e, answer = .error e ∧ w' = w)
  | .getAppend fd, w, answer, w' =>
    (∃ o : Nat, answer = .ok (w.openFiles o).append ∧ w.table fd = some o ∧ w' = w) ∨
      (∃ e, answer = .error e ∧ w' = w)
  | .close fd, w, _, w' => w' = w.setTable fd none

/-- The program's process, amid others who do what `others` allows. -/
def kernel (others : Files → Files → Prop) : System FdCall FdAnswer Files := ⟨perform, others⟩

/-! ### What the calls ensure -/

section Calls

variable {others : Files → Files → Prop} {s : Files}

/-- `open_at!` opens a file under a number that was free, or changes nothing. -/
theorem openAt_ensuresAmid {path : UnixPath.PathBuf} {opts : Fs.OpenOptions}
    {flags : FsCore.OpenFlags}
    {Q : Except FsCore.IOErr FsCore.Desc → Files → Prop} (hflags : Fs.openFlags opts = .ok flags)
    (hok : ∀ t, (kernel others).Meanwhile s t → ∀ fd file positioned, t.table fd = none →
      ∀ u, (kernel others).Meanwhile (t.openNew fd file positioned flags) u → Q (.ok (.file fd)) u)
    (herror : ∀ t, (kernel others).Meanwhile s t → ∀ e, Q (.error e) t) :
    Fallible.EnsuresAmid (kernel others) Q (openAt path opts) s := by
  rw [openAt, hflags]
  intro t hst reply t' hperform
  rcases hperform with ⟨fd, file, positioned, rfl, hfree, rfl⟩ | ⟨e, rfl, rfl⟩
  · exact fun u htu => hok t hst fd file positioned hfree u htu
  · exact fun u htu => herror u (hst.trans htu) _

/-- A duplicate is a number from 3 on that was free, for the same open file. -/
theorem dup_ensuresAmid {fd : Nat} {Q : Except OsError Nat → Files → Prop}
    (hok : ∀ t, (kernel others).Meanwhile s t → ∀ new o, t.table fd = some o → 3 ≤ new →
      t.table new = none → ∀ u, (kernel others).Meanwhile (t.setTable new (some o)) u →
        Q (.ok new) u)
    (herror : ∀ t, (kernel others).Meanwhile s t → ∀ e, Q (.error e) t) :
    Fallible.EnsuresAmid (kernel others) Q (dup fd) s := by
  intro t hst reply t' hperform u htu
  rcases hperform with ⟨new, o, rfl, ho, hlow, hfree, rfl⟩ | ⟨e, rfl, rfl⟩
  · exact hok t hst new o ho hlow hfree u htu
  · exact herror u (hst.trans htu) e

/-- `F_GETFL` tells of the open file and changes nothing. -/
theorem getAppend_ensuresAmid {fd : Nat} {Q : Except OsError Bool → Files → Prop}
    (hok : ∀ t, (kernel others).Meanwhile s t → ∀ o, t.table fd = some o →
      ∀ u, (kernel others).Meanwhile t u → Q (.ok (t.openFiles o).append) u)
    (herror : ∀ t, (kernel others).Meanwhile s t → ∀ e, Q (.error e) t) :
    Fallible.EnsuresAmid (kernel others) Q (getAppend fd) s := by
  intro t hst reply t' hperform u htu
  rcases hperform with ⟨o, rfl, ho, rfl⟩ | ⟨e, rfl, rfl⟩
  · exact hok t' hst o ho u htu
  · exact herror u (hst.trans htu) e

/-- A write takes a front of what it is given, or changes nothing. -/
theorem writeFd_ensuresAmid {fd : Nat} {buf : List UInt8} {Q : Except OsError Nat → Files → Prop}
    (hok : ∀ t, (kernel others).Meanwhile s t → ∀ n o, t.table fd = some o →
      ∀ u, (kernel others).Meanwhile (t.accept true o (buf.take n)) u → Q (.ok n) u)
    (herror : ∀ t, (kernel others).Meanwhile s t → ∀ e, Q (.error e) t) :
    Fallible.EnsuresAmid (kernel others) Q (writeFd fd buf) s := by
  intro t hst reply t' hperform u htu
  rcases hperform with ⟨n, o, rfl, _, ho, rfl⟩ | ⟨e, rfl, rfl⟩
  · exact hok t hst n o ho u htu
  · exact herror u (hst.trans htu) e

/-- What has no position is left alone. -/
theorem seekIfPositioned_ensuresAmid {fd : Nat} {pos : SeekFrom}
    {Q : Except OsError Unit → Files → Prop}
    (hok : ∀ t, (kernel others).Meanwhile s t → ∀ o, t.table fd = some o →
      (t.openFiles o).positioned = true → ∀ u, (kernel others).Meanwhile
        (t.setCursor o (pos.target (t.contents (t.openFiles o).file).length)) u → Q (.ok ()) u)
    (hnone : ∀ t, (kernel others).Meanwhile s t →
      (∀ o, t.table fd = some o → (t.openFiles o).positioned = false) →
      ∀ u, (kernel others).Meanwhile t u → Q (.ok ()) u)
    (herror : ∀ t, (kernel others).Meanwhile s t → ∀ e, Q (.error e) t) :
    Fallible.EnsuresAmid (kernel others) Q (seekIfPositioned fd pos) s := by
  intro t hst reply t' hperform
  rcases hperform with ⟨o, rfl, ho, hpositioned, rfl⟩ | ⟨e, rfl, rfl, hespipe⟩
  · exact fun u htu => hok t hst o ho hpositioned u htu
  · change Program.EnsuresAmid _ _ (if e.espipe then
      (pure (.ok ()) : Program FdCall FdAnswer (Except OsError Unit)) else pure (.error e)) t'
    by_cases h : e.espipe = true
    · rw [if_pos h]
      exact fun u htu => hnone t' hst (hespipe h) u htu
    · rw [if_neg h]
      exact fun u htu => herror u (hst.trans htu) e

/-- On an error the descriptor is closed. -/
theorem orDrop_ensuresAmid {α : Type} {fd : Nat} {p : FdSys α} {Q : Except OsError α → Files → Prop}
    (h : Fallible.EnsuresAmid (kernel others) (fun result t =>
      match result with
      | .ok a => ∀ u, (kernel others).Meanwhile t u → Q (.ok a) u
      | .error e => ∀ u, (kernel others).Meanwhile t u →
        ∀ v, (kernel others).Meanwhile (u.setTable fd none) v → Q (.error e) v) p s) :
    Fallible.EnsuresAmid (kernel others) Q (orDrop fd p) s := by
  refine Program.EnsuresAmid.bind (Program.EnsuresAmid.mono h fun result t hresult => ?_)
  cases result with
  | ok a => exact hresult
  | error e =>
    intro u htu reply u' hperform
    obtain rfl : u' = u.setTable fd none := hperform
    exact hresult u htu

/-- An error is reported as its `IOErr`. -/
theorem hosted_ensuresAmid {α : Type} {p : FdSys α} {Q : Except FsCore.IOErr α → Files → Prop}
    (h : Fallible.EnsuresAmid (kernel others) (fun result t =>
      ∀ u, (kernel others).Meanwhile t u → Q (result.mapError fun e => FsCore.ioerr e.error) u)
        p s) :
    Fallible.EnsuresAmid (kernel others) Q (hosted p) s :=
  Program.EnsuresAmid.bind (Program.EnsuresAmid.mono h fun _ _ hresult => hresult)

end Calls

/-! ### What is written -/

variable {w : Files} {f o : Nat} {bytes : List UInt8}

/-- What was written to a file, part after part. -/
theorem onFile_append (f : Nat) (log log' : List Chunk) :
    onFile f (log ++ log') = onFile f log ++ onFile f log' := by
  simp [onFile]

/-- What the program wrote, part after part. -/
theorem mine_append (log log' : List Chunk) : mine (log ++ log') = mine log ++ mine log' := by
  simp [mine]

/-- Nothing was written to a file by no chunk. -/
@[simp] theorem onFile_nil (f : Nat) : onFile f [] = [] := rfl

/-- Nor by the program. -/
@[simp] theorem mine_nil : mine [] = [] := rfl

/-- What one chunk wrote to a file. -/
theorem onFile_single (f : Nat) (c : Chunk) :
    onFile f [c] = if c.file = f then c.bytes else [] := by
  simp only [onFile, List.filter_cons, List.filter_nil]
  split <;> simp_all

/-- What one chunk wrote of the program's. -/
theorem mine_single (c : Chunk) : mine [c] = if c.mine then c.bytes else [] := by
  simp only [mine, List.filter_cons, List.filter_nil]
  split <;> simp_all

/-- A write opens and closes nothing. -/
@[simp] theorem table_accept (m : Bool) : (w.accept m o bytes).table = w.table := rfl

/-- A write makes no open file. -/
@[simp] theorem nextOpen_accept (m : Bool) : (w.accept m o bytes).nextOpen = w.nextOpen := rfl

/-- A write goes on record as one chunk. -/
@[simp] theorem log_accept (m : Bool) :
    (w.accept m o bytes).log = w.log ++ [⟨m, (w.openFiles o).file, bytes⟩] := rfl

/-- Nothing about an open file changes but its cursor. -/
theorem openFiles_accept (w : Files) (m : Bool) (o : Nat) (bytes : List UInt8) (o' : Nat) :
    ((w.accept m o bytes).openFiles o').file = (w.openFiles o').file ∧
      ((w.accept m o bytes).openFiles o').append = (w.openFiles o').append ∧
      ((w.accept m o bytes).openFiles o').positioned = (w.openFiles o').positioned := by
  by_cases h : o' = o
  · subst h
    simp [Files.accept, Files.setCursor]
  · simp [Files.accept, Files.setCursor, h]

/-- Setting a cursor changes nothing else about any open file. -/
theorem openFiles_setCursor (w : Files) (o cursor o' : Nat) :
    ((w.setCursor o cursor).openFiles o').file = (w.openFiles o').file ∧
      ((w.setCursor o cursor).openFiles o').append = (w.openFiles o').append ∧
      ((w.setCursor o cursor).openFiles o').positioned = (w.openFiles o').positioned := by
  by_cases h : o' = o
  · subst h
    simp [Files.setCursor]
  · simp [Files.setCursor, h]

/-- The cursor ends behind what was written. -/
theorem cursor_accept (m : Bool) :
    ((w.accept m o bytes).openFiles o).cursor = w.position o + bytes.length := by
  simp [Files.accept, Files.setCursor]

/-- The bytes lie where the write went, in the file of the open file. -/
theorem contents_accept (m : Bool) (f : Nat) : (w.accept m o bytes).contents f =
    if (w.openFiles o).file = f then (w.contents f).overwrite 0 (w.position o) bytes
    else w.contents f := by
  simp only [Files.accept]
  split
  · rename_i h
    subst h
    rw [Function.update_self]
  · rename_i h
    rw [Function.update_of_ne (Ne.symm h)]

/-- What is written at the end is appended. -/
theorem contents_accept_of_append (m : Bool)
    (h : ((w.openFiles o).append || !(w.openFiles o).positioned) = true) (f : Nat) :
    (w.accept m o bytes).contents f =
      w.contents f ++ onFile f [⟨m, (w.openFiles o).file, bytes⟩] := by
  rw [contents_accept, onFile_single]
  simp only
  split
  · rename_i hf
    rw [Files.position, if_pos h, hf, List.overwrite_length]
  · rw [List.append_nil]

end TrantorCli.OpenFiles
