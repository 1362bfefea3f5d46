import TrantorCli.FsCore.Descriptor

/-!
# Removing directories

A directory named through `..` or `.` is to be refused before anything is
touched. The guards look at how the target is spelled, and the last name of the
candidate is related to its marks, so that what they see can be said of the path
as it was given.
-/

open Interaction UnixPath

namespace TrantorCli.FsCore

/-- `beneath_lstat` -/
def beneathLstat (path : PathBuf) : Sys Metadata :=
  if namesDirectory path then metadata (.beneath path) else symlinkMetadata (.beneath path)

/-- `metadata_as_named`: whether the name is a directory, and its mode; a link is a link unless the
name ends in a mark. -/
def metadataAsNamed (tg : Target) : Sys (Bool × UInt32) :=
  match tg with
  | .ambient path => do
    let m ← symlinkMetadata (.ambient path)
    pure (m.isDir, m.mode)
  | .beneath path => do
    let m ← beneathLstat path
    pure (m.isDir, m.mode)

/-- `existing_directory_name` -/
def existingDirectoryName (tg : Target) : Sys Target :=
  if endsInParent tg.path then throw (unremovable "a directory named through .. cannot be removed")
  else
    match slashesStripped tg.path with
    | none => pure tg
    | some name => do
      let named := tg.withPath name
      let (isDir, _) ← metadataAsNamed named
      if isDir then pure named else throw directoryName

/-- `dir_unit`: the result of an operation as it is reported. -/
def dirUnit (p : Sys Unit) : Fallible Call Answer IOErr Unit :=
  ExceptT.mk (p.run >>= fun result => pure (result.mapError ioerr))

/-- `remove_dir_at` -/
def removeDirAt (r : Root) (d : Desc) (path : PathBuf) : Fallible Call Answer IOErr Unit :=
  dirUnit (withPath r d path fun tg => do
    let tg ← existingDirectoryName tg
    removeDir tg)

/-- `remove_dir_all_at` -/
def removeDirAllAt (r : Root) (d : Desc) (path : PathBuf) : Fallible Call Answer IOErr Unit :=
  dirUnit (withPath r d path fun tg => do
    Sys.ofExcept (refuseTrailingDot tg)
    Sys.ofExcept (refuseConfinedRoot tg)
    let tg ← existingDirectoryName tg
    removeDirAll tg)

private theorem eval_dirUnit (os : Os) (p : Sys Unit) :
    Fallible.eval os (dirUnit p) = (Fallible.eval os p).mapError ioerr := by
  rw [Fallible.eval, dirUnit, ExceptT.run_mk, Program.eval_bind, Program.eval_pure, eval_run]

private theorem trace_dirUnit (os : Os) (p : Sys Unit) :
    Fallible.trace os (dirUnit p) = Fallible.trace os p := by
  rw [Fallible.trace, dirUnit, ExceptT.run_mk, Program.trace_bind, Program.trace_pure,
    List.append_nil, Fallible.trace]

/-- The last piece of a path without its trailing slashes. -/
def lastName (path : PathBuf) : List UInt8 :=
  (((path.rdropWhile (· == 47)).splitOn 47).getLast?).getD []

/-- The call removes a directory. -/
def Call.removes : Call → Bool
  | .removeDir _ | .removeDirAll _ => true
  | _ => false

/-- The operation reports `Unsupported` and removes nothing. -/
structure Refused (os : Os) (op : Fallible Call Answer IOErr Unit) : Prop where
  result : Fallible.eval os op = .error .unsupported
  untouched : ∀ c ∈ Fallible.trace os op, c.removes = false

/-- The absolute path that `path` stands for at `dir`. -/
def candidate (dir path : PathBuf) : PathBuf := if isAbsolute path then path else join dir path

/-- On a confined root, the path leads to the root and up by one `..`, and no further. -/
def LeadsAboveRoot (os : Os) (r : Root) (d : Desc) (path : PathBuf) : Prop :=
  ∃ base dir before, r = .confined (.ok base) ∧ dirOf r d = .ok dir ∧
    RootPrefix os base.toAbsPath (candidate dir path) before ∧
    components (candidate dir path) = before ++ [.parentDir]

/-! ### The last name and the marks -/

section LastName

variable {path : PathBuf}

private theorem lastName_of_last {before last : List UInt8} (hlast : (47 : UInt8) ∉ last)
    (hpath : path.rdropWhile (· == 47) = before ++ 47 :: last) : lastName path = last := by
  rw [lastName, hpath, SplitOn.splitOn_append_last _ hlast, List.getLast?_concat, Option.getD_some]

/-- The last name is `.` when a mark is `/.`, and `..` when the marks are slashes and the bare path
ends in `..`. -/
theorem lastName_append_trail (h : Bare path) (marks : List Mark) :
    (lastName (path ++ trail marks) = [46] ↔ Mark.dot ∈ marks ∨ path = [46]) ∧
      (lastName (path ++ trail marks) = [46, 46] ↔
        Mark.dot ∉ marks ∧ (path = [46, 46] ∨ [47, 46, 46] <:+ path)) := by
  by_cases hdot : Mark.dot ∈ marks
  · obtain ⟨front, hfront⟩ := dot_suffix_of_rdropWhile hdot path
    have hlast : lastName (path ++ trail marks) = [46] :=
      lastName_of_last (by decide) (by rw [h.rdropWhile_slash, ← hfront])
    simp [hlast, hdot]
  have hdrop : (path ++ trail marks).rdropWhile (· == 47) = path := by
    rw [h.rdropWhile_slash, rdropWhile_slash_eq_nil_iff.mpr hdot, trail_nil, List.append_nil]
  by_cases hmem : (47 : UInt8) ∈ path
  · obtain ⟨before, last, rfl, hlast⟩ := SplitOn.eq_append_cons_of_mem_last hmem
    rw [lastName_of_last hlast hdrop, slash_suffix_iff (by decide) hlast]
    have hne : ∀ piece : List UInt8, (47 : UInt8) ∉ piece → before ++ 47 :: last ≠ piece := by
      rintro piece hpiece rfl
      exact hpiece hmem
    have hlastNe : last ≠ [46] := by
      rintro rfl
      exact h.noDot (List.suffix_append _ _)
    simp [hdot, hne [46] (by decide), hne [46, 46] (by decide), hlastNe, eq_comm]
  · have hname : lastName (path ++ trail marks) = path := by
      rw [lastName, hdrop, List.splitOn_eq_singleton hmem]
      rfl
    have hno : ¬[47, 46, 46] <:+ path := fun hsuffix => hmem (hsuffix.subset (by simp))
    simp [hname, hdot, hno]

private theorem rdropWhile_append_of_relative (hne : path ≠ []) (hrel : isAbsolute path = false)
    (before : PathBuf) :
    (before ++ 47 :: path).rdropWhile (· == 47) = before ++ 47 :: path.rdropWhile (· == 47) := by
  obtain ⟨b, path, rfl⟩ := List.exists_cons_of_ne_nil hne
  have hb : ¬(b == 47) = true := by
    rw [← Bool.not_eq_true, isAbsolute_cons] at hrel
    simpa using hrel
  have hkept : (((b :: path).reverse).dropWhile (· == 47)).isEmpty = false := by
    rw [Bool.eq_false_iff, Ne, List.isEmpty_iff, List.dropWhile_eq_nil_iff]
    intro hall
    exact hb (hall b (by simp))
  rw [List.rdropWhile, List.rdropWhile, List.reverse_append, List.reverse_cons (a := 47),
    List.append_assoc, List.dropWhile_append, hkept]
  simp

/-- Joining a path to a directory keeps its last name. -/
theorem lastName_candidate {dir : PathBuf} (hdir : isAbsolute dir = true) (hne : path ≠ []) :
    lastName (candidate dir path) = lastName path := by
  unfold candidate
  split
  · rfl
  · rename_i hrel
    rw [Bool.not_eq_true] at hrel
    rcases join_of_relative hrel dir with ⟨-, rfl⟩ | ⟨init, hjoin, -⟩
    · exact absurd hdir (by decide)
    · rw [hjoin, lastName, rdropWhile_append_of_relative hne hrel, List.splitOn_append_cons_self,
        List.getLast?_append_of_ne_nil _ (List.splitOn_ne_nil _ _), lastName]

end LastName

/-- From an absolute directory the candidate is absolute. -/
theorem isAbsolute_candidate {dir : PathBuf} (hdir : isAbsolute dir = true) (path : PathBuf) :
    isAbsolute (candidate dir path) = true := by
  unfold candidate
  split
  · assumption
  · exact isAbsolute_join hdir path

/-! ### What is called -/

variable {os : Os} {r : Root} {d : Desc} {path : PathBuf} {tg : Target}

/-- Resolving a path removes nothing. -/
theorem trace_resolveAt : ∀ c ∈ Fallible.trace os (resolveAt r d path), c.removes = false := by
  have hcalls : Fallible.OnlyCalls Call.isCanonicalize (resolveAt r d path) :=
    Fallible.onlyCalls_bind (onlyCalls_ofExcept _) fun dir =>
      Fallible.onlyCalls_bind (onlyCalls_resolve r dir path) fun _ => Fallible.onlyCalls_pure _
  intro c hc
  have hcanonicalize := hcalls.trace os c hc
  cases c <;> simp_all [Call.isCanonicalize, Call.removes]

/-- An operation on a path is what it does to the target the path resolves to. -/
theorem eval_dirUnit_withPath {f : Target → Sys Unit}
    (htg : Fallible.eval os (resolveAt r d path) = .ok tg) :
    Fallible.eval os (dirUnit (withPath r d path f)) = (Fallible.eval os (f tg)).mapError ioerr ∧
      Fallible.trace os (dirUnit (withPath r d path f)) =
        Fallible.trace os (resolveAt r d path) ++ Fallible.trace os (f tg) := by
  have hwith : withPath r d path f = resolveAt r d path >>= f := by simp [withPath, resolveAt]
  rw [eval_dirUnit, trace_dirUnit, hwith, Fallible.eval_bind_of_ok os htg,
    Fallible.trace_bind_of_ok os htg]
  exact ⟨rfl, rfl⟩

/-- An operation that fails at its target before removing anything refuses. -/
theorem refused_of_target {f : Target → Sys Unit}
    (htg : Fallible.eval os (resolveAt r d path) = .ok tg)
    (hresult : ∃ why, Fallible.eval os (f tg) = .error (unremovable why))
    (htrace : Fallible.trace os (f tg) = []) : Refused os (dirUnit (withPath r d path f)) := by
  obtain ⟨heval, hcalls⟩ := eval_dirUnit_withPath htg (f := f)
  obtain ⟨why, hresult⟩ := hresult
  constructor
  · rw [heval, hresult]
    rfl
  · rw [hcalls, htrace, List.append_nil]
    exact trace_resolveAt

private theorem existingDirectoryName_of_parent (h : endsInParent tg.path = true) :
    existingDirectoryName tg =
      throw (unremovable "a directory named through .. cannot be removed") := by
  rw [existingDirectoryName, if_pos h]

/-- A target that is seen to end in `..` is refused by both operations. -/
theorem refused_of_parent (htg : Fallible.eval os (resolveAt r d path) = .ok tg)
    (hparent : endsInParent tg.path = true) (hdot : refuseTrailingDot tg = .ok ())
    (hroot : refuseConfinedRoot tg = .ok ()) :
    Refused os (removeDirAt r d path) ∧ Refused os (removeDirAllAt r d path) := by
  constructor
  · refine refused_of_target htg ⟨"a directory named through .. cannot be removed", ?_⟩ ?_
    · rw [existingDirectoryName_of_parent hparent]
      rfl
    · rw [existingDirectoryName_of_parent hparent]
      rfl
  · refine refused_of_target htg ⟨"a directory named through .. cannot be removed", ?_⟩ ?_
    · rw [existingDirectoryName_of_parent hparent, hdot, hroot]
      rfl
    · rw [existingDirectoryName_of_parent hparent, hdot, hroot]
      rfl

/-- A target with a `/.` mark is refused by the recursive removal. -/
theorem refused_of_dot (htg : Fallible.eval os (resolveAt r d path) = .ok tg)
    (hdot : refuseTrailingDot tg ≠ .ok ()) : Refused os (removeDirAllAt r d path) := by
  have hrefuse : refuseTrailingDot tg =
      .error (unremovable "a directory named through . cannot be removed") := by
    unfold refuseTrailingDot at hdot ⊢
    split at hdot
    · rename_i h
      rw [if_pos h]
    · exact absurd rfl hdot
  refine refused_of_target htg ⟨"a directory named through . cannot be removed", ?_⟩ ?_
  · rw [hrefuse]
    rfl
  · rw [hrefuse]
    rfl

/-- A target from whose name nothing is taken is handed to the backend as it is. -/
theorem removed_of_plain (htg : Fallible.eval os (resolveAt r d path) = .ok tg)
    (hparent : endsInParent tg.path = false) (hslashes : slashesStripped tg.path = none)
    (hdot : refuseTrailingDot tg = .ok ()) (hroot : refuseConfinedRoot tg = .ok ()) :
    Call.removeDir tg ∈ Fallible.trace os (removeDirAt r d path) ∧
      Call.removeDirAll tg ∈ Fallible.trace os (removeDirAllAt r d path) := by
  have hname : existingDirectoryName tg = pure tg := by
    rw [existingDirectoryName, if_neg (by simp [hparent]), hslashes]
  constructor
  · rw [removeDirAt, (eval_dirUnit_withPath htg).2, hname]
    exact List.mem_append_right _ (List.mem_singleton_self _)
  · rw [removeDirAllAt, (eval_dirUnit_withPath htg).2, hname, hdot, hroot]
    exact List.mem_append_right _ (List.mem_singleton_self _)

end TrantorCli.FsCore
