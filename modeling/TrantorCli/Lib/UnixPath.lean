import Mathlib.Data.List.Induction
import TrantorCli.Lib.SplitOn

/-!
# Paths as byte strings

A Unix path is a byte string, and what it names is its list of components: the
pieces between slashes, without the empty ones and the `.` ones. Joining paths
joins their components.
-/

namespace UnixPath

/-- The bytes of a path. -/
abbrev PathBuf := List UInt8

/-- A component of a path. -/
inductive Component where
  | rootDir
  | curDir
  | parentDir
  | normal (name : List UInt8)
  deriving DecidableEq, Repr

/-- The text of a component. -/
def Component.bytes : Component → List UInt8
  | .rootDir => [47]
  | .curDir => [46]
  | .parentDir => [46, 46]
  | .normal name => name

/-- What a piece between slashes contributes; an empty piece and `.` contribute nothing. -/
def ofPiece (piece : List UInt8) : Option Component :=
  if piece = [] ∨ piece = [46] then none
  else if piece = [46, 46] then some .parentDir
  else some (.normal piece)

/-- The components of a path after its start. -/
def body (path : PathBuf) : List Component := (path.splitOn 47).filterMap ofPiece

/-- The path starts at the root. -/
def isAbsolute (path : PathBuf) : Bool := path.head? == some 47

/-- The path starts with a `.` that stays a component. -/
def startsInCurDir (path : PathBuf) : Bool := (path.splitOn 47).head? == some [46]

/-- The components of a path. -/
def components (path : PathBuf) : List Component :=
  if isAbsolute path then .rootDir :: body path
  else if startsInCurDir path then .curDir :: body path
  else body path

/-- `path` taken from `base`: an absolute `path` takes the place of `base`. -/
def join (base path : PathBuf) : PathBuf :=
  if isAbsolute path then path
  else if base.getLast? = none ∨ base.getLast? = some 47 then base ++ path
  else base ++ 47 :: path

/-- The path built by pushing one component after the other. -/
def ofComponents (parts : List Component) : PathBuf :=
  parts.foldl (fun buf part => join buf part.bytes) []

/-- A path that starts at the root. -/
structure AbsPath where
  bytes : PathBuf
  absolute : isAbsolute bytes = true
  deriving DecidableEq

/-- A path that starts at the root and goes up nowhere, as a working directory or the canonical
form of a path is spelled. -/
structure PlainPath extends AbsPath where
  plain : Component.parentDir ∉ body bytes
  deriving DecidableEq

/-! ### Pieces -/

private theorem isAbsolute_iff {path : PathBuf} :
    isAbsolute path = true ↔ ∃ rest, path = 47 :: rest := by
  cases path with
  | nil => simp [isAbsolute]
  | cons b rest => simp [isAbsolute]

/-- A path is absolute by its first byte. -/
@[simp] theorem isAbsolute_cons (b : UInt8) (rest : PathBuf) :
    isAbsolute (b :: rest) = true ↔ b = 47 := by
  simp [isAbsolute]

/-- What follows does not make a path absolute. -/
theorem isAbsolute_append {path : PathBuf} (h : path ≠ []) (rest : PathBuf) :
    isAbsolute (path ++ rest) = isAbsolute path := by
  obtain ⟨b, path, rfl⟩ := List.exists_cons_of_ne_nil h
  rfl

/-- The empty path has no components. -/
@[simp] theorem body_nil : body [] = [] := by decide

/-- A slash separates components. -/
theorem body_append_slash (before after : PathBuf) :
    body (before ++ 47 :: after) = body before ++ body after := by
  rw [body, List.splitOn_append_cons_self, List.filterMap_append, body, body]

/-- A piece without a slash is at most one component. -/
theorem body_of_not_mem {piece : PathBuf} (h : (47 : UInt8) ∉ piece) :
    body piece = (ofPiece piece).toList := by
  rw [body, List.splitOn_eq_singleton h]
  cases hp : ofPiece piece with
  | none => simp [hp]
  | some part => simp [hp]

/-- Only an empty piece and `.` contribute nothing. -/
theorem ofPiece_eq_none {piece : List UInt8} :
    ofPiece piece = none ↔ piece = [] ∨ piece = [46] := by
  unfold ofPiece
  split <;> rename_i h
  · simp [h]
  · simp only [h, iff_false]
    split <;> simp

/-- A piece that contributes is the text of what it contributes. -/
theorem bytes_of_ofPiece {piece : List UInt8} {part : Component} (h : ofPiece piece = some part) :
    part.bytes = piece := by
  unfold ofPiece at h
  split at h
  · exact absurd h (by simp)
  · split at h
    · rename_i hparent
      rw [← Option.some_inj.mp h, hparent]
      rfl
    · rw [← Option.some_inj.mp h]
      rfl

/-- A component that may stand after the start of a path: its text is a piece that gives it. -/
structure Component.Inner (part : Component) : Prop where
  noSlash : (47 : UInt8) ∉ part.bytes
  piece : ofPiece part.bytes = some part

/-- What stands after the root is an inner component. -/
theorem inner_of_mem_body {path : PathBuf} {part : Component} (h : part ∈ body path) :
    part.Inner := by
  obtain ⟨piece, hmem, hpiece⟩ := List.mem_filterMap.mp h
  have hbytes : part.bytes = piece := bytes_of_ofPiece hpiece
  constructor
  · rw [hbytes]
    exact SplitOn.not_mem_of_mem hmem
  · rw [hbytes, hpiece]

/-- An inner component is neither empty nor a dot. -/
theorem Component.Inner.bytes_ne {part : Component} (h : part.Inner) :
    part.bytes ≠ [] ∧ part.bytes ≠ [46] := by
  have hne : ¬(part.bytes = [] ∨ part.bytes = [46]) := by
    intro hpiece
    rw [← ofPiece_eq_none, h.piece] at hpiece
    exact absurd hpiece (by simp)
  exact not_or.mp hne

/-- An inner component is the only one of its bytes. -/
theorem Component.Inner.body_bytes {part : Component} (h : part.Inner) :
    body part.bytes = [part] := by
  rw [body_of_not_mem h.noSlash, h.piece, Option.toList_some]

/-- An inner component is no absolute path. -/
theorem Component.Inner.relative {part : Component} (h : part.Inner) :
    isAbsolute part.bytes = false := by
  obtain ⟨b, rest, hb⟩ := List.exists_cons_of_ne_nil h.bytes_ne.1
  have hslash : b ≠ 47 := by
    rintro rfl
    exact h.noSlash (by simp [hb])
  rw [hb, ← Bool.not_eq_true, isAbsolute_cons]
  exact hslash

/-! ### Components -/

/-- An absolute path is the root, and what follows. -/
theorem components_of_isAbsolute {path : PathBuf} (h : isAbsolute path = true) :
    components path = .rootDir :: body path := by
  rw [components, if_pos h]

/-- The components of an absolute path after the root are its body. -/
theorem components_eq_append_iff {path base : PathBuf} (hpath : isAbsolute path = true)
    (hbase : isAbsolute base = true) {rest : List Component} :
    components path = components base ++ rest ↔ body path = body base ++ rest := by
  rw [components_of_isAbsolute hpath, components_of_isAbsolute hbase, List.cons_append,
    List.cons.injEq]
  simp

/-! ### Joining -/

/-- A relative path is put after the base, behind a slash. -/
theorem join_of_relative {path : PathBuf} (h : isAbsolute path = false) (base : PathBuf) :
    join base path = path ∧ base = [] ∨ (∃ init, join base path = init ++ 47 :: path ∧
      body init = body base ∧ (base = init ∨ base = init ++ [47])) := by
  rw [join, if_neg (by simp [h])]
  rcases List.eq_nil_or_concat base with rfl | ⟨init, b, rfl⟩
  · simp
  · right
    by_cases hb : b = 47
    · subst hb
      refine ⟨init, by simp, ?_, .inr (by simp)⟩
      rw [List.concat_eq_append, body_append_slash, body_nil, List.append_nil]
    · exact ⟨init ++ [b], by simp [hb], by simp, .inl (by simp)⟩

/-- Joining a relative path joins the components. -/
theorem body_join {path : PathBuf} (h : isAbsolute path = false) (base : PathBuf) :
    body (join base path) = body base ++ body path := by
  rcases join_of_relative h base with ⟨hjoin, rfl⟩ | ⟨init, hjoin, hinit, -⟩
  · simp [hjoin]
  · rw [hjoin, body_append_slash, hinit]

/-- What is taken from an absolute base is absolute. -/
theorem isAbsolute_join {base : PathBuf} (h : isAbsolute base = true) (path : PathBuf) :
    isAbsolute (join base path) = true := by
  obtain ⟨rest, rfl⟩ := isAbsolute_iff.mp h
  unfold join
  split
  · assumption
  · split <;> simp

/-- A relative path brings its components. -/
theorem components_join {base path : PathBuf} (hbase : isAbsolute base = true)
    (hpath : isAbsolute path = false) :
    components (join base path) = components base ++ body path := by
  rw [components_eq_append_iff (isAbsolute_join hbase path) hbase, body_join hpath]

/-! ### Rebuilding a path -/

/-- One more component is joined to what was built. -/
theorem ofComponents_concat (parts : List Component) (part : Component) :
    ofComponents (parts ++ [part]) = join (ofComponents parts) part.bytes := by
  simp [ofComponents]

end UnixPath
