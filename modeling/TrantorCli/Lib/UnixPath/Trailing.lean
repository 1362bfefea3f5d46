import Mathlib.Data.List.DropRight
import TrantorCli.Lib.UnixPath

/-!
# What stands at the end of a path

A trailing `/` or `/.` is no component, so two paths may have the same components
and end differently. Every path is a bare one, which ends in neither, followed by
a run of these marks, and every test of a path's ending reads the marks or the
last component of the bare path.
-/

namespace UnixPath

/-- A trailing `/` or `/.`. -/
inductive Mark where
  | slash
  | dot
  deriving DecidableEq, Repr

/-- The text of a mark. -/
def Mark.bytes : Mark → List UInt8
  | .slash => [47]
  | .dot => [47, 46]

/-- The text of a run of marks. -/
def trail (marks : List Mark) : PathBuf := marks.flatMap Mark.bytes

/-- The path ends in no mark. -/
structure Bare (path : PathBuf) : Prop where
  noSlash : ¬[47] <:+ path
  noDot : ¬[47, 46] <:+ path

/-- No marks, no bytes. -/
@[simp] theorem trail_nil : trail [] = [] := rfl

/-- The first mark comes first. -/
@[simp] theorem trail_cons (mark : Mark) (marks : List Mark) :
    trail (mark :: marks) = mark.bytes ++ trail marks := by
  simp [trail]

/-- The last mark comes last. -/
@[simp] theorem trail_concat (marks : List Mark) (mark : Mark) :
    trail (marks ++ [mark]) = trail marks ++ mark.bytes := by
  simp [trail]

/-- Every path is a bare path and a run of marks. -/
theorem exists_bare (path : PathBuf) : ∃ bare marks, Bare bare ∧ path = bare ++ trail marks := by
  induction hn : path.length using Nat.strongRecOn generalizing path with
  | ind n ih =>
    by_cases hslash : [47] <:+ path
    · obtain ⟨init, rfl⟩ := hslash
      obtain ⟨bare, marks, hbare, rfl⟩ := ih init.length (by simp at hn; omega) init rfl
      exact ⟨bare, marks ++ [.slash], hbare, by simp [Mark.bytes]⟩
    · by_cases hdot : [47, 46] <:+ path
      · obtain ⟨init, rfl⟩ := hdot
        obtain ⟨bare, marks, hbare, rfl⟩ := ih init.length (by simp at hn; omega) init rfl
        exact ⟨bare, marks ++ [.dot], hbare, by simp [Mark.bytes]⟩
      · exact ⟨path, [], ⟨hslash, hdot⟩, by simp⟩

/-! ### Marks and components -/

/-- A mark is a slash, and no name after it. -/
theorem Mark.exists_bytes (mark : Mark) : ∃ rest, mark.bytes = 47 :: rest ∧ body rest = [] := by
  cases mark with
  | slash => exact ⟨[], rfl, by decide⟩
  | dot => exact ⟨[46], rfl, by decide⟩

/-- Marks are no components. -/
theorem body_append_trail (path : PathBuf) (marks : List Mark) :
    body (path ++ trail marks) = body path := by
  induction marks generalizing path with
  | nil => simp
  | cons mark marks ih =>
    obtain ⟨rest, hrest, hbody⟩ := mark.exists_bytes
    rw [trail_cons, ← List.append_assoc, ih, hrest, body_append_slash, hbody, List.append_nil]

/-- What follows a slash does not change how a path begins. -/
theorem startsInCurDir_append_slash (before after : PathBuf) :
    startsInCurDir (before ++ 47 :: after) = startsInCurDir before := by
  have hne := List.splitOn_ne_nil 47 before
  rw [startsInCurDir, List.splitOn_append_cons_self, List.head?_append_of_ne_nil _ hne,
    startsInCurDir]

/-- Marks at the end of a path are no components. -/
theorem components_append_trail {path : PathBuf} (h : path ≠ []) (marks : List Mark) :
    components (path ++ trail marks) = components path := by
  have hstart : startsInCurDir (path ++ trail marks) = startsInCurDir path := by
    cases marks with
    | nil => simp
    | cons mark marks =>
      obtain ⟨rest, hrest, -⟩ := mark.exists_bytes
      rw [trail_cons, hrest, List.cons_append, startsInCurDir_append_slash]
  rw [components, isAbsolute_append h, hstart, body_append_trail, components]

/-! ### Endings -/

/-- Two ends that each start at the last slash are the same. -/
theorem slash_suffix_iff {end₁ end₂ before : List UInt8} (h₁ : (47 : UInt8) ∉ end₁)
    (h₂ : (47 : UInt8) ∉ end₂) : 47 :: end₁ <:+ before ++ 47 :: end₂ ↔ end₁ = end₂ := by
  constructor
  · rintro ⟨front, hfront⟩
    have hsplit := congrArg (fun path => (path.splitOn 47).getLast?) hfront
    simpa [SplitOn.splitOn_append_last _ h₁, SplitOn.splitOn_append_last _ h₂] using hsplit
  · rintro rfl
    exact List.suffix_append _ _

/-- A path that ends in an inner component ends in no mark. -/
theorem Component.Inner.bare {part : Component} (h : part.Inner) (before : PathBuf) :
    Bare (before ++ part.bytes) := by
  have hmem : ∀ mark : List UInt8, ¬(47 :: mark <:+ part.bytes) := fun mark hsuffix =>
    h.noSlash (hsuffix.subset (by simp))
  have hend : part.bytes <:+ before ++ part.bytes := List.suffix_append _ _
  constructor
  · intro hsuffix
    exact hmem [] (List.suffix_of_suffix_length_le hsuffix hend
      (List.length_pos_iff.mpr h.bytes_ne.1))
  · intro hsuffix
    rcases List.suffix_or_suffix_of_suffix hsuffix hend with hlong | hshort
    · exact hmem [46] hlong
    · have hcases : part.bytes = [47, 46] ∨ part.bytes = [46] ∨ part.bytes = [] := by
        simpa [List.suffix_cons_iff] using hshort
      rcases hcases with hbytes | hbytes | hbytes
      · exact h.noSlash (by simp [hbytes])
      · exact h.bytes_ne.2 hbytes
      · exact h.bytes_ne.1 hbytes

/-- A piece without a slash, other than the empty one and `.`, is an inner component. -/
theorem exists_inner {piece : List UInt8} (hslash : (47 : UInt8) ∉ piece) (hne : piece ≠ [])
    (hdot : piece ≠ [46]) : ∃ part : Component, part.Inner ∧ part.bytes = piece := by
  obtain ⟨part, hpart⟩ := Option.ne_none_iff_exists'.mp
    (mt ofPiece_eq_none.mp (not_or.mpr ⟨hne, hdot⟩))
  have hbytes : part.bytes = piece := bytes_of_ofPiece hpart
  exact ⟨part, ⟨hbytes.symm ▸ hslash, hbytes.symm ▸ hpart⟩, hbytes⟩

/-- A bare path other than the empty one and `.` ends in an inner component. -/
theorem Bare.exists_last {path : PathBuf} (h : Bare path) (hne : path ≠ []) (hdot : path ≠ [46]) :
    ∃ init part, part.Inner ∧ body path = init ++ [part] ∧
      (path = part.bytes ∨ ∃ before, path = before ++ 47 :: part.bytes) := by
  by_cases hmem : (47 : UInt8) ∈ path
  · obtain ⟨before, last, rfl, hlast⟩ := SplitOn.eq_append_cons_of_mem_last hmem
    have hlastNe : last ≠ [] := by
      rintro rfl
      exact h.noSlash (List.suffix_append _ _)
    have hlastDot : last ≠ [46] := by
      rintro rfl
      exact h.noDot (List.suffix_append _ _)
    obtain ⟨part, hpart, rfl⟩ := exists_inner hlast hlastNe hlastDot
    exact ⟨body before, part, hpart, by rw [body_append_slash, hpart.body_bytes], .inr ⟨_, rfl⟩⟩
  · obtain ⟨part, hpart, rfl⟩ := exists_inner hmem hne hdot
    exact ⟨[], part, hpart, by rw [hpart.body_bytes, List.nil_append], .inl rfl⟩

/-- Whether a bare path ends in `..` can be read off its bytes or its last component. -/
theorem Bare.ends_in_parent_iff {path : PathBuf} (h : Bare path) :
    path = [46, 46] ∨ [47, 46, 46] <:+ path ↔ (body path).getLast? = some .parentDir := by
  by_cases hne : path = []
  · subst hne
    decide
  by_cases hdot : path = [46]
  · subst hdot
    decide
  obtain ⟨init, part, hpart, hbody, hend⟩ := h.exists_last hne hdot
  have hparent : part.bytes = [46, 46] ↔ part = .parentDir := by
    constructor
    · intro hbytes
      have hpiece := hpart.piece
      rw [hbytes] at hpiece
      exact (Option.some_inj.mp hpiece).symm
    · rintro rfl
      rfl
  rw [hbody, List.getLast?_concat, Option.some_inj, ← hparent]
  rcases hend with hwhole | ⟨before, hbefore⟩
  · have hno : ¬[47, 46, 46] <:+ path := fun hsuffix =>
      hpart.noSlash (hwhole ▸ hsuffix.subset (by simp))
    rw [← hwhole]
    simp [hno]
  · have hlong : path ≠ [46, 46] := by
      intro hpath
      have hslash : (47 : UInt8) ∈ path := by simp [hbefore]
      exact absurd (hpath ▸ hslash) (by decide)
    rw [hbefore, slash_suffix_iff (by decide) hpart.noSlash, ← hbefore]
    simp [hlong, eq_comm]

/-! ### Taking slashes off -/

/-- Taking the slashes off the end of a path takes off its last slash marks. -/
theorem Bare.rdropWhile_slash {path : PathBuf} (h : Bare path) (marks : List Mark) :
    (path ++ trail marks).rdropWhile (· == 47) =
      path ++ trail (marks.rdropWhile (· == .slash)) := by
  induction marks using List.reverseRecOn with
  | nil =>
    rw [trail_nil, List.append_nil, List.rdropWhile_nil, trail_nil, List.append_nil,
      List.rdropWhile_eq_self_iff]
    intro hne hlast
    refine h.noSlash ⟨path.dropLast, ?_⟩
    rw [← beq_iff_eq.mp hlast, List.dropLast_append_getLast]
  | append_singleton marks mark ih =>
    cases mark with
    | slash =>
      rw [trail_concat, ← List.append_assoc, Mark.bytes, List.rdropWhile_concat_pos _ _ _ (by simp),
        ih, List.rdropWhile_concat_pos _ _ _ (by simp)]
    | dot =>
      have hsplit : path ++ trail (marks ++ [.dot]) = path ++ trail marks ++ [47] ++ [46] := by
        simp [Mark.bytes]
      rw [hsplit, List.rdropWhile_concat_neg _ _ _ (by simp), ← hsplit,
        List.rdropWhile_concat_neg _ _ _ (by simp)]

/-- Slash marks are all taken off exactly when there is no `.` mark. -/
theorem rdropWhile_slash_eq_nil_iff {marks : List Mark} :
    marks.rdropWhile (· == .slash) = [] ↔ Mark.dot ∉ marks := by
  rw [List.rdropWhile_eq_nil_iff]
  constructor
  · intro h hdot
    exact absurd (h _ hdot) (by decide)
  · intro h mark hmark
    cases mark with
    | slash => rfl
    | dot => exact absurd hmark h

/-- What is left of the marks ends in a `.` mark. -/
theorem dot_suffix_of_rdropWhile {marks : List Mark} (h : Mark.dot ∈ marks) (path : PathBuf) :
    [47, 46] <:+ path ++ trail (marks.rdropWhile (· == .slash)) := by
  have hne : marks.rdropWhile (· == .slash) ≠ [] := mt rdropWhile_slash_eq_nil_iff.mp (by simpa)
  have hlast := List.rdropWhile_last_not _ _ hne
  have hdot : (marks.rdropWhile (· == .slash)).getLast hne = .dot := by
    cases hmark : (marks.rdropWhile (· == .slash)).getLast hne with
    | slash => exact absurd (by simp [hmark]) hlast
    | dot => rfl
  rw [← List.dropLast_append_getLast hne, hdot, trail_concat, ← List.append_assoc]
  exact List.suffix_append _ _

end UnixPath
