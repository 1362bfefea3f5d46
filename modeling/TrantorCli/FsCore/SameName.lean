import TrantorCli.FsCore.Beneath

/-!
# Two spellings of one name

A name below the root is an absolute path on one backend and a path relative to
the root handle on the other. Every guard says the same of both spellings, but
for the root itself and for its parent.
-/

open Interaction UnixPath

namespace TrantorCli.FsCore

/-- `path` and `rel` spell one name: `path` has the components `rest` of `rel` after those of the
base, and both ask for a directory in the same way. -/
structure SameName (base : AbsPath) (rest : List Component) (path rel : PathBuf) : Prop where
  absolute : isAbsolute path = true
  relative : isAbsolute rel = false
  above : components path = components base.bytes ++ rest
  below : components rel = rest
  trailing : trailingSpelling rel = trailingSpelling path

/-- The components lead neither to the root itself nor, by one `..`, to its parent. -/
def BelowRoot (rest : List Component) : Prop := rest ≠ [] ∧ rest ≠ [.parentDir]

variable {base : AbsPath} {rest : List Component} {path rel : PathBuf}

/-- Marks that are put back alike tell the guards the same. -/
theorem trail_collapse_inj {marks marks' : List Mark}
    (h : trail (collapse marks) = trail (collapse marks')) :
    (Mark.dot ∈ marks ↔ Mark.dot ∈ marks') ∧ (marks = [] ↔ marks' = []) := by
  have hshape : ∀ marks,
      collapse marks = [.dot] ∨ collapse marks = [] ∨ collapse marks = [.slash] := by
    intro marks
    unfold collapse
    split
    · exact .inl rfl
    · split
      · exact .inr (.inl rfl)
      · exact .inr (.inr rfl)
  have hcollapse : collapse marks = collapse marks' := by
    rcases hshape marks with h₁ | h₁ | h₁ <;> rcases hshape marks' with h₂ | h₂ | h₂ <;>
      rw [h₁, h₂] at h ⊢ <;> simp [Mark.bytes] at h
  constructor
  · rw [← dot_mem_collapse, hcollapse, dot_mem_collapse]
  · rw [← collapse_eq_nil, hcollapse, collapse_eq_nil]

/-- Both spellings are bare paths with marks that tell the guards the same. -/
structure Spelled (base : AbsPath) (rest : List Component) (path rel bare bareRel : PathBuf)
    (marks marksRel : List Mark) : Prop where
  path_eq : path = bare ++ trail marks
  rel_eq : rel = bareRel ++ trail marksRel
  isBare : Bare bare
  isBareRel : Bare bareRel
  dot : Mark.dot ∈ marksRel ↔ Mark.dot ∈ marks
  nil : marksRel = [] ↔ marks = []
  ne_nil : bare ≠ [] ∧ bareRel ≠ []
  ne_dot : bare ≠ [46] ∧ bareRel ≠ [46]
  above : components bare = components base.bytes ++ rest
  below : components bareRel = rest
  last : (body bare).getLast? = rest.getLast?
  lastRel : (body bareRel).getLast? = rest.getLast?

/-- Below the root, a component is `..` or a name. -/
theorem SameName.inner (h : SameName base rest path rel) : ∀ part ∈ rest, part.Inner := by
  intro part hpart
  have hbody := h.above
  rw [components_of_isAbsolute h.absolute, components_of_isAbsolute base.absolute,
    List.cons_append, List.cons.injEq] at hbody
  exact inner_of_mem_body (hbody.2 ▸ List.mem_append_right _ hpart)

private theorem curDir_notMem_of_inner (h : ∀ part ∈ rest, part.Inner) :
    Component.curDir ∉ rest := by
  intro hmem
  exact absurd (h _ hmem).piece (by decide)

/-- The components of the relative spelling are all in its body. -/
theorem SameName.body_rel (h : SameName base rest path rel) : body rel = rest := by
  have hbelow := h.below
  rw [components, if_neg (by simp [h.relative])] at hbelow
  split at hbelow
  · exact absurd (hbelow ▸ List.mem_cons_self) (curDir_notMem_of_inner h.inner)
  · exact hbelow

private theorem SameName.exists_spelled (h : SameName base rest path rel) (hrest : rest ≠ []) :
    ∃ bare bareRel marks marksRel, Spelled base rest path rel bare bareRel marks marksRel := by
  obtain ⟨bare, marks, hbare, rfl⟩ := exists_bare path
  obtain ⟨bareRel, marksRel, hbareRel, rfl⟩ := exists_bare rel
  have hbase : components base.bytes ≠ [] := by simp [components_of_isAbsolute base.absolute]
  obtain ⟨hne, hdot, habove, hlast⟩ := bare_of_rest h.absolute h.above hbase hrest
  have hmarks := h.trailing
  rw [trailingSpelling_append_trail hbareRel, trailingSpelling_append_trail hbare] at hmarks
  obtain ⟨hdotMarks, hnilMarks⟩ := trail_collapse_inj hmarks
  have hneRel : bareRel ≠ [] := by
    rintro rfl
    have hbody := h.body_rel
    rw [body_append_trail, body_nil] at hbody
    exact hrest hbody.symm
  have hbelow := h.below
  rw [components_append_trail hneRel] at hbelow
  have hbody := h.body_rel
  rw [body_append_trail] at hbody
  refine ⟨bare, bareRel, marks, marksRel, rfl, rfl, hbare, hbareRel, hdotMarks, hnilMarks,
    ⟨hne, hneRel⟩, ⟨hdot, ?_⟩, habove, hbelow, hlast, by rw [hbody]⟩
  rintro rfl
  exact curDir_notMem_of_inner h.inner (hbelow ▸ by decide)

/-! ### The guards -/

/-- Both spellings ask for a directory, or neither does. -/
theorem SameName.namesDirectory (h : SameName base rest path rel) (hrest : rest ≠ []) :
    FsCore.namesDirectory rel = FsCore.namesDirectory path := by
  obtain ⟨bare, bareRel, marks, marksRel, hs⟩ := h.exists_spelled hrest
  rw [hs.path_eq, hs.rel_eq, Bool.eq_iff_iff, namesDirectory_append_trail hs.isBareRel,
    namesDirectory_append_trail hs.isBare, Ne, hs.nil]

/-- Both spellings are seen to end in `..`, or neither is. -/
theorem SameName.endsInParent (h : SameName base rest path rel) (hrest : BelowRoot rest) :
    FsCore.endsInParent rel = FsCore.endsInParent path := by
  obtain ⟨bare, bareRel, marks, marksRel, hs⟩ := h.exists_spelled hrest.1
  have hlong : bare ≠ [46, 46] ∧ bareRel ≠ [46, 46] := by
    constructor
    · rintro rfl
      have habs := h.absolute
      rw [hs.path_eq, isAbsolute_append (by simp)] at habs
      exact absurd habs (by decide)
    · rintro rfl
      exact hrest.2 (hs.below.symm.trans (by decide))
  have hends : ∀ {p : PathBuf}, Bare p → p ≠ [46, 46] →
      ([47, 46, 46] <:+ p ↔ (body p).getLast? = some .parentDir) := by
    intro p hp hne
    rw [← hp.ends_in_parent_iff]
    simp [hne]
  rw [hs.path_eq, hs.rel_eq, Bool.eq_iff_iff, endsInParent_append_trail hs.isBareRel,
    endsInParent_append_trail hs.isBare, hs.dot, hends hs.isBareRel hlong.2,
    hends hs.isBare hlong.1,
    hs.last, hs.lastRel]

/-- Slashes are taken off both spellings, and leave spellings of one name, or off neither. -/
theorem SameName.slashesStripped (h : SameName base rest path rel) (hrest : rest ≠ []) :
    (FsCore.slashesStripped path = none ∧ FsCore.slashesStripped rel = none) ∨
      ∃ name nameRel, FsCore.slashesStripped path = some name ∧
        FsCore.slashesStripped rel = some nameRel ∧ SameName base rest name nameRel := by
  obtain ⟨bare, bareRel, marks, marksRel, hs⟩ := h.exists_spelled hrest
  have hpath := slashesStripped_append_trail hs.isBare marks
  have hrel := slashesStripped_append_trail hs.isBareRel marksRel
  rw [← hs.path_eq, hs.last] at hpath
  rw [← hs.rel_eq, hs.lastRel] at hrel
  simp only [Ne, hs.dot, hs.nil, hs.ne_nil, hs.ne_dot, not_false_eq_true, true_and] at hpath hrel
  by_cases hslashes : ¬marks = [] ∧ Mark.dot ∉ marks ∧ ¬rest.getLast? = some .parentDir
  · rw [if_pos hslashes] at hpath hrel
    refine .inr ⟨bare, bareRel, hpath, hrel, ?_, ?_, hs.above, hs.below, ?_⟩
    · have habs := h.absolute
      rwa [hs.path_eq, isAbsolute_append hs.ne_nil.1] at habs
    · have hrelative := h.relative
      rwa [hs.rel_eq, isAbsolute_append hs.ne_nil.2] at hrelative
    · have hbare := trailingSpelling_append_trail hs.isBare []
      have hbareRel := trailingSpelling_append_trail hs.isBareRel []
      rw [trail_nil, List.append_nil] at hbare hbareRel
      rw [hbare, hbareRel]
  · rw [if_neg hslashes] at hpath hrel
    exact .inl ⟨hpath, hrel⟩

/-- Both spellings are refused for a `.` at their end, or neither is. -/
theorem SameName.refuseTrailingDot (h : SameName base rest path rel) (hrest : rest ≠ []) :
    FsCore.refuseTrailingDot (.beneath rel) = FsCore.refuseTrailingDot (.ambient path) := by
  obtain ⟨bare, bareRel, marks, marksRel, hs⟩ := h.exists_spelled hrest
  have hpath : (Target.ambient path).path = bare ++ trail marks := hs.path_eq
  have hrel : (Target.beneath rel).path = bareRel ++ trail marksRel := hs.rel_eq
  apply refuseTrailingDot_congr
  rw [refuseTrailingDot_eq_ok hs.isBareRel marksRel hrel,
    refuseTrailingDot_eq_ok hs.isBare marks hpath, hs.dot]

/-- A name below the root is not the root. -/
theorem SameName.refuseConfinedRoot (h : SameName base rest path rel) (hrest : rest ≠ []) :
    FsCore.refuseConfinedRoot (.beneath rel) = .ok () := by
  rw [FsCore.refuseConfinedRoot, h.below, if_neg]
  intro hall
  obtain ⟨part, rest, rfl⟩ := List.exists_cons_of_ne_nil hrest
  have hpart : part = .curDir := by simpa using List.all_eq_true.mp hall part List.mem_cons_self
  exact curDir_notMem_of_inner h.inner (hpart ▸ List.mem_cons_self)

end TrantorCli.FsCore
