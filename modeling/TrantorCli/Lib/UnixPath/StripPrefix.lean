import TrantorCli.Lib.UnixPath.Trailing

/-!
# Taking a prefix off a path

`stripPrefix` compares components and keeps the bytes of what is left, without
the empty pieces and the `.` pieces at either end: slashes and dots inside stay
as they were spelled, a trailing spelling is lost.
-/

namespace UnixPath

/-- The piece contributes nothing. -/
def isBlank (piece : List UInt8) : Bool := (ofPiece piece).isNone

/-- Drops the pieces that spell the components `parts`, and the blank ones before each of them. -/
def dropComponents (parts : List Component) (pieces : List (List UInt8)) :
    Option (List (List UInt8)) :=
  match parts with
  | [] => some pieces
  | part :: parts =>
    match pieces.dropWhile isBlank with
    | [] => none
    | piece :: rest => if ofPiece piece = some part then dropComponents parts rest else none

/-- Drops the blank pieces at both ends. -/
def trim (pieces : List (List UInt8)) : List (List UInt8) :=
  (pieces.dropWhile isBlank).rdropWhile isBlank

/-- What `path` has after the components of `base`. -/
def stripPrefix (path : PathBuf) (base : AbsPath) : Option PathBuf :=
  if isAbsolute path then
    (dropComponents (body base.bytes) (path.splitOn 47)).map fun rest =>
      [47].intercalate (trim rest)
  else none

/-- `path` spells the inner components `parts` without a leading or trailing mark. -/
structure Spells (path : PathBuf) (parts : List Component) : Prop where
  bare : Bare path
  relative : isAbsolute path = false
  components : components path = parts
  body : body path = parts
  nil_iff : path = [] ↔ parts = []

private theorem spells_nil : Spells [] [] := by
  refine ⟨⟨by decide, by decide⟩, by decide, by decide, by decide, by simp⟩

/-! ### Pieces -/

private theorem filterMap_dropWhile_isBlank (pieces : List (List UInt8)) :
    (pieces.dropWhile isBlank).filterMap ofPiece = pieces.filterMap ofPiece := by
  induction pieces with
  | nil => rfl
  | cons piece pieces ih =>
    cases hpiece : ofPiece piece with
    | none =>
      have hblank : isBlank piece = true := by simp [isBlank, hpiece]
      rw [List.dropWhile_cons_of_pos hblank, ih, List.filterMap_cons_none hpiece]
    | some part =>
      have hblank : ¬isBlank piece = true := by simp [isBlank, hpiece]
      rw [List.dropWhile_cons_of_neg hblank]

private theorem filterMap_trim (pieces : List (List UInt8)) :
    (trim pieces).filterMap ofPiece = pieces.filterMap ofPiece := by
  have hright : ∀ pieces : List (List UInt8),
      (pieces.rdropWhile isBlank).filterMap ofPiece = pieces.filterMap ofPiece := by
    intro pieces
    rw [List.rdropWhile, List.filterMap_reverse, filterMap_dropWhile_isBlank,
      List.filterMap_reverse, List.reverse_reverse]
  rw [trim, hright, filterMap_dropWhile_isBlank]

/-- Pieces are dropped exactly when their components start with the given ones. -/
theorem dropComponents_eq_some {parts : List Component} {pieces rest : List (List UInt8)}
    (h : dropComponents parts pieces = some rest) :
    rest <:+ pieces ∧ pieces.filterMap ofPiece = parts ++ rest.filterMap ofPiece := by
  induction parts generalizing pieces with
  | nil => simp [Option.some_inj.mp h]
  | cons part parts ih =>
    rw [dropComponents] at h
    have hsuffix : pieces.dropWhile isBlank <:+ pieces := List.dropWhile_suffix _
    rw [← filterMap_dropWhile_isBlank pieces]
    cases hdrop : pieces.dropWhile isBlank with
    | nil => simp [hdrop] at h
    | cons piece tail =>
      rw [hdrop] at h hsuffix
      simp only at h
      split at h
      · rename_i hpiece
        obtain ⟨htail, hparts⟩ := ih h
        refine ⟨(htail.trans (List.suffix_cons _ _)).trans hsuffix, ?_⟩
        rw [List.filterMap_cons_some hpiece, hparts, List.cons_append]
      · exact absurd h (by simp)

private theorem exists_dropComponents {parts tail : List Component} {pieces : List (List UInt8)}
    (h : pieces.filterMap ofPiece = parts ++ tail) :
    ∃ rest, dropComponents parts pieces = some rest := by
  induction parts generalizing pieces with
  | nil => exact ⟨pieces, rfl⟩
  | cons part parts ih =>
    rw [← filterMap_dropWhile_isBlank] at h
    rw [dropComponents]
    cases hdrop : pieces.dropWhile isBlank with
    | nil => simp [hdrop] at h
    | cons piece rest =>
      have hblank : isBlank piece = false := by
        simpa [hdrop] using List.head?_dropWhile_not isBlank pieces
      rw [isBlank, Option.isNone_eq_false_iff, Option.isSome_iff_exists] at hblank
      obtain ⟨first, hfirst⟩ := hblank
      rw [hdrop, List.filterMap_cons_some hfirst, List.cons_append, List.cons.injEq] at h
      obtain ⟨rest', hrest'⟩ := ih h.2
      refine ⟨rest', ?_⟩
      simp only
      rw [if_pos (by rw [hfirst, h.1]), hrest']

/-- What is left after trimming has no blank piece at either end. -/
theorem trim_ends {pieces : List (List UInt8)} (h : trim pieces ≠ []) :
    isBlank ((trim pieces).head h) = false ∧ isBlank ((trim pieces).getLast h) = false := by
  have hbegins : trim pieces <+: pieces.dropWhile isBlank := List.rdropWhile_prefix _ _
  have hne : pieces.dropWhile isBlank ≠ [] := by
    intro hnil
    rw [hnil] at hbegins
    exact h (List.prefix_nil.mp hbegins)
  constructor
  · rw [hbegins.head h]
    exact List.head_dropWhile_not _ hne
  · rw [← Bool.not_eq_true]
    exact List.rdropWhile_last_not _ _ h

private theorem isBlank_iff {piece : List UInt8} :
    isBlank piece = true ↔ piece = [] ∨ piece = [46] := by
  rw [isBlank, Option.isNone_iff_eq_none, ofPiece_eq_none]

/-- Pieces without a slash and without a blank end, joined, spell their components. -/
theorem spells_intercalate {pieces : List (List UInt8)} (hne : pieces ≠ [])
    (hslash : ∀ piece ∈ pieces, (47 : UInt8) ∉ piece) (hhead : isBlank (pieces.head hne) = false)
    (hlast : isBlank (pieces.getLast hne) = false) :
    Spells ([47].intercalate pieces) (pieces.filterMap ofPiece) := by
  have hsplit : ([47].intercalate pieces).splitOn 47 = pieces :=
    List.splitOn_intercalate 47 hslash hne
  have hbody : body ([47].intercalate pieces) = pieces.filterMap ofPiece := by
    rw [UnixPath.body, hsplit]
  obtain ⟨first, rest, rfl⟩ := List.exists_cons_of_ne_nil hne
  rw [List.head_cons, ← Bool.not_eq_true, isBlank_iff, not_or] at hhead
  obtain ⟨b, first, rfl⟩ := List.exists_cons_of_ne_nil hhead.1
  have hb : b ≠ 47 := by
    rintro rfl
    exact hslash (47 :: first) (by simp) (by simp)
  obtain ⟨after, hjoin⟩ : ∃ after, [47].intercalate ((b :: first) :: rest) = b :: after := by
    by_cases hrest : rest = []
    · exact ⟨first, by rw [hrest, List.intercalate_singleton]⟩
    · exact ⟨first ++ ([47] ++ [47].intercalate rest), by
        rw [List.intercalate_cons_of_ne_nil hrest, List.append_assoc, List.cons_append]⟩
  have hrelative : isAbsolute ([47].intercalate ((b :: first) :: rest)) = false := by
    rw [hjoin, ← Bool.not_eq_true, isAbsolute_cons]
    exact hb
  have hstart : startsInCurDir ([47].intercalate ((b :: first) :: rest)) = false := by
    rw [startsInCurDir, hsplit, List.head?_cons, beq_eq_false_iff_ne, Ne, Option.some_inj]
    exact hhead.2
  have hparts : ((b :: first) :: rest).filterMap ofPiece ≠ [] := by
    obtain ⟨part, hpart⟩ := Option.ne_none_iff_exists'.mp
      (mt ofPiece_eq_none.mp (not_or.mpr hhead))
    rw [List.filterMap_cons_some hpart]
    exact List.cons_ne_nil _ _
  refine ⟨?_, hrelative, ?_, hbody, ?_⟩
  · -- the last piece is an inner component
    rw [← Bool.not_eq_true, isBlank_iff, not_or] at hlast
    obtain ⟨part, hpart, hbytes⟩ := exists_inner (hslash _ (List.getLast_mem hne)) hlast.1 hlast.2
    rw [← List.dropLast_append_getLast hne, ← hbytes]
    by_cases hinit : ((b :: first) :: rest).dropLast = []
    · simpa [hinit, List.intercalate_singleton] using hpart.bare []
    · rw [SplitOn.intercalate_concat hinit]
      exact hpart.bare _
  · rw [components, hrelative, hstart, hbody]
    rfl
  · simp only [hparts, iff_false, hjoin]
    exact List.cons_ne_nil _ _

/-- Pieces without a slash, trimmed and joined, spell their components. -/
theorem spells_trim {pieces : List (List UInt8)} (h : ∀ piece ∈ pieces, (47 : UInt8) ∉ piece) :
    Spells ([47].intercalate (trim pieces)) (pieces.filterMap ofPiece) := by
  rw [← filterMap_trim]
  by_cases hne : trim pieces = []
  · rw [hne]
    exact spells_nil
  · have hsubset : trim pieces ⊆ pieces :=
      ((List.rdropWhile_prefix _ _).sublist.trans (List.dropWhile_sublist _)).subset
    exact spells_intercalate hne (fun piece hpiece => h piece (hsubset hpiece))
      (trim_ends hne).1 (trim_ends hne).2

/-! ### Prefixes -/

/-- A prefix is taken off only where the components start with it. -/
theorem stripPrefix_eq_some {path rel : PathBuf} {base : AbsPath}
    (h : stripPrefix path base = some rel) :
    ∃ parts, components path = components base.bytes ++ parts ∧ Spells rel parts := by
  unfold stripPrefix at h
  split at h
  · rename_i habs
    obtain ⟨rest, hrest, rfl⟩ := Option.map_eq_some_iff.mp h
    obtain ⟨hsuffix, hparts⟩ := dropComponents_eq_some hrest
    refine ⟨rest.filterMap ofPiece, ?_, ?_⟩
    · rw [components_eq_append_iff habs base.absolute, body, hparts]
    · exact spells_trim fun piece hpiece => SplitOn.not_mem_of_mem (hsuffix.subset hpiece)
  · exact absurd h (by simp)

/-- Where the components of a path start with a prefix, it is taken off and the rest is left. -/
theorem exists_stripPrefix {path : PathBuf} {base : AbsPath} {parts : List Component}
    (habs : isAbsolute path = true) (h : components path = components base.bytes ++ parts) :
    ∃ rel, stripPrefix path base = some rel ∧ Spells rel parts := by
  have hbody : body path = body base.bytes ++ parts :=
    (components_eq_append_iff habs base.absolute).mp h
  obtain ⟨rest, hrest⟩ : ∃ rest, dropComponents (UnixPath.body base.bytes) (path.splitOn 47) =
      some rest := exists_dropComponents hbody
  have hsome : stripPrefix path base = some ([47].intercalate (trim rest)) := by
    rw [stripPrefix, if_pos habs, hrest, Option.map_some]
  obtain ⟨parts', hparts', hspells⟩ := stripPrefix_eq_some hsome
  rw [h, List.append_cancel_left_eq] at hparts'
  exact ⟨_, hsome, hparts' ▸ hspells⟩

/-! ### Rebuilt paths -/

/-- An inner component spells itself. -/
theorem Component.Inner.spells {part : Component} (h : part.Inner) : Spells part.bytes [part] := by
  have hblank : isBlank part.bytes = false := by simp [isBlank, h.piece]
  have hspells : Spells ([47].intercalate [part.bytes]) ([part.bytes].filterMap ofPiece) :=
    spells_intercalate (by simp) (by simpa using h.noSlash) hblank hblank
  rwa [List.intercalate_singleton, List.filterMap_cons_some h.piece, List.filterMap_nil] at hspells

/-- What spells components begins with no dot. -/
theorem Spells.startsInCurDir {path : PathBuf} {parts : List Component} (h : Spells path parts) :
    startsInCurDir path = false := by
  have hcomponents := h.components.trans h.body.symm
  unfold UnixPath.components at hcomponents
  rw [h.relative] at hcomponents
  by_contra hstart
  rw [Bool.not_eq_false] at hstart
  simp [hstart] at hcomponents

/-- One more inner component. -/
theorem Spells.join {path : PathBuf} {parts : List Component} {part : Component}
    (h : Spells path parts) (hpart : part.Inner) :
    Spells (join path part.bytes) (parts ++ [part]) := by
  by_cases hnil : path = []
  · obtain rfl := h.nil_iff.mp hnil
    have hjoin : UnixPath.join path part.bytes = part.bytes := by
      simp [UnixPath.join, hpart.relative, hnil]
    rw [hjoin]
    exact hpart.spells
  have hjoin : UnixPath.join path part.bytes = path ++ 47 :: part.bytes := by
    rcases join_of_relative hpart.relative path with ⟨-, hnil'⟩ | ⟨init, hjoin, -, rfl | rfl⟩
    · exact absurd hnil' hnil
    · exact hjoin
    · exact absurd (List.suffix_append _ _) h.bare.noSlash
  rw [hjoin]
  have hrelative : isAbsolute (path ++ 47 :: part.bytes) = false := by
    rw [isAbsolute_append hnil, h.relative]
  have hbody : UnixPath.body (path ++ 47 :: part.bytes) = parts ++ [part] := by
    rw [body_append_slash, h.body, hpart.body_bytes]
  refine ⟨?_, hrelative, ?_, hbody, by simp⟩
  · rw [← List.singleton_append, ← List.append_assoc]
    exact hpart.bare _
  · rw [UnixPath.components, hrelative, startsInCurDir_append_slash, h.startsInCurDir, hbody]
    rfl

/-- A path rebuilt from inner components spells them. -/
theorem spells_ofComponents {parts : List Component} (h : ∀ part ∈ parts, part.Inner) :
    Spells (ofComponents parts) parts := by
  induction parts using List.reverseRecOn with
  | nil => exact spells_nil
  | append_singleton parts part ih =>
    rw [ofComponents_concat]
    exact (ih fun p hp => h p (by simp [hp])).join (h part (by simp))

/-! ### Where a spelled path ends in `..` -/

/-- A relative path that is not empty and does not start with `.` has a component. -/
theorem body_ne_nil {path : PathBuf} (hne : path ≠ []) (hrel : isAbsolute path = false)
    (hstart : startsInCurDir path = false) : body path ≠ [] := by
  by_cases hmem : (47 : UInt8) ∈ path
  · obtain ⟨first, after, rfl, hfirst⟩ := List.eq_append_cons_of_mem hmem
    have hfirstNe : first ≠ [] := by
      rintro rfl
      simp [isAbsolute] at hrel
    have hfirstDot : first ≠ [46] := by
      rintro rfl
      rw [startsInCurDir_append_slash] at hstart
      exact absurd hstart (by decide)
    obtain ⟨part, hpart, rfl⟩ := exists_inner hfirst hfirstNe hfirstDot
    rw [body_append_slash, hpart.body_bytes]
    simp
  · have hdot : path ≠ [46] := by
      rintro rfl
      exact absurd hstart (by decide)
    obtain ⟨part, hpart, rfl⟩ := exists_inner hmem hne hdot
    simp [hpart.body_bytes]

/-- A path that spells components ending in `..` has a slash before the `..`, unless it is just
`..`. -/
theorem Spells.parent_suffix_iff {path : PathBuf} {parts : List Component} (h : Spells path parts)
    (hlast : parts.getLast? = some .parentDir) :
    [47, 46, 46] <:+ path ↔ parts ≠ [.parentDir] := by
  constructor
  · rintro ⟨before, rfl⟩ rfl
    have hrel : isAbsolute before = false ∧ before ≠ [] := by
      by_cases hbefore : before = []
      · subst hbefore
        exact absurd h.relative (by decide)
      · exact ⟨(isAbsolute_append hbefore _).symm.trans h.relative, hbefore⟩
    have hstart := h.startsInCurDir
    have hbody := h.body
    rw [body_append_slash] at hbody
    rw [startsInCurDir_append_slash] at hstart
    have hlength := congrArg List.length hbody
    have hlength' := List.length_pos_iff.mpr (body_ne_nil hrel.2 hrel.1 hstart)
    have hparent : UnixPath.body [46, 46] = [.parentDir] := by decide
    simp [hparent] at hlength
    exact absurd hlength (List.length_pos_iff.mp hlength')
  · intro hne
    refine (h.bare.ends_in_parent_iff.mpr (h.body ▸ hlast)).resolve_left ?_
    rintro rfl
    exact hne (h.body.symm.trans (by decide))

end UnixPath
