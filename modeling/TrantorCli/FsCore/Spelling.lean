import TrantorCli.FsCore.Basic
import TrantorCli.Lib.UnixPath.Trailing

/-!
# Guards on how a name is spelled

What an operation may do to a name depends on how the name ends. The guards look
at the last bytes of a path; here each is what the marks at its end and the last
component of the bare path before them say.
-/

open Interaction UnixPath

namespace TrantorCli.FsCore

/-- The loop of `trailing_spelling`, over the bytes from the end. -/
def scanTrailing : List UInt8 → Bool → Bool → Bool × Bool
  | 47 :: rest, dot, _ => scanTrailing rest dot true
  | 46 :: 47 :: rest, _, slash => scanTrailing rest true slash
  | _, dot, slash => (dot, slash)

/-- `trailing_spelling` -/
def trailingSpelling (path : PathBuf) : PathBuf :=
  let (dot, slash) := scanTrailing path.reverse false false
  if dot then [47, 46] else if slash then [47] else []

/-- `ends_in_parent` -/
def endsInParent (path : PathBuf) : Bool :=
  [47, 46, 46].isSuffixOf (path.rdropWhile (· == 47))

/-- `names_directory` -/
def namesDirectory (path : PathBuf) : Bool :=
  [47].isSuffixOf path || [47, 46].isSuffixOf path

/-- `slashes_stripped` -/
def slashesStripped (path : PathBuf) : Option PathBuf :=
  if [47].isSuffixOf path then
    let name := path.dropLast.rdropWhile (· == 47)
    if name = [] ∨ [47, 46].isSuffixOf name ∨ name = [46] ∨ [47, 46, 46].isSuffixOf name ∨
        name = [46, 46] then none
    else some name
  else none

/-- A name as it is: it ends neither in `/` or `/.`, nor in `..`. -/
structure Plain (path : PathBuf) : Prop where
  noDirectory : namesDirectory path = false
  noParent : endsInParent path = false

/-- A name as it is, or with slashes at its end and nothing else. -/
def Slashed (path : PathBuf) : Prop := Plain path ∨ (slashesStripped path).isSome = true

/-- `unremovable` -/
def unremovable (why : String) : IoError := ⟨.unsupported, why⟩

/-- `refuse_trailing_dot` -/
def refuseTrailingDot (tg : Target) : Except IoError Unit :=
  if [47, 46].isSuffixOf (tg.path.rdropWhile (· == 47)) then
    .error (unremovable "a directory named through . cannot be removed")
  else .ok ()

/-- `refuse_confined_root` -/
def refuseConfinedRoot (tg : Target) : Except IoError Unit :=
  match tg with
  | .ambient _ => .ok ()
  | .beneath path =>
    if (components path).all (· == .curDir) then
      .error (unremovable "the confined root cannot be removed")
    else .ok ()

/-! ### The marks decide -/

/-- The marks `trailing_spelling` puts back for a run of marks. -/
def collapse (marks : List Mark) : List Mark :=
  if Mark.dot ∈ marks then [.dot] else if marks = [] then [] else [.slash]

/-- No dot is lost in collapsing. -/
theorem dot_mem_collapse {marks : List Mark} : Mark.dot ∈ collapse marks ↔ Mark.dot ∈ marks := by
  unfold collapse
  split
  · simpa
  · split <;> simp_all

/-- Only no marks collapse to none. -/
theorem collapse_eq_nil {marks : List Mark} : collapse marks = [] ↔ marks = [] := by
  unfold collapse
  split <;> rename_i h
  · simp only [List.cons_ne_self, false_iff]
    rintro rfl
    simp at h
  · split <;> simp_all

variable {path : PathBuf}

private theorem scanTrailing_bare (h : Bare path) (dot slash : Bool) :
    scanTrailing path.reverse dot slash = (dot, slash) := by
  unfold scanTrailing
  split
  · rename_i rest hrev
    exact absurd ⟨rest.reverse, by simpa using (congrArg List.reverse hrev).symm⟩ h.noSlash
  · rename_i rest hrev
    exact absurd ⟨rest.reverse, by simpa using (congrArg List.reverse hrev).symm⟩ h.noDot
  · rfl

private theorem scanTrailing_append_trail (h : Bare path) (marks : List Mark) (dot slash : Bool) :
    scanTrailing (path ++ trail marks).reverse dot slash =
      (dot || decide (Mark.dot ∈ marks), slash || decide (Mark.slash ∈ marks)) := by
  induction marks using List.reverseRecOn generalizing dot slash with
  | nil => simpa using scanTrailing_bare h dot slash
  | append_singleton marks mark ih =>
    cases mark with
    | slash =>
      have hrev : (path ++ trail (marks ++ [.slash])).reverse =
          47 :: (path ++ trail marks).reverse := by
        simp [Mark.bytes]
      rw [hrev, scanTrailing, ih]
      simp
    | dot =>
      have hrev : (path ++ trail (marks ++ [.dot])).reverse =
          46 :: 47 :: (path ++ trail marks).reverse := by
        simp [Mark.bytes]
      rw [hrev, scanTrailing, ih]
      simp

/-- `trailing_spelling` tells whether there is a mark, and whether one is `/.`. -/
theorem trailingSpelling_append_trail (h : Bare path) (marks : List Mark) :
    trailingSpelling (path ++ trail marks) = trail (collapse marks) := by
  rw [trailingSpelling, scanTrailing_append_trail h]
  simp only [Bool.false_or, decide_eq_true_eq, collapse]
  by_cases hdot : Mark.dot ∈ marks
  · simp [hdot, Mark.bytes]
  · have hslash : Mark.slash ∈ marks ↔ marks ≠ [] := by
      constructor
      · exact List.ne_nil_of_mem
      · intro hne
        obtain ⟨mark, rest, rfl⟩ := List.exists_cons_of_ne_nil hne
        cases mark with
        | slash => simp
        | dot => simp at hdot
    by_cases hnil : marks = []
    · simp [hnil]
    · simp [hdot, hnil, hslash, Mark.bytes]

private theorem bare_nil : Bare [] := ⟨by decide, by decide⟩

/-- What stands before a slash and a relative path does not change its trailing spelling. -/
theorem trailingSpelling_append_slash {rel : PathBuf} (hne : rel ≠ [])
    (hrel : isAbsolute rel = false) (before : PathBuf) :
    trailingSpelling (before ++ 47 :: rel) = trailingSpelling (47 :: rel) := by
  obtain ⟨bare, marks, hbare, hsplit⟩ := exists_bare (47 :: rel)
  rw [hsplit]
  by_cases hnil : bare = []
  · -- a relative path of marks starts with a `.`, and so has a `/.` mark here
    subst hnil
    have hdot : Mark.dot ∈ marks := by
      cases marks with
      | nil => simp at hsplit
      | cons mark marks =>
        cases mark with
        | dot => simp
        | slash =>
          have hmarks : rel = trail marks := by simpa [Mark.bytes] using hsplit
          cases marks with
          | nil => exact absurd hmarks hne
          | cons mark marks =>
            obtain ⟨rest, hrest, -⟩ := mark.exists_bytes
            rw [hmarks, trail_cons, hrest] at hrel
            exact absurd hrel (by simp [isAbsolute])
    obtain ⟨front, marks', hfront, rfl⟩ := exists_bare before
    have hall :
        front ++ trail marks' ++ ([] ++ trail marks) = front ++ trail (marks' ++ marks) := by
      simp [trail]
    rw [hall, trailingSpelling_append_trail hfront, trailingSpelling_append_trail bare_nil]
    simp [collapse, hdot]
  · have hlong : [47, 46].length ≤ bare.length := by
      obtain ⟨b, tail, rfl⟩ := List.exists_cons_of_ne_nil hnil
      cases tail with
      | cons _ _ => simp
      | nil =>
        simp only [List.singleton_append, List.cons.injEq] at hsplit
        exact absurd (List.suffix_refl _) (hsplit.1 ▸ hbare.noSlash)
    have hbefore : Bare (before ++ bare) := by
      constructor
      · intro hsuffix
        exact hbare.noSlash (List.suffix_of_suffix_length_le hsuffix (List.suffix_append _ _)
          (List.length_pos_iff.mpr hnil))
      · intro hsuffix
        exact hbare.noDot (List.suffix_of_suffix_length_le hsuffix (List.suffix_append _ _) hlong)
    rw [← List.append_assoc, trailingSpelling_append_trail hbefore,
      trailingSpelling_append_trail hbare]

/-- A name names a directory when it ends in a mark. -/
theorem namesDirectory_append_trail (h : Bare path) (marks : List Mark) :
    namesDirectory (path ++ trail marks) = true ↔ marks ≠ [] := by
  rw [namesDirectory, Bool.or_eq_true, List.isSuffixOf_iff_suffix, List.isSuffixOf_iff_suffix]
  rcases List.eq_nil_or_concat marks with rfl | ⟨init, mark, rfl⟩
  · simpa using ⟨h.noSlash, h.noDot⟩
  · have hend : mark.bytes <:+ path ++ trail (init.concat mark) := by
      rw [List.concat_eq_append, trail_concat, ← List.append_assoc]
      exact List.suffix_append _ _
    have hends : [47] <:+ path ++ trail (init.concat mark) ∨
        [47, 46] <:+ path ++ trail (init.concat mark) := by
      cases mark with
      | slash => exact .inl hend
      | dot => exact .inr hend
    simpa using hends

/-- A name is refused for its `.` when one of its marks is `/.`. -/
theorem refuseTrailingDot_eq_ok (h : Bare path) (marks : List Mark) {tg : Target}
    (htg : tg.path = path ++ trail marks) :
    refuseTrailingDot tg = .ok () ↔ Mark.dot ∉ marks := by
  rw [refuseTrailingDot, htg, h.rdropWhile_slash]
  by_cases hdot : Mark.dot ∈ marks
  · have hsuffix := dot_suffix_of_rdropWhile hdot path
    rw [if_pos (List.isSuffixOf_iff_suffix.mpr hsuffix)]
    simp [hdot]
  · rw [rdropWhile_slash_eq_nil_iff.mpr hdot, trail_nil, List.append_nil,
      if_neg (by simpa using h.noDot)]
    simp [hdot]

/-- A name is seen to end in `..` when its marks are slashes and a slash stands before the `..`. -/
theorem endsInParent_append_trail (h : Bare path) (marks : List Mark) :
    endsInParent (path ++ trail marks) = true ↔ Mark.dot ∉ marks ∧ [47, 46, 46] <:+ path := by
  rw [endsInParent, List.isSuffixOf_iff_suffix, h.rdropWhile_slash]
  by_cases hdot : Mark.dot ∈ marks
  · obtain ⟨front, hfront⟩ := dot_suffix_of_rdropWhile hdot path
    simp only [hdot, not_true_eq_false, false_and, iff_false, ← hfront]
    rintro ⟨front', hfront'⟩
    have hlast := congrArg (fun bytes => bytes.reverse.take 2) hfront'
    simp at hlast
  · rw [rdropWhile_slash_eq_nil_iff.mpr hdot, trail_nil, List.append_nil]
    simp [hdot]

/-- The slashes of a name can be taken off when they are all its marks and the name before them is
neither empty, nor `.`, nor ends in `..`. -/
theorem slashesStripped_append_trail (h : Bare path) (marks : List Mark) :
    slashesStripped (path ++ trail marks) =
      if marks ≠ [] ∧ Mark.dot ∉ marks ∧ path ≠ [] ∧ path ≠ [46] ∧
          (body path).getLast? ≠ some .parentDir then some path
      else none := by
  rcases List.eq_nil_or_concat marks with rfl | ⟨init, mark, rfl⟩
  · have hno : ¬[47].isSuffixOf path = true := by simpa using h.noSlash
    simp [slashesStripped, hno]
  cases mark with
  | dot =>
    have hno : ¬[47].isSuffixOf (path ++ trail (init.concat .dot)) = true := by
      rw [List.isSuffixOf_iff_suffix, List.concat_eq_append, trail_concat, ← List.append_assoc]
      rintro ⟨front, hfront⟩
      have hlast := congrArg List.getLast? hfront
      simp [Mark.bytes] at hlast
    rw [slashesStripped, if_neg hno]
    simp
  | slash =>
    have hpath : path ++ trail (init.concat .slash) = (path ++ trail init) ++ [47] := by
      simp [Mark.bytes]
    rw [slashesStripped, hpath, if_pos (List.isSuffixOf_iff_suffix.mpr (List.suffix_append _ _)),
      List.dropLast_concat, h.rdropWhile_slash]
    by_cases hdot : Mark.dot ∈ init
    · have hsuffix := List.isSuffixOf_iff_suffix.mpr (dot_suffix_of_rdropWhile hdot path)
      simp [hdot, hsuffix]
    · have hnoDot : ¬[47, 46].isSuffixOf path = true := by simpa using h.noDot
      have hparent := h.ends_in_parent_iff
      have hroot : (path = [] ∨ path = [46]) ∨ path ≠ [] ∧ path ≠ [46] := by tauto
      rw [rdropWhile_slash_eq_nil_iff.mpr hdot, trail_nil, List.append_nil]
      simp only [List.isSuffixOf_iff_suffix] at hnoDot ⊢
      rcases hroot with hroot | hroot
      · rw [if_pos (by tauto), if_neg (by tauto)]
      · by_cases hlast : (body path).getLast? = some .parentDir
        · have hends := hparent.mpr hlast
          rw [if_pos (by tauto), if_neg (by tauto)]
        · have hends := mt hparent.mp hlast
          rw [if_neg (by tauto), if_pos ⟨by simp, by simp [hdot], hroot.1, hroot.2, hlast⟩]

/-- What slashes are taken off is left as it is. -/
theorem plain_of_slashesStripped {name : PathBuf} (h : slashesStripped path = some name) :
    Plain name := by
  obtain ⟨bare, marks, hbare, rfl⟩ := exists_bare path
  rw [slashesStripped_append_trail hbare] at h
  split at h
  · rename_i hslashes
    obtain rfl : bare = name := Option.some.inj h
    have hdirectory := namesDirectory_append_trail hbare []
    have hparent := endsInParent_append_trail hbare []
    have hends := hbare.ends_in_parent_iff
    rw [trail_nil, List.append_nil] at hdirectory hparent
    constructor
    · simpa using hdirectory
    · rw [← Bool.not_eq_true, hparent]
      rintro ⟨-, hsuffix⟩
      exact hslashes.2.2.2.2 (hends.mp (.inr hsuffix))
  · cases h

end TrantorCli.FsCore
