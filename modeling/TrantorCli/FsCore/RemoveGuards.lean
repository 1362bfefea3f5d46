import TrantorCli.FsCore.Remove

/-!
# What the guards owe a name

A directory named through `..` or `.` is refused on every root, but for one name. The
guard for `..` looks for a slash before it, and beneath a confined root one name has
none: the root's own parent.
-/

open Interaction UnixPath

namespace TrantorCli.FsCore

variable {os : Os} {r : Root} {d : Desc} {path : PathBuf} {tg : Target}

/-- What the two operations owe a path by its last name. -/
def RefusesDots (os : Os) (r : Root) (d : Desc) (path : PathBuf) : Prop :=
  (lastName path = [46, 46] → Refused os (removeDirAt r d path) ∧
    Refused os (removeDirAllAt r d path)) ∧
  (lastName path = [46] → Refused os (removeDirAllAt r d path))

/-- An unconfined root owes nothing to the guards: the candidate is absolute, so a slash stands
before its `..`. -/
theorem refusesDots_unconfined {base : AbsPath} {dir : PathBuf} (hdir : isAbsolute dir = true)
    (hpath : path ≠ [])
    (htg : Fallible.eval os (resolveAt (.unconfined base) d path) =
      .ok (.ambient (candidate dir path))) :
    RefusesDots os (.unconfined base) d path := by
  obtain ⟨bare, marks, hbare, hcand⟩ := exists_bare (candidate dir path)
  have habs := isAbsolute_candidate hdir path
  have hnot : ∀ name : PathBuf, name ≠ [] → isAbsolute name = false → bare ≠ name := by
    rintro name hne hname rfl
    rw [hcand, isAbsolute_append hne] at habs
    exact absurd habs (by simp [hname])
  obtain ⟨hdotName, hparentName⟩ := lastName_append_trail hbare marks
  rw [← hcand, lastName_candidate hdir hpath] at hdotName hparentName
  rw [hcand] at htg
  constructor
  · intro hlast
    obtain ⟨hdot, hend⟩ := hparentName.mp hlast
    refine refused_of_parent htg ?_ ?_ rfl
    · exact (endsInParent_append_trail hbare marks).mpr
        ⟨hdot, hend.resolve_left (hnot _ (by simp) (by decide))⟩
    · exact (refuseTrailingDot_eq_ok hbare marks rfl).mpr hdot
  · intro hlast
    have hdot : Mark.dot ∈ marks :=
      (hdotName.mp hlast).resolve_right (hnot _ (by simp) (by decide))
    exact refused_of_dot htg
      (mt (refuseTrailingDot_eq_ok hbare marks rfl).mp (not_not.mpr hdot))

/-- What is known of a target beneath a confined root, where `rest` are the components below it. -/
structure BeneathTarget (os : Os) (base : PlainPath) (cand : PathBuf) (rest : List Component)
    (tg : Target) : Prop where
  root : ∃ before, RootPrefix os base.toAbsPath cand before ∧ components cand = before ++ rest
  path : ∃ kept, Spells kept rest ∧
    tg = .beneath ((if kept = [] then [46] else kept) ++ trailingSpelling cand)

/-- A candidate whose last name is `..` has `..` as its last component below the root. -/
theorem last_below_root {os : Os} {base : PlainPath} {bare : PathBuf} {marks : List Mark}
    {before rest : List Component} (hbare : Bare bare)
    (habs : isAbsolute (bare ++ trail marks) = true)
    (hroot : RootPrefix os base.toAbsPath (bare ++ trail marks) before)
    (hparts : components (bare ++ trail marks) = before ++ rest)
    (hend : bare = [46, 46] ∨ [47, 46, 46] <:+ bare) : rest.getLast? = some .parentDir := by
  have hlast : (body bare).getLast? = some .parentDir := hbare.ends_in_parent_iff.mp hend
  have hwhole : (before ++ rest).getLast? = some .parentDir := by
    rw [← hparts, components_of_isAbsolute habs, body_append_trail, List.getLast?_cons, hlast]
    rfl
  by_cases hrest : rest = []
  · rw [hrest, List.append_nil] at hwhole
    exact absurd (List.mem_of_getLast? hwhole) hroot.plain
  · rwa [List.getLast?_append_of_ne_nil _ hrest] at hwhole

/-- Beneath a confined root the guards see the last name, except where the components below the
root are `..` alone. -/
theorem refusesDots_confined {base : PlainPath} {dir : PathBuf} {rest : List Component}
    (hdir : isAbsolute dir = true) (hpath : path ≠ [])
    (htg : Fallible.eval os (resolveAt (.confined (.ok base)) d path) = .ok tg)
    (hbeneath : BeneathTarget os base (candidate dir path) rest tg) :
    RefusesDots os (.confined (.ok base)) d path ↔
      ¬(lastName path = [46, 46] ∧ rest = [.parentDir]) := by
  obtain ⟨bare, marks, hbare, hcand⟩ := exists_bare (candidate dir path)
  have habs := isAbsolute_candidate hdir path
  obtain ⟨⟨before, hroot, hparts⟩, kept, hspells, hpathTg⟩ := hbeneath
  obtain ⟨hdotName, hparentName⟩ := lastName_append_trail hbare marks
  rw [← hcand, lastName_candidate hdir hpath] at hdotName hparentName
  rw [hcand] at habs hroot hparts
  rw [hcand, trailingSpelling_append_trail hbare] at hpathTg
  -- what follows from a last name `..`
  have hparent : lastName path = [46, 46] → Mark.dot ∉ collapse marks ∧ kept ≠ [] ∧
      rest.getLast? = some .parentDir ∧ refuseConfinedRoot tg = .ok () := by
    intro hlast
    obtain ⟨hdot, hend⟩ := hparentName.mp hlast
    have hrest := last_below_root hbare habs hroot hparts hend
    have hkept : kept ≠ [] := by
      intro hnil
      rw [hspells.nil_iff.mp hnil] at hrest
      exact absurd hrest (by simp)
    refine ⟨mt dot_mem_collapse.mp hdot, hkept, hrest, ?_⟩
    rw [hpathTg, if_neg hkept, refuseConfinedRoot, components_append_trail hkept,
      hspells.components, if_neg]
    intro hall
    exact absurd (List.all_eq_true.mp hall _ (List.mem_of_getLast? hrest)) (by decide)
  constructor
  · rintro hrefuses ⟨hlast, hrest⟩
    obtain ⟨hdot, hkept, hlastRest, hconfined⟩ := hparent hlast
    rw [if_neg hkept] at hpathTg
    have hnoSlash : ¬[47, 46, 46] <:+ kept := fun h =>
      (hspells.parent_suffix_iff hlastRest).mp h hrest
    have hplain : Call.removeDir tg ∈ Fallible.trace os (removeDirAt _ d path) :=
      (removed_of_plain htg
        (by rw [hpathTg, ← Bool.not_eq_true]
            exact mt (endsInParent_append_trail hspells.bare _).mp fun h => hnoSlash h.2)
        (by rw [hpathTg]
            exact (slashesStripped_append_trail hspells.bare _).trans
              (if_neg fun h => h.2.2.2.2 (hspells.body ▸ hlastRest)))
        ((refuseTrailingDot_eq_ok hspells.bare _ (by rw [hpathTg]; rfl)).mpr hdot) hconfined).1
    exact absurd ((hrefuses.1 hlast).1.untouched _ hplain) (by simp [Call.removes])
  · intro hnot
    constructor
    · intro hlast
      obtain ⟨hdot, hkept, hlastRest, hconfined⟩ := hparent hlast
      rw [if_neg hkept] at hpathTg
      refine refused_of_parent htg ?_ ?_ hconfined
      · rw [hpathTg]
        exact (endsInParent_append_trail hspells.bare _).mpr
          ⟨hdot, (hspells.parent_suffix_iff hlastRest).mpr fun hrest => hnot ⟨hlast, hrest⟩⟩
      · exact (refuseTrailingDot_eq_ok hspells.bare _ (by rw [hpathTg]; rfl)).mpr hdot
    · intro hlast
      have hbareDot : bare ≠ [46] := by
        rintro rfl
        rw [isAbsolute_append (by simp)] at habs
        exact absurd habs (by decide)
      have hdot : Mark.dot ∈ collapse marks :=
        dot_mem_collapse.mpr ((hdotName.mp hlast).resolve_right hbareDot)
      have hshown : Bare (if kept = [] then [46] else kept) := by
        split
        · exact ⟨by decide, by decide⟩
        · exact hspells.bare
      refine refused_of_dot htg (mt (refuseTrailingDot_eq_ok hshown (collapse marks) ?_).mp
        (not_not.mpr hdot))
      rw [hpathTg]
      rfl

/-- The parts of a path that resolves. -/
theorem eval_resolveAt (htg : Fallible.eval os (resolveAt r d path) = .ok tg) :
    ∃ dir, dirOf r d = .ok dir ∧ Fallible.eval os (resolve r dir path) = .ok tg := by
  rw [resolveAt, eval_withPath] at htg
  obtain ⟨tg', htg', hdone⟩ := Roc.Try.bind_eq_ok.mp htg
  rw [Fallible.eval_pure, Except.ok.injEq] at hdone
  exact Roc.Try.bind_eq_ok.mp (hdone ▸ htg')

/-- Removal through `..` or `.` is refused before anything is touched, on both backends, unless the
path leads to a confined root and up by one `..`. -/
theorem refusesDots_iff (os : Os) (r : Root) (d : Desc) (hd : DirDescriptor r d) (path : PathBuf)
    (hpath : path ≠ []) (tg : Target) (htg : Fallible.eval os (resolveAt r d path) = .ok tg) :
    RefusesDots os r d path ↔ ¬(lastName path = [46, 46] ∧ LeadsAboveRoot os r d path) := by
  obtain ⟨dir, hdir, hresolve⟩ := eval_resolveAt htg
  have hbeneath : Beneath r dir := hd.beneath hdir
  cases r with
  | unconfined base =>
    rw [resolve_unconfined hpath, Fallible.eval_pure, Except.ok.injEq] at hresolve
    have hrefuses := refusesDots_unconfined hbeneath.absolute hpath (hresolve ▸ htg)
    refine iff_of_true hrefuses ?_
    rintro ⟨-, _, _, _, hconfined, -⟩
    exact absurd hconfined (by simp)
  | confined opened =>
    cases opened with
    | error e =>
      rw [resolve_failed hpath, Fallible.eval_throw] at hresolve
      exact absurd hresolve (by simp)
    | ok base =>
      rw [resolve_confined hpath, Fallible.eval_bind] at hresolve
      obtain ⟨rel, hrel, hdone⟩ := Roc.Try.bind_eq_ok.mp hresolve
      rw [Fallible.eval_pure, Except.ok.injEq] at hdone
      have habs := isAbsolute_candidate hbeneath.absolute path
      obtain ⟨before, rest, kept, hroot, hparts, hspells, hshape⟩ :=
        exists_of_eval_relativeToRoot habs hrel
      have htarget : BeneathTarget os base (candidate dir path) rest tg :=
        ⟨⟨before, hroot, hparts⟩, kept, hspells, by rw [← hdone, hshape]⟩
      rw [refusesDots_confined hbeneath.absolute hpath htg htarget, not_iff_not]
      refine and_congr_right fun _ => ?_
      constructor
      · rintro rfl
        exact ⟨base, dir, before, rfl, hdir, hroot, hparts⟩
      · rintro ⟨base', dir', before', hbase', hdir', hroot', hparts'⟩
        obtain rfl : base = base' := by simpa using hbase'
        obtain rfl : dir = dir' := by simpa [hdir] using hdir'
        obtain ⟨rest₁, hrest₁, hspells₁⟩ := eval_restOfRoot habs hroot hparts
        obtain ⟨rest₂, hrest₂, hspells₂⟩ := eval_restOfRoot habs hroot' hparts'
        rw [hrest₁, Except.ok.injEq] at hrest₂
        rw [← hspells₁.components, hrest₂, hspells₂.components]

/-- `a/..` at the confined root is refused, since a slash stands before its `..`. -/
theorem refusesDots_iff_example :
    RefusesDots linkOs (.confined (.ok ⟨⟨[47, 114], by decide⟩, by decide⟩)) .root
        [97, 47, 46, 46] ↔
      ¬(lastName [97, 47, 46, 46] = [46, 46] ∧ LeadsAboveRoot linkOs
        (.confined (.ok ⟨⟨[47, 114], by decide⟩, by decide⟩)) .root [97, 47, 46, 46]) :=
  refusesDots_iff linkOs _ .root .preopen _ (by decide) (.beneath [97, 47, 46, 46])
    (by decide +kernel)

/-- `..` at the confined root is not refused: both operations hand it to the backend. -/
theorem not_refusesDots_parent :
    ∃ (os : Os) (r : Root) (d : Desc) (path : PathBuf) (tg : Target), DirDescriptor r d ∧
      path ≠ [] ∧ Fallible.eval os (resolveAt r d path) = .ok tg ∧ lastName path = [46, 46] ∧
      Call.removeDir tg ∈ Fallible.trace os (removeDirAt r d path) ∧
      Call.removeDirAll tg ∈ Fallible.trace os (removeDirAllAt r d path) ∧
      ¬RefusesDots os r d path := by
  have hresolve : Fallible.eval linkOs (resolveAt (.confined (.ok ⟨⟨[47, 114], by decide⟩,
      by decide⟩)) .root [46, 46]) = .ok (.beneath [46, 46]) := by
    decide +kernel
  have hremoved := removed_of_plain hresolve (by decide) (by decide) (by decide) (by decide)
  refine ⟨linkOs, _, .root, [46, 46], _, .preopen, by decide, hresolve, by decide, hremoved.1,
    hremoved.2, fun hrefuses => ?_⟩
  exact absurd ((hrefuses.1 (by decide)).1.untouched _ hremoved.1) (by decide)

end TrantorCli.FsCore
