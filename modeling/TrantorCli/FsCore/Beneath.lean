import TrantorCli.FsCore.Resolve

/-!
# What the rewriting beneath a root keeps

The path handed to the root handle has the components that follow the root, and
every guard that reads the end of a path says of it what it says of the
candidate, whichever prefix of the candidate names the root.
-/

open Interaction UnixPath

namespace TrantorCli.FsCore

/-- `rel` tells the guards what `cand` tells them, where the components of `cand` are those of the
root, `before`, followed by `rest`. -/
structure KeepsSpelling (before rest : List Component) (cand rel : PathBuf) : Prop where
  nonempty : rel ≠ []
  relative : isAbsolute rel = false
  directory : namesDirectory rel = namesDirectory cand
  components : rest ≠ [] → components rel = rest
  stripped : rest ≠ [] → ((∃ name, slashesStripped rel = some name) ↔
    ∃ name, slashesStripped cand = some name)
  strippedParts : rest ≠ [] → ∀ name candName, slashesStripped rel = some name →
    slashesStripped cand = some candName →
      before ++ UnixPath.components name = UnixPath.components candName
  trailingDot : rest ≠ [] → ∀ tg tg' : Target, tg.path = rel → tg'.path = cand →
    refuseTrailingDot tg = refuseTrailingDot tg'
  confined : (∃ name, .normal name ∈ rest) → refuseConfinedRoot (.beneath rel) = .ok ()
  root : rest = [] → (∀ part ∈ UnixPath.components rel, part = .curDir) ∧
    ∃ e, refuseConfinedRoot (.beneath rel) = .error e

/-- A guard that passes both names or refuses both gives the same verdict. -/
theorem refuseTrailingDot_congr {tg tg' : Target}
    (h : refuseTrailingDot tg = .ok () ↔ refuseTrailingDot tg' = .ok ()) :
    refuseTrailingDot tg = refuseTrailingDot tg' := by
  unfold refuseTrailingDot at h ⊢
  split at h <;> split at h <;> simp_all

variable {before rest : List Component} {cand rel : PathBuf}

/-- The root itself is `.` with the candidate's marks. -/
theorem keepsSpelling_root (hparts : components cand = before) :
    KeepsSpelling before [] cand ([46] ++ trailingSpelling cand) := by
  obtain ⟨bare, marks, hbare, rfl⟩ := exists_bare cand
  rw [trailingSpelling_append_trail hbare]
  have hdot : Bare [46] := ⟨by decide, by decide⟩
  have hcomponents : components ([46] ++ trail (collapse marks)) = [.curDir] := by
    rw [components_append_trail (by simp)]
    decide
  constructor
  · simp
  · rw [isAbsolute_append (by simp)]
    decide
  · rw [Bool.eq_iff_iff, namesDirectory_append_trail hdot, namesDirectory_append_trail hbare, Ne,
      collapse_eq_nil]
  · simp
  · simp
  · simp
  · simp
  · simp
  · intro _
    rw [refuseConfinedRoot, hcomponents]
    exact ⟨by simp, _, if_pos (by decide)⟩

/-- The bare part of a candidate that leads below the root: it has the candidate's components. -/
theorem bare_of_rest {bare : PathBuf} {marks : List Mark}
    (habs : isAbsolute (bare ++ trail marks) = true)
    (hparts : components (bare ++ trail marks) = before ++ rest) (hbefore : before ≠ [])
    (hrest : rest ≠ []) :
    bare ≠ [] ∧ bare ≠ [46] ∧ components bare = before ++ rest ∧
      (body bare).getLast? = rest.getLast? := by
  have hne : bare ≠ [] := by
    rintro rfl
    rw [components_of_isAbsolute habs, body_append_trail, body_nil] at hparts
    have hlength := congrArg List.length hparts
    have hlen := List.length_pos_iff.mpr hbefore
    have hlen' := List.length_pos_iff.mpr hrest
    simp only [List.length_singleton, List.length_append] at hlength
    omega
  rw [isAbsolute_append hne] at habs
  rw [components_append_trail hne] at hparts
  obtain ⟨first, before, rfl⟩ := List.exists_cons_of_ne_nil hbefore
  have hbody : body bare = before ++ rest := by
    rw [components_of_isAbsolute habs, List.cons_append, List.cons.injEq] at hparts
    exact hparts.2
  refine ⟨hne, ?_, hparts, ?_⟩
  · rintro rfl
    exact absurd habs (by decide)
  · rw [hbody, List.getLast?_append_of_ne_nil _ hrest]

/-- What spells the components after the root, with the candidate's marks. -/
theorem keepsSpelling_rest (habs : isAbsolute cand = true)
    (hparts : components cand = before ++ rest)
    (hbefore : before ≠ []) (hrest : rest ≠ []) (h : Spells rel rest) :
    KeepsSpelling before rest cand (rel ++ trailingSpelling cand) := by
  obtain ⟨bare, marks, hbare, rfl⟩ := exists_bare cand
  obtain ⟨hbareNe, hbareDot, hbareParts, hlast⟩ := bare_of_rest habs hparts hbefore hrest
  have hrel : rel ≠ [] := mt h.nil_iff.mp hrest
  have hrelDot : rel ≠ [46] := by
    rintro rfl
    exact absurd h.startsInCurDir (by decide)
  rw [trailingSpelling_append_trail hbare]
  have hcomponents : components (rel ++ trail (collapse marks)) = rest := by
    rw [components_append_trail hrel, h.components]
  have hstripped := slashesStripped_append_trail h.bare (collapse marks)
  have hstripped' := slashesStripped_append_trail hbare marks
  rw [hlast] at hstripped'
  rw [h.body] at hstripped
  simp only [Ne, collapse_eq_nil, dot_mem_collapse, hrel, hrelDot, not_false_eq_true,
    true_and] at hstripped
  simp only [Ne, hbareNe, hbareDot, not_false_eq_true, true_and] at hstripped'
  constructor
  · simp [hrel]
  · rw [isAbsolute_append hrel, h.relative]
  · rw [Bool.eq_iff_iff, namesDirectory_append_trail h.bare, namesDirectory_append_trail hbare, Ne,
      collapse_eq_nil]
  · exact fun _ => hcomponents
  · intro _
    rw [hstripped, hstripped']
    split <;> simp
  · intro _ name candName hname hcandName
    rw [hstripped, Option.ite_none_right_eq_some] at hname
    rw [hstripped', Option.ite_none_right_eq_some] at hcandName
    rw [← Option.some_inj.mp hname.2, ← Option.some_inj.mp hcandName.2, h.components, hbareParts]
  · intro _ tg tg' htg htg'
    apply refuseTrailingDot_congr
    rw [refuseTrailingDot_eq_ok h.bare _ htg, refuseTrailingDot_eq_ok hbare _ htg',
      dot_mem_collapse]
  · rintro ⟨name, hname⟩
    rw [refuseConfinedRoot, hcomponents, if_neg]
    intro hall
    exact absurd (List.all_eq_true.mp hall _ hname) (by simp)
  · exact fun hnil => absurd hnil hrest

/-- The rewriting keeps every distinction the guards make, whichever prefix of the candidate names
the root. -/
theorem relativeToRoot_keepsSpelling {os : Os} {base : AbsPath} (habs : isAbsolute cand = true)
    (hroot : RootPrefix os base cand before) (hparts : components cand = before ++ rest) :
    ∃ rel, Fallible.eval os (relativeToRoot base cand) = .ok rel ∧
      KeepsSpelling before rest cand rel := by
  obtain ⟨kept, hkept, hspells⟩ := eval_restOfRoot habs hroot hparts
  refine ⟨_, eval_relativeToRoot_of_rest hkept, ?_⟩
  by_cases hrest : rest = []
  · subst hrest
    rw [if_pos (hspells.nil_iff.mpr rfl)]
    exact keepsSpelling_root (by simpa using hparts)
  · rw [if_neg (mt hspells.nil_iff.mp hrest)]
    exact keepsSpelling_rest habs hparts (hroot.ne_nil habs) hrest hspells

/-- There is no other way to succeed. -/
theorem keepsSpelling_of_eval {os : Os} {base : AbsPath} (habs : isAbsolute cand = true)
    (h : Fallible.eval os (relativeToRoot base cand) = .ok rel) :
    ∃ before rest, RootPrefix os base cand before ∧ components cand = before ++ rest ∧
      KeepsSpelling before rest cand rel := by
  obtain ⟨before, rest, kept, hroot, hparts, -⟩ := exists_of_eval_relativeToRoot habs h
  obtain ⟨rel', hrel', hkeeps⟩ := relativeToRoot_keepsSpelling habs hroot hparts
  rw [h, Except.ok.injEq] at hrel'
  exact ⟨before, rest, hroot, hparts, hrel' ▸ hkeeps⟩

/-- Every candidate whose components start with those of the base is rewritten so, and so is every
candidate that reaches the base under another name; there is no other way to succeed. -/
theorem relativeToRoot_faithful (os : Os) (base : AbsPath) (cand : PathBuf)
    (habs : isAbsolute cand = true) :
    (∀ rest, components cand = components base.bytes ++ rest →
      ∃ rel, Fallible.eval os (relativeToRoot base cand) = .ok rel ∧
        KeepsSpelling (components base.bytes) rest cand rel) ∧
    (∀ before rest, RootPrefix os base cand before → components cand = before ++ rest →
      ∃ rel, Fallible.eval os (relativeToRoot base cand) = .ok rel ∧
        KeepsSpelling before rest cand rel) ∧
    ∀ rel, Fallible.eval os (relativeToRoot base cand) = .ok rel →
      ∃ before rest, RootPrefix os base cand before ∧ components cand = before ++ rest ∧
        KeepsSpelling before rest cand rel := by
  refine ⟨?_, ?_, ?_⟩
  · intro rest hparts
    exact relativeToRoot_keepsSpelling habs (.direct ⟨rest, hparts.symm⟩) hparts
  · intro before rest hroot hparts
    exact relativeToRoot_keepsSpelling habs hroot hparts
  · exact fun rel hrel => keepsSpelling_of_eval habs hrel

/-- A system where `/l` is a link to `/r`, every directory opens, and nothing else is there. -/
def linkOs : Os
  | .canonicalize path =>
    if path = [47] then .ok ⟨⟨[47], by decide⟩, by decide⟩
    else if path = [47, 108] ∨ path = [47, 114] then .ok ⟨⟨[47, 114], by decide⟩, by decide⟩
    else .error ⟨.notFound, ""⟩
  | .metadata _ | .symlinkMetadata _ | .fileMetadata _ => .error ⟨.notFound, ""⟩
  | .openDirectory _ _ => .ok (3 : Nat)
  | .openFile _ _ | .openRead _ | .createNew _ _ => .error ⟨.notFound, ""⟩
  | .createDir _ _ | .removeDir _ | .removeDirAll _ | .removeFile _ => .error ⟨.notFound, ""⟩
  | .copyData _ _ | .setPermissions _ _ => .error ⟨.notFound, ""⟩

/-- `/l/../a//` beneath the root `/r`. -/
theorem relativeToRoot_faithful_link :
    ∃ rel, Fallible.eval linkOs (relativeToRoot ⟨[47, 114], by decide⟩
        [47, 108, 47, 46, 46, 47, 97, 47, 47]) = .ok rel ∧
      KeepsSpelling [.rootDir, .normal [108]] [.parentDir, .normal [97]]
        [47, 108, 47, 46, 46, 47, 97, 47, 47] rel := by
  have hfaithful := relativeToRoot_faithful linkOs ⟨[47, 114], by decide⟩
    [47, 108, 47, 46, 46, 47, 97, 47, 47] (by decide)
  have hresolved : linkOs (.canonicalize (ofComponents
      ((components [47, 108, 47, 46, 46, 47, 97, 47, 47]).take 2))) =
      .ok ⟨⟨[47, 114], by decide⟩, by decide⟩ := rfl
  refine hfaithful.2.1 _ _ (.aliased (by decide) rfl (by decide) (by decide) (by decide) ?_
    hresolved (by decide)) (by decide)
  intro j hj hj'
  obtain rfl : j = 1 := by omega
  exact ⟨⟨⟨[47], by decide⟩, by decide⟩, rfl, by decide⟩

/-- Where the base is a prefix as spelled, no call is made. -/
theorem relativeToRoot_direct {base : AbsPath} (habs : isAbsolute cand = true)
    (hparts : components cand = components base.bytes ++ rest) :
    ∃ rel, relativeToRoot base cand = pure rel ∧ isAbsolute rel = false ∧ body rel = rest ∧
      components rel = (if rest = [] then [.curDir] else rest) ∧
      trailingSpelling rel = trailingSpelling cand := by
  obtain ⟨kept, hkept, hspells⟩ := exists_stripPrefix habs hparts
  obtain ⟨bare, marks, hbare, rfl⟩ := exists_bare cand
  have hcollapse : collapse (collapse marks) = collapse marks := by
    unfold collapse
    split <;> simp_all
  have hpure : relativeToRoot base (bare ++ trail marks) =
      pure ((if kept = [] then [46] else kept) ++ trail (collapse marks)) := by
    rw [relativeToRoot, restOfRoot, hkept, trailingSpelling_append_trail hbare]
    rfl
  refine ⟨_, hpure, ?_⟩
  rw [trailingSpelling_append_trail hbare]
  by_cases hrest : rest = []
  · subst hrest
    have hdot : Bare [46] := ⟨by decide, by decide⟩
    rw [if_pos (hspells.nil_iff.mpr rfl), if_pos rfl, trailingSpelling_append_trail hdot, hcollapse,
      body_append_trail, components_append_trail (by simp), isAbsolute_append (by simp)]
    exact ⟨by decide, by decide, by decide, rfl⟩
  · have hne : kept ≠ [] := mt hspells.nil_iff.mp hrest
    rw [if_neg hne, if_neg hrest, trailingSpelling_append_trail hspells.bare, hcollapse,
      body_append_trail, components_append_trail hne, isAbsolute_append hne]
    exact ⟨hspells.relative, hspells.body, hspells.components, rfl⟩

end TrantorCli.FsCore
