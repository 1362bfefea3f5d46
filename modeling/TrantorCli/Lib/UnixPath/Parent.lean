import TrantorCli.Lib.UnixPath.StripPrefix

/-!
# The directory a path is in

What stands before the last name of a path spells a path again, and what is taken
from there has its components after it.
-/

namespace UnixPath

variable {path base : PathBuf} {before : List Component} {name : List UInt8}

private theorem isAbsolute_slash : isAbsolute [47] = true := rfl

/-- `/` -/
def AbsPath.slash : AbsPath := ⟨[47], isAbsolute_slash⟩

private theorem plain_slash : Component.parentDir ∉ body AbsPath.slash.bytes := by decide

/-- `/`, which is plain. -/
def PlainPath.slash : PlainPath := ⟨.slash, plain_slash⟩

/-- Beyond the first, every component is an inner one. -/
theorem inner_of_mem_drop_components {k : Nat} (hk : 1 ≤ k) {part : Component}
    (h : part ∈ (components path).drop k) : part.Inner := by
  obtain ⟨k, rfl⟩ := Nat.exists_eq_add_of_le' hk
  have hbody : part ∈ body path := by
    unfold components at h
    split at h
    · exact List.mem_of_mem_drop h
    · split at h
      · exact List.mem_of_mem_drop h
      · exact List.mem_of_mem_drop h
  exact inner_of_mem_body hbody

/-- A relative path taken from a path that is not empty. -/
theorem components_join_of_ne_nil (hbase : base ≠ []) (hpath : isAbsolute path = false) :
    components (join base path) = components base ++ body path := by
  rcases join_of_relative hpath base with ⟨-, hnil⟩ | ⟨init, hjoin, hinit, hends⟩
  · exact absurd hnil hbase
  have hbody : body (join base path) = body base ++ body path := body_join hpath base
  have habs : isAbsolute (join base path) = isAbsolute base := by
    rw [hjoin]
    rcases hends with rfl | rfl
    · exact isAbsolute_append hbase _
    · cases init with
      | nil => rfl
      | cons b init => rfl
  have hstart : startsInCurDir (join base path) = startsInCurDir base := by
    rw [hjoin, startsInCurDir_append_slash]
    rcases hends with rfl | rfl
    · rfl
    · exact (startsInCurDir_append_slash init []).symm
  unfold components
  rw [habs, hstart, hbody]
  split
  · rfl
  · split <;> rfl

/-- Any component of a path is a path of its own. -/
theorem components_bytes {part : Component} (h : part ∈ components path) :
    part.bytes ≠ [] ∧ components part.bytes = [part] := by
  have hcases : part = .rootDir ∨ part = .curDir ∨ part ∈ body path := by
    unfold components at h
    split at h
    · exact (List.mem_cons.mp h).imp_right .inr
    · split at h
      · exact .inr (List.mem_cons.mp h)
      · exact .inr (.inr h)
  rcases hcases with rfl | rfl | hbody
  · exact ⟨by decide, by decide⟩
  · exact ⟨by decide, by decide⟩
  · have hinner := inner_of_mem_body hbody
    exact ⟨hinner.bytes_ne.1, hinner.spells.components⟩

private theorem components_ofComponents_cons {first : Component} {rest : List Component}
    (hfirst : first.bytes ≠ [] ∧ components first.bytes = [first])
    (hrest : ∀ part ∈ rest, part.Inner) :
    ofComponents (first :: rest) ≠ [] ∧
      components (ofComponents (first :: rest)) = first :: rest := by
  induction rest using List.reverseRecOn with
  | nil =>
    have hone : ofComponents [first] = first.bytes := by simp [ofComponents, join]
    rwa [hone]
  | append_singleton rest part ih =>
    have hpart : part.Inner := hrest part (by simp)
    obtain ⟨hne, hparts⟩ := ih fun p hp => hrest p (by simp [hp])
    have hcomponents : components (ofComponents (first :: (rest ++ [part]))) =
        first :: (rest ++ [part]) := by
      rw [← List.cons_append, ofComponents_concat, components_join_of_ne_nil hne hpart.relative,
        hparts, hpart.body_bytes]
    refine ⟨?_, hcomponents⟩
    intro hnil
    have hempty : components [] = [] := by decide
    rw [hnil, hempty] at hcomponents
    exact absurd hcomponents (by simp)

/-- The first components of a path spell a path with these components. -/
theorem components_ofComponents (h : before <+: components path) (hne : before ≠ []) :
    ofComponents before ≠ [] ∧ components (ofComponents before) = before := by
  obtain ⟨first, rest, rfl⟩ := List.exists_cons_of_ne_nil hne
  obtain ⟨after, hafter⟩ := h
  have hfirst : first ∈ components path := by
    rw [← hafter]
    exact List.mem_cons_self
  refine components_ofComponents_cons (components_bytes hfirst) fun part hpart => ?_
  have hdrop : part ∈ (components path).drop 1 := by
    rw [← hafter, List.cons_append, List.drop_succ_cons, List.drop_zero]
    exact List.mem_append_left _ hpart
  exact inner_of_mem_drop_components (Nat.le_refl 1) hdrop

/-- What is taken from the directory a path is in has its components after those of the
directory. -/
theorem components_join_ofComponents (h : components path = before ++ [.normal name])
    {contents : PathBuf} (hcontents : isAbsolute contents = false) :
    components (join (ofComponents before) contents) =
      before ++ if before = [] then components contents else body contents := by
  by_cases hnil : before = []
  · subst hnil
    have hempty : ofComponents [] = [] := rfl
    rw [if_pos rfl, List.nil_append, hempty, join, if_neg (by simp [hcontents]), if_pos (.inl rfl),
      List.nil_append]
  · obtain ⟨hne, hparts⟩ := components_ofComponents ⟨_, h.symm⟩ hnil
    rw [if_neg hnil, components_join_of_ne_nil hne hcontents, hparts]

end UnixPath
