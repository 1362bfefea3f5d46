import TrantorCli.FsCore.AliasWalk

/-!
# What the early stop hides

Where longer prefixes of a failing one fail too, the walk cannot be told from one
over all plain prefixes, so its answer depends on nothing but which of them are the
root.
-/

open Interaction UnixPath

namespace TrantorCli.FsCore

variable {ε : Type} {canonicalize : PathBuf → Except ε PathBuf} {parts : List Component}
  {canonicalBase resolved : PathBuf} {k : ℕ}

/-- A path rebuilt from the root and inner components has those components. -/
theorem components_ofComponents_root {rest : List Component} (h : ∀ part ∈ rest, part.Inner) :
    components (ofComponents (.rootDir :: rest)) = .rootDir :: rest ∧
      isAbsolute (ofComponents (.rootDir :: rest)) = true := by
  induction rest using List.reverseRecOn with
  | nil => decide
  | append_singleton rest part ih =>
    obtain ⟨hcomponents, habs⟩ := ih fun p hp => h p (by simp [hp])
    have hpart := h part (by simp)
    rw [← List.cons_append, ofComponents_concat, components_join habs hpart.relative, hcomponents,
      hpart.body_bytes]
    exact ⟨rfl, isAbsolute_join habs _⟩

/-- The prefixes of an absolute path, rebuilt. -/
theorem components_prefix {cand : PathBuf} (habs : isAbsolute cand = true) {k : ℕ} (hk : 1 ≤ k) :
    components (ofComponents ((components cand).take k)) = (components cand).take k := by
  obtain ⟨n, rfl⟩ := Nat.exists_eq_add_of_le' hk
  rw [components_of_isAbsolute habs, List.take_succ_cons]
  exact (components_ofComponents_root fun part hpart =>
    inner_of_mem_body (List.mem_of_mem_take hpart)).1

private theorem aliases_iff {canonicalize : PathBuf → Except ε PathBuf}
    {cand canonicalBase : PathBuf}
    {k : ℕ} : Aliases canonicalize cand canonicalBase k ↔
      k ∈ List.range' 1 ((components cand).takeWhile isPlain).length ∧
        isBase canonicalize canonicalBase (ofComponents ((components cand).take k)) = true := by
  have hle := (List.takeWhile_prefix (l := components cand) isPlain).length_le
  rw [List.mem_range'_1, Aliases, isBase]
  constructor
  · rintro ⟨hk, hlen, hplain, resolved, hresolved, hsame⟩
    refine ⟨⟨hk, ?_⟩, by rw [hresolved]; exact decide_eq_true hsame⟩
    have := (Cut.forall_mem_take_iff hlen).mp hplain
    omega
  · rintro ⟨⟨hk, hlt⟩, hbase⟩
    refine ⟨hk, by omega, Cut.forall_mem_take (by omega), ?_⟩
    cases hresolved : canonicalize (ofComponents ((components cand).take k)) with
    | error e => simp [hresolved] at hbase
    | ok resolved => exact ⟨resolved, rfl, by simpa [hresolved] using hbase⟩

/-- The walk over every plain prefix answers for the shortest that is the base. -/
theorem aliasedRestTryingAll_of_shortest {canonicalize : PathBuf → Except ε PathBuf}
    {cand canonicalBase : PathBuf} {k : ℕ} (h : Aliases canonicalize cand canonicalBase k)
    (hshortest : ∀ j, j < k → ¬Aliases canonicalize cand canonicalBase j) :
    aliasedRestTryingAll canonicalize cand canonicalBase =
      some (ofComponents ((components cand).drop k)) := by
  obtain ⟨hmem, hbase⟩ := aliases_iff.mp h
  have hfound : (List.range' 1 ((components cand).takeWhile isPlain).length).find? (fun k =>
      isBase canonicalize canonicalBase (ofComponents ((components cand).take k))) = some k := by
    rw [List.find?_range'_eq_some]
    refine ⟨hbase, hmem, fun j hj hjk => ?_⟩
    rw [List.mem_range'_1] at hmem
    rw [Bool.not_eq_true', ← Bool.not_eq_true]
    intro hbase'
    exact hshortest j hjk (aliases_iff.mpr ⟨List.mem_range'_1.mpr ⟨hj, by omega⟩, hbase'⟩)
  rw [aliasedRestTryingAll, hfound, Option.map_some]

/-- The walk over every plain prefix finds nothing where none is the base. -/
theorem aliasedRestTryingAll_of_none {canonicalize : PathBuf → Except ε PathBuf}
    {cand canonicalBase : PathBuf} (h : ∀ k, ¬Aliases canonicalize cand canonicalBase k) :
    aliasedRestTryingAll canonicalize cand canonicalBase = none := by
  have hnone : (List.range' 1 ((components cand).takeWhile isPlain).length).find? (fun k =>
      isBase canonicalize canonicalBase (ofComponents ((components cand).take k))) = none := by
    rw [List.find?_eq_none]
    intro k hmem hbase
    exact h k (aliases_iff.mpr ⟨hmem, hbase⟩)
  rw [aliasedRestTryingAll, hnone, Option.map_none]

/-- Stopping early gives the answer of trying all. -/
theorem eval_aliasedRestBy {canonicalize : PathBuf → Except ε PathBuf} {cand : PathBuf}
    (hfails : FailsOnward canonicalize cand) (canonicalBase : PathBuf) :
    (aliasedRestBy cand canonicalBase).eval canonicalize =
      aliasedRestTryingAll canonicalize cand canonicalBase := by
  have hle := (List.takeWhile_prefix (l := components cand) isPlain).length_le
  exact eval_walk canonicalBase fun j k hj hjk hk => hfails j k hj hjk (by omega)

/-- The walk over every plain prefix depends only on which prefixes are the base. -/
theorem aliasedRestTryingAll_congr {canonicalize other : PathBuf → Except ε PathBuf}
    {cand canonicalBase : PathBuf}
    (h : ∀ k, Aliases canonicalize cand canonicalBase k ↔ Aliases other cand canonicalBase k) :
    aliasedRestTryingAll canonicalize cand canonicalBase =
      aliasedRestTryingAll other cand canonicalBase := by
  have hsame : ∀ k ∈ List.range' 1 ((components cand).takeWhile isPlain).length,
      isBase canonicalize canonicalBase (ofComponents ((components cand).take k)) =
        isBase other canonicalBase (ofComponents ((components cand).take k)) := by
    intro k hk
    have hagree := h k
    rw [aliases_iff, aliases_iff] at hagree
    rw [Bool.eq_iff_iff]
    simpa only [hk, true_and] using hagree
  rw [aliasedRestTryingAll, aliasedRestTryingAll, List.find?_congr hsame]

/-- The early stop cannot be seen: the walk answers with what follows the shortest plain prefix
that is the base, as a walk over every plain prefix does; it asks about plain prefixes only, none
of them past one that failed; and its answer depends only on which plain prefixes are the base. -/
theorem aliasedRestBy_earlyStop {canonicalize : PathBuf → Except ε PathBuf}
    {cand canonicalBase : PathBuf} (habs : isAbsolute cand = true)
    (hfails : FailsOnward canonicalize cand) :
    (∀ k, Aliases canonicalize cand canonicalBase k →
      (∀ j, j < k → ¬Aliases canonicalize cand canonicalBase j) →
        ∃ rest, (aliasedRestBy cand canonicalBase).eval canonicalize = some rest ∧
          components rest = (components cand).drop k) ∧
    ((∀ k, ¬Aliases canonicalize cand canonicalBase k) →
      (aliasedRestBy cand canonicalBase).eval canonicalize = none) ∧
    (aliasedRestBy cand canonicalBase).eval canonicalize =
      aliasedRestTryingAll canonicalize cand canonicalBase ∧
    (∀ path ∈ (aliasedRestBy cand canonicalBase).trace canonicalize,
      Component.parentDir ∉ components path ∧
        ∃ k, 1 ≤ k ∧ components path = (components cand).take k ∧
          ∀ j, 1 ≤ j → j < k →
            (canonicalize (ofComponents ((components cand).take j))).isOk = true) ∧
    ∀ other : PathBuf → Except ε PathBuf, FailsOnward other cand →
      (∀ k, Aliases canonicalize cand canonicalBase k ↔ Aliases other cand canonicalBase k) →
        (aliasedRestBy cand canonicalBase).eval canonicalize =
          (aliasedRestBy cand canonicalBase).eval other := by
  have hle := (List.takeWhile_prefix (l := components cand) isPlain).length_le
  refine ⟨fun k hk hshortest => ?_, fun hnone => ?_, eval_aliasedRestBy hfails canonicalBase,
    fun path hpath => ?_, fun other hother hagree => ?_⟩
  · refine ⟨_, (eval_aliasedRestBy hfails canonicalBase).trans
      (aliasedRestTryingAll_of_shortest hk hshortest), ?_⟩
    exact (spells_ofComponents fun part hpart => inner_of_mem_drop habs hk.1 hpart).components
  · rw [eval_aliasedRestBy hfails, aliasedRestTryingAll_of_none hnone]
  · obtain ⟨k, hk, hlt, rfl, hshorter⟩ := trace_walk _ _ _ _ _ path hpath
    have hparts := components_prefix habs hk
    refine ⟨?_, k, hk, hparts, hshorter⟩
    rw [hparts]
    intro hmem
    have hplain : k ≤ ((components cand).takeWhile isPlain).length := by omega
    exact absurd (Cut.forall_mem_take hplain _ hmem) (by decide)
  · rw [eval_aliasedRestBy hfails, eval_aliasedRestBy hother, aliasedRestTryingAll_congr hagree]

/-- A file system that has `/` and the link `/l` to `/r`. -/
def linkFs (path : PathBuf) : Except Unit PathBuf :=
  if path = [47] then .ok [47] else if path = [47, 108] then .ok [47, 114] else .error ()

/-- `/l/f` beneath `/r`. -/
theorem aliasedRestBy_earlyStop_link :
    ∃ rest, (aliasedRestBy [47, 108, 47, 102] [47, 114]).eval linkFs = some rest ∧
      components rest = [.normal [102]] := by
  have hfails : FailsOnward linkFs [47, 108, 47, 102] := by
    intro j k hj hjk hk hfailed
    have hlen : (components [47, 108, 47, 102]).length = 3 := by decide
    rw [hlen] at hk
    have hthree : j = 3 := by
      by_contra hne
      obtain rfl | rfl : j = 1 ∨ j = 2 := by omega
      · exact absurd hfailed (by decide)
      · exact absurd hfailed (by decide)
    obtain rfl : j = k := by omega
    exact hfailed
  refine (aliasedRestBy_earlyStop (by decide) hfails).1 2 ⟨by decide, by decide, by decide,
    [47, 114],
    by decide, rfl⟩ fun j hj halias => ?_
  obtain ⟨hpos, -, -, resolved, hresolved, hsame⟩ := halias
  obtain rfl : j = 1 := by omega
  cases hresolved
  exact absurd hsame (by decide)

end TrantorCli.FsCore
