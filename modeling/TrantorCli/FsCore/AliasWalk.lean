import Mathlib.Data.List.Find
import TrantorCli.FsCore.Resolve

/-!
# The alias walk

`aliased_rest_by` asks for the canonical form of one plain prefix after the
other, and stops at the first that has none or that is the base. Beside it stands
the walk that tries every plain prefix.
-/

open Interaction UnixPath

namespace TrantorCli.FsCore

variable {ε : Type}

/-! ### The walk over every plain prefix -/

/-- The prefix of `k` components is plain, and canonicalizes to the base. -/
def Aliases (canonicalize : PathBuf → Except ε PathBuf) (cand canonicalBase : PathBuf) (k : ℕ) :
    Prop :=
  1 ≤ k ∧ k ≤ (components cand).length ∧ (∀ part ∈ (components cand).take k, isPlain part = true) ∧
    ∃ resolved, canonicalize (ofComponents ((components cand).take k)) = .ok resolved ∧
      components resolved = components canonicalBase

/-- Whether `canonicalize` takes the path to the base. -/
def isBase (canonicalize : PathBuf → Except ε PathBuf) (canonicalBase path : PathBuf) : Bool :=
  match canonicalize path with
  | .ok resolved => decide (components resolved = components canonicalBase)
  | .error _ => false

/-- The walk that tries every plain prefix, whatever became of the shorter ones. -/
def aliasedRestTryingAll (canonicalize : PathBuf → Except ε PathBuf)
    (cand canonicalBase : PathBuf) : Option PathBuf :=
  let parts := components cand
  let plain := (parts.takeWhile isPlain).length
  ((List.range' 1 plain).find? fun k =>
      isBase canonicalize canonicalBase (ofComponents (parts.take k))).map
    fun k => ofComponents (parts.drop k)

/-- Once `canonicalize` fails on a prefix of the candidate, it fails on every longer one. -/
def FailsOnward (canonicalize : PathBuf → Except ε PathBuf) (cand : PathBuf) : Prop :=
  ∀ j k, 1 ≤ j → j ≤ k → k ≤ (components cand).length →
    (canonicalize (ofComponents ((components cand).take j))).isOk = false →
      (canonicalize (ofComponents ((components cand).take k))).isOk = false

/-- The walk asks only about prefixes whose shorter prefixes all canonicalized. -/
theorem trace_walk (canonicalize : PathBuf → Except ε PathBuf) (parts : List Component)
    (canonicalBase : PathBuf) (start count : ℕ) :
    ∀ path ∈ (aliasedRestByFrom parts canonicalBase (List.range' start count)).trace canonicalize,
      ∃ k, start ≤ k ∧ k < start + count ∧ path = ofComponents (parts.take k) ∧
        ∀ j, start ≤ j → j < k → (canonicalize (ofComponents (parts.take j))).isOk = true := by
  induction count generalizing start with
  | zero => simp [aliasedRestByFrom]
  | succ count ih =>
    intro path hpath
    rw [List.range'_succ] at hpath
    have hfirst : path = ofComponents (parts.take start) →
        ∃ k, start ≤ k ∧ k < start + (count + 1) ∧
        path = ofComponents (parts.take k) ∧
        ∀ j, start ≤ j → j < k → (canonicalize (ofComponents (parts.take j))).isOk = true :=
      fun heq => ⟨start, le_refl _, by omega, heq, fun j hj hj' => by omega⟩
    cases hanswer : canonicalize (ofComponents (parts.take start)) with
    | error e =>
      rw [(walk_error hanswer _).2, List.mem_singleton] at hpath
      exact hfirst hpath
    | ok resolved =>
      by_cases hsame : components resolved = components canonicalBase
      · rw [(walk_found hanswer hsame _).2, List.mem_singleton] at hpath
        exact hfirst hpath
      · rw [(walk_missed hanswer hsame _).2, List.mem_cons] at hpath
        rcases hpath with hpath | hpath
        · exact hfirst hpath
        · obtain ⟨k, hk, hk', hpath', hshorter⟩ := ih (start + 1) path hpath
          refine ⟨k, by omega, by omega, hpath', fun j hj hj' => ?_⟩
          by_cases hjs : j = start
          · subst hjs
            rw [hanswer]
            rfl
          · exact hshorter j (by omega) hj'

/-- Stopping early gives the answer of trying all. -/
theorem eval_walk {canonicalize : PathBuf → Except ε PathBuf} {parts : List Component}
    (canonicalBase : PathBuf) {start count : ℕ}
    (hfails : ∀ j k, start ≤ j → j ≤ k → k < start + count →
      (canonicalize (ofComponents (parts.take j))).isOk = false →
        (canonicalize (ofComponents (parts.take k))).isOk = false) :
    (aliasedRestByFrom parts canonicalBase (List.range' start count)).eval canonicalize =
      ((List.range' start count).find? fun k =>
          isBase canonicalize canonicalBase (ofComponents (parts.take k))).map
        fun k => ofComponents (parts.drop k) := by
  induction count generalizing start with
  | zero => rfl
  | succ count ih =>
    rw [List.range'_succ]
    cases hanswer : canonicalize (ofComponents (parts.take start)) with
    | error e =>
      have hnone : ((start :: List.range' (start + 1) count).find? fun k =>
          isBase canonicalize canonicalBase (ofComponents (parts.take k))) = none := by
        apply List.find?_eq_none.mpr
        intro k hk
        rw [← List.range'_succ, List.mem_range'_1] at hk
        have hfailed := hfails start k (le_refl _) hk.1 hk.2 (by rw [hanswer]; rfl)
        unfold isBase
        split
        · next resolved hresolved => simp [hresolved, Except.isOk, Except.toBool] at hfailed
        · simp
      rw [(walk_error hanswer _).1, hnone, Option.map_none]
    | ok resolved =>
      have hbase : isBase canonicalize canonicalBase (ofComponents (parts.take start)) =
          decide (components resolved = components canonicalBase) := by
        rw [isBase, hanswer]
      by_cases hsame : components resolved = components canonicalBase
      · rw [(walk_found hanswer hsame _).1, List.find?_cons, hbase, decide_eq_true hsame]
        rfl
      · rw [(walk_missed hanswer hsame _).1, List.find?_cons, hbase, decide_eq_false hsame]
        exact ih fun j k hj hjk hk => hfails j k (by omega) hjk (by omega)

end TrantorCli.FsCore
