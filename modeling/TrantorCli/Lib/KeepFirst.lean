import Mathlib.Data.List.Forall2
import Mathlib.Data.List.Induction

/-!
# Keeping the first of each key

A fold reads a value from each candidate and keeps it unless one with the same key
is already kept. Its result is the list of the earliest values of each key, in the
order of the candidates they were read from.
-/

variable {γ α κ : Type*} [DecidableEq κ]

namespace KeepFirst

/-- One step of the fold. -/
def keep (read : γ → Option α) (key : α → κ) (kept : List α) (candidate : γ) : List α :=
  match read candidate with
  | none => kept
  | some x => if kept.any fun seen => key seen == key x then kept else kept ++ [x]

/-- The values read from the candidates, without those whose key came before. -/
def firsts (read : γ → Option α) (key : α → κ) (candidates : List γ) : List α :=
  candidates.foldl (keep read key) []

omit [DecidableEq κ] in
/-- `x` is read from the candidate at `i`, and nothing before it has its key. -/
def Earliest (read : γ → Option α) (key : α → κ) (candidates : List γ) (i : Nat) (x : α) : Prop :=
  (∃ candidate ∈ candidates[i]?, read candidate = some x) ∧
    ∀ j < i, ∀ candidate ∈ candidates[j]?, ∀ y, read candidate = some y → key y ≠ key x

variable (read : γ → Option α) (key : α → κ)

/-- What a step can do: a new key is appended, everything else leaves the list alone. -/
theorem keep_cases (kept : List α) (candidate : γ) :
    (∃ x, read candidate = some x ∧ (∀ seen ∈ kept, key seen ≠ key x) ∧
      keep read key kept candidate = kept ++ [x]) ∨
    ((∀ x, read candidate = some x → ∃ seen ∈ kept, key seen = key x) ∧
      keep read key kept candidate = kept) := by
  cases hread : read candidate with
  | none => exact .inr ⟨by simp, by rw [keep, hread]⟩
  | some x =>
    by_cases hany : (kept.any fun seen => key seen == key x) = true
    · refine .inr ⟨?_, by simp only [keep, hread, hany, if_true]⟩
      rintro _ ⟨⟩
      simpa using hany
    · refine .inl ⟨x, rfl, by simpa using hany, ?_⟩
      simp only [keep, hread, hany]
      rfl

private theorem firsts_concat (candidates : List γ) (candidate : γ) :
    firsts read key (candidates ++ [candidate]) =
      keep read key (firsts read key candidates) candidate := by
  rw [firsts, List.foldl_append]
  rfl

private theorem prefix_keep (kept : List α) (candidate : γ) :
    kept <+: keep read key kept candidate := by
  obtain ⟨x, -, -, h⟩ | ⟨-, h⟩ := keep_cases read key kept candidate
  · rw [h]
    exact List.prefix_append kept [x]
  · simpa only [h] using List.prefix_refl kept

/-- More candidates leave what is kept as it is. -/
theorem prefix_firsts (candidates more : List γ) :
    firsts read key candidates <+: firsts read key (candidates ++ more) := by
  induction more using List.reverseRecOn with
  | nil => simpa only [List.append_nil] using List.prefix_refl (firsts read key candidates)
  | append_singleton more candidate ih =>
    rw [← List.append_assoc, firsts_concat]
    exact ih.trans (prefix_keep read key _ candidate)

/-- No key is kept twice. -/
theorem pairwise_firsts (candidates : List γ) :
    (firsts read key candidates).Pairwise fun x y => key x ≠ key y := by
  induction candidates using List.reverseRecOn with
  | nil => exact .nil
  | append_singleton candidates candidate ih =>
    rw [firsts_concat]
    obtain ⟨x, -, hnew, h⟩ | ⟨-, h⟩ :=
      keep_cases read key (firsts read key candidates) candidate
    · rw [h, List.pairwise_append]
      exact ⟨ih, List.pairwise_singleton _ x, fun y hy z hz => List.mem_singleton.mp hz ▸ hnew y hy⟩
    · rwa [h]

variable {read} in
/-- Every key that is read is kept. -/
theorem exists_mem_firsts {candidates : List γ} {candidate : γ} {x : α}
    (hmem : candidate ∈ candidates) (hread : read candidate = some x) :
    ∃ y ∈ firsts read key candidates, key y = key x := by
  obtain ⟨before, after, rfl⟩ := List.append_of_mem hmem
  have hstart := prefix_firsts read key (before ++ [candidate]) after
  rw [List.append_assoc, List.singleton_append, firsts_concat] at hstart
  obtain ⟨z, hz, -, h⟩ | ⟨hseen, h⟩ :=
    keep_cases read key (firsts read key before) candidate
  · rw [hread] at hz
    obtain rfl := Option.some_inj.mp hz
    exact ⟨x, hstart.subset (by simp [h]), rfl⟩
  · obtain ⟨y, hy, hkey⟩ := hseen x hread
    exact ⟨y, hstart.subset (by rwa [h]), hkey⟩

variable {read key} in
/-- Whatever is kept was read from a candidate. -/
theorem exists_of_mem_firsts {candidates : List γ} {x : α}
    (hx : x ∈ firsts read key candidates) : ∃ candidate ∈ candidates, read candidate = some x := by
  induction candidates using List.reverseRecOn with
  | nil => cases hx
  | append_singleton candidates candidate ih =>
    have hbefore (hx : x ∈ firsts read key candidates) :
        ∃ candidate' ∈ candidates ++ [candidate], read candidate' = some x := by
      obtain ⟨earlier, hmem, hread⟩ := ih hx
      exact ⟨earlier, List.mem_append_left _ hmem, hread⟩
    rw [firsts_concat] at hx
    obtain ⟨y, hread, -, h⟩ | ⟨-, h⟩ :=
      keep_cases read key (firsts read key candidates) candidate
    · rw [h, List.mem_append, List.mem_singleton] at hx
      rcases hx with hx | rfl
      · exact hbefore hx
      · exact ⟨candidate, by simp, hread⟩
    · exact hbefore (h ▸ hx)

variable {read key} in
omit [DecidableEq κ] in
/-- What is earliest stays so when candidates are added behind it. -/
theorem Earliest.append {candidates : List γ} {i : Nat} {x : α}
    (h : Earliest read key candidates i x) (more : List γ) :
    Earliest read key (candidates ++ more) i x := by
  obtain ⟨⟨candidate, hat, hread⟩, hbefore⟩ := h
  obtain ⟨hi, -⟩ := List.getElem?_eq_some_iff.mp hat
  refine ⟨⟨candidate, by rwa [List.getElem?_append_left hi], hread⟩, fun j hj earlier hmem => ?_⟩
  rw [List.getElem?_append_left (by omega)] at hmem
  exact hbefore j hj earlier hmem

/-- What is kept are the earliest values of each key, in the order of their candidates. -/
theorem exists_positions (candidates : List γ) :
    ∃ positions : List Nat, positions.Pairwise (· < ·) ∧ (∀ i ∈ positions, i < candidates.length) ∧
      List.Forall₂ (Earliest read key candidates) positions (firsts read key candidates) := by
  induction candidates using List.reverseRecOn with
  | nil => exact ⟨[], .nil, by simp, .nil⟩
  | append_singleton candidates candidate ih =>
    obtain ⟨positions, hsorted, hbound, hearliest⟩ := ih
    have hlift : List.Forall₂ (Earliest read key (candidates ++ [candidate])) positions
        (firsts read key candidates) :=
      hearliest.imp fun _ _ h => h.append [candidate]
    rw [firsts_concat]
    obtain ⟨x, hread, hnew, h⟩ | ⟨-, h⟩ :=
      keep_cases read key (firsts read key candidates) candidate
    · refine ⟨positions ++ [candidates.length], ?_, ?_, ?_⟩
      · rw [List.pairwise_append]
        refine ⟨hsorted, List.pairwise_singleton _ _, fun i hi j hj => ?_⟩
        exact List.mem_singleton.mp hj ▸ hbound i hi
      · intro i hi
        rw [List.length_append, List.length_singleton]
        rcases List.mem_append.mp hi with hi | hi
        · exact Nat.lt_succ_of_lt (hbound i hi)
        · exact Nat.lt_succ_of_le (Nat.le_of_eq (List.mem_singleton.mp hi))
      · rw [h]
        refine List.rel_append hlift (.cons ⟨⟨candidate, by simp, hread⟩, ?_⟩ .nil)
        intro j hj earlier hmem y hy
        rw [List.getElem?_append_left hj] at hmem
        obtain ⟨z, hz, hkey⟩ := exists_mem_firsts key (List.mem_of_getElem? hmem) hy
        exact hkey ▸ hnew z hz
    · rw [h]
      refine ⟨positions, hsorted, fun i hi => ?_, hlift⟩
      rw [List.length_append]
      exact Nat.lt_add_right _ (hbound i hi)

variable {read} in
/-- Nothing is kept exactly when nothing is read. -/
theorem firsts_eq_nil_iff {candidates : List γ} :
    firsts read key candidates = [] ↔ ∀ candidate ∈ candidates, read candidate = none := by
  constructor
  · intro h candidate hmem
    cases hread : read candidate with
    | none => rfl
    | some x =>
      obtain ⟨y, hy, -⟩ := exists_mem_firsts key hmem hread
      rw [h] at hy
      cases hy
  · intro h
    refine List.eq_nil_iff_forall_not_mem.mpr fun x hx => ?_
    obtain ⟨candidate, hmem, hread⟩ := exists_of_mem_firsts hx
    rw [h candidate hmem] at hread
    cases hread

end KeepFirst
