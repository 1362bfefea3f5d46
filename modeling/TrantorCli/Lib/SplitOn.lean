import Mathlib.Data.List.Basic

/-!
# Splitting a list at one element

`List.splitOn` and `List.intercalate` are inverse to each other; here are the
further facts a program needs that takes pieces off either end: pieces hold no
separator, and joining distributes over appending.
-/

variable {α : Type*}

namespace SplitOn

/-- Joining two non-empty runs of pieces puts one separator between them. -/
theorem intercalate_append {sep : List α} {xs ys : List (List α)} (hxs : xs ≠ []) (hys : ys ≠ []) :
    sep.intercalate (xs ++ ys) = sep.intercalate xs ++ sep ++ sep.intercalate ys := by
  induction xs with
  | nil => exact absurd rfl hxs
  | cons x xs ih =>
    cases xs with
    | nil =>
      rw [List.singleton_append, List.intercalate_cons_of_ne_nil hys, List.intercalate_singleton]
    | cons x' xs =>
      have hne : x' :: xs ≠ [] := by simp
      rw [List.cons_append, List.intercalate_cons_of_ne_nil (by simp), ih hne,
        List.intercalate_cons_of_ne_nil hne]
      simp

/-- Joining one more piece at the end. -/
theorem intercalate_concat {sep x : List α} {xs : List (List α)} (hxs : xs ≠ []) :
    sep.intercalate (xs ++ [x]) = sep.intercalate xs ++ sep ++ x := by
  rw [intercalate_append hxs (by simp), List.intercalate_singleton]

/-- A joined list is as long as its pieces and a separator before each but the first. -/
theorem length_intercalate (sep : List α) {xs : List (List α)} (hxs : xs ≠ []) :
    (sep.intercalate xs).length = xs.flatten.length + sep.length * (xs.length - 1) := by
  induction xs with
  | nil => exact absurd rfl hxs
  | cons x xs ih =>
    by_cases hne : xs = []
    · subst hne
      simp
    · have hpos := List.length_pos_iff.mpr hne
      obtain ⟨n, hn⟩ : ∃ n, xs.length = n + 1 := ⟨xs.length - 1, by omega⟩
      rw [List.intercalate_cons_of_ne_nil hne, List.length_append, List.length_append, ih hne,
        List.flatten_cons, List.length_append, List.length_cons, hn, Nat.add_sub_cancel,
        Nat.add_sub_cancel,
        Nat.mul_succ]
      omega

/-- Every member of a joined list comes from a piece or the separator. -/
theorem mem_intercalate {sep : List α} {xs : List (List α)} {a : α}
    (h : a ∈ sep.intercalate xs) : a ∈ sep ∨ ∃ x ∈ xs, a ∈ x := by
  induction xs with
  | nil => simp at h
  | cons x xs ih =>
    by_cases hne : xs = []
    · subst hne
      rw [List.intercalate_singleton] at h
      exact .inr ⟨x, by simp, h⟩
    · rw [List.intercalate_cons_of_ne_nil hne, List.mem_append, List.mem_append] at h
      rcases h with (hx | hsep) | hrest
      · exact .inr ⟨x, by simp, hx⟩
      · exact .inl hsep
      · rcases ih hrest with hsep | ⟨y, hy, ha⟩
        · exact .inl hsep
        · exact .inr ⟨y, by simp [hy], ha⟩

/-- Every member of a piece is one of the joined list. -/
theorem mem_intercalate_of_mem {sep x : List α} {xs : List (List α)} {a : α} (hx : x ∈ xs)
    (ha : a ∈ x) : a ∈ sep.intercalate xs := by
  induction xs with
  | nil => simp at hx
  | cons y xs ih =>
    by_cases hne : xs = []
    · subst hne
      rw [List.intercalate_singleton]
      rwa [← List.mem_singleton.mp hx]
    · rw [List.intercalate_cons_of_ne_nil hne, List.mem_append, List.mem_append]
      rcases List.mem_cons.mp hx with rfl | hx
      · exact .inl (.inl ha)
      · exact .inr (ih hx)

/-- Joining and mapping commute. -/
theorem map_intercalate {β : Type*} (f : α → β) (sep : List α) (xs : List (List α)) :
    (sep.intercalate xs).map f = (sep.map f).intercalate (xs.map (List.map f)) := by
  induction xs with
  | nil => simp
  | cons x xs ih =>
    by_cases hne : xs = []
    · subst hne
      simp
    · rw [List.map_cons, List.intercalate_cons_of_ne_nil hne,
        List.intercalate_cons_of_ne_nil (by simpa using hne), List.map_append, List.map_append, ih]

/-- A member splits a list at its last occurrence. -/
theorem eq_append_cons_of_mem_last {c : α} {xs : List α} (h : c ∈ xs) :
    ∃ before after, xs = before ++ c :: after ∧ c ∉ after := by
  obtain ⟨after, before, hxs, hafter⟩ := List.eq_append_cons_of_mem (List.mem_reverse.mpr h)
  refine ⟨before.reverse, after.reverse, ?_, by simpa using hafter⟩
  simpa using congrArg List.reverse hxs

variable [DecidableEq α]

/-- A piece holds no separator. -/
theorem not_mem_of_mem {c : α} {xs piece : List α} (h : piece ∈ xs.splitOn c) : c ∉ piece := by
  induction hn : xs.length using Nat.strongRecOn generalizing xs with
  | ind n ih =>
    by_cases hc : c ∈ xs
    · obtain ⟨before, after, rfl, hbefore⟩ := List.eq_append_cons_of_mem hc
      rw [List.splitOn_append_cons_self_of_not_mem hbefore] at h
      rcases List.mem_cons.mp h with rfl | hafter
      · exact hbefore
      · exact ih after.length (by simp at hn; omega) hafter rfl
    · rw [List.splitOn_eq_singleton hc, List.mem_singleton] at h
      exact h ▸ hc

/-- What is in a piece is in the whole. -/
theorem mem_of_mem_piece {c a : α} {xs piece : List α} (h : piece ∈ xs.splitOn c) (ha : a ∈ piece) :
    a ∈ xs := by
  have hjoin : [c].intercalate (xs.splitOn c) = xs := List.intercalate_splitOn c
  rw [← hjoin]
  exact mem_intercalate_of_mem h ha

/-- A list without the separator at the end is the last piece. -/
theorem splitOn_append_last {c : α} (before : List α) {after : List α} (h : c ∉ after) :
    (before ++ c :: after).splitOn c = before.splitOn c ++ [after] := by
  rw [List.splitOn_append_cons_self, List.splitOn_eq_singleton h]

/-- A change of elements that neither makes nor removes separators passes into the pieces. -/
theorem splitOn_map {f : α → α} {c : α} {xs : List α} (h : ∀ a ∈ xs, f a = c ↔ a = c) :
    (xs.map f).splitOn c = (xs.splitOn c).map (List.map f) := by
  induction hn : xs.length using Nat.strongRecOn generalizing xs with
  | ind n ih =>
    by_cases hc : c ∈ xs
    · obtain ⟨before, after, rfl, hbefore⟩ := List.eq_append_cons_of_mem hc
      have hfc : f c = c := (h c hc).mpr rfl
      have hmap : c ∉ before.map f := by
        intro hmem
        obtain ⟨a, ha, hfa⟩ := List.mem_map.mp hmem
        exact hbefore (((h a (by simp [ha])).mp hfa) ▸ ha)
      rw [List.map_append, List.map_cons, hfc, List.splitOn_append_cons_self_of_not_mem hmap,
        List.splitOn_append_cons_self_of_not_mem hbefore, List.map_cons,
        ih after.length (by simp at hn; omega) (fun a ha => h a (by simp [ha])) rfl]
    · have hmap : c ∉ xs.map f := by
        intro hmem
        obtain ⟨a, ha, hfa⟩ := List.mem_map.mp hmem
        exact hc (((h a ha).mp hfa) ▸ ha)
      rw [List.splitOn_eq_singleton hmap, List.splitOn_eq_singleton hc, List.map_singleton]

end SplitOn
