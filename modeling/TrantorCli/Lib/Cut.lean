import Mathlib.Data.List.Basic
import Mathlib.Data.List.TakeWhile

/-!
# Cutting a list at a separator

`cut` finds the leftmost occurrence of a separator and `pieces` repeats it, as
string splitting does. For a one-element separator `pieces` is the standard
`List.splitOn`, so its theory applies; for longer separators the facts below
are what a parser needs.
-/

variable {α : Type*} [DecidableEq α]

namespace Cut

/-- The parts of `xs` before and after the leftmost occurrence of `sep`. -/
def cut (sep : List α) : List α → Option (List α × List α)
  | [] => none
  | x :: xs =>
    if sep.isPrefixOf (x :: xs) then some ([], (x :: xs).drop sep.length)
    else (cut sep xs).map fun (before, after) => (x :: before, after)

/-- A separator at the front is cut off. -/
theorem cut_of_prefix {sep rest : List α} (hsep : sep ≠ []) :
    cut sep (sep ++ rest) = some ([], rest) := by
  cases sep with
  | nil => exact absurd rfl hsep
  | cons s sep =>
    have hpre : (s :: sep).isPrefixOf (s :: (sep ++ rest)) = true :=
      List.isPrefixOf_iff_prefix.mpr ⟨rest, rfl⟩
    rw [List.cons_append, cut, if_pos hpre]
    simp

/-- The two parts of a cut surround one separator. -/
theorem eq_of_cut {sep xs before after : List α} (h : cut sep xs = some (before, after)) :
    xs = before ++ sep ++ after := by
  induction xs generalizing before with
  | nil => simp [cut] at h
  | cons x xs ih =>
    rw [cut] at h
    split at h
    · next hpre =>
      obtain ⟨rest, hrest⟩ := List.isPrefixOf_iff_prefix.mp hpre
      cases h
      rw [← hrest]
      simp
    · cases hcut : cut sep xs with
      | none => simp [hcut] at h
      | some p =>
        obtain ⟨b, a⟩ := p
        simp only [hcut, Option.map_some, Option.some.injEq, Prod.mk.injEq] at h
        obtain ⟨rfl, rfl⟩ := h
        rw [ih hcut]
        simp

/-- Nothing precedes the leftmost separator exactly when the list starts with it. -/
theorem cut_nil_iff {sep xs : List α} (hsep : sep ≠ []) :
    (∃ after, cut sep xs = some ([], after)) ↔ sep <+: xs := by
  constructor
  · rintro ⟨after, h⟩
    exact ⟨after, by simpa using (eq_of_cut h).symm⟩
  · rintro ⟨rest, rfl⟩
    exact ⟨rest, cut_of_prefix hsep⟩

private theorem length_of_cut {sep xs before after : List α}
    (h : cut sep xs = some (before, after)) :
    xs.length = before.length + sep.length + after.length := by
  have hlen := congrArg List.length (eq_of_cut h)
  simp only [List.length_append] at hlen
  exact hlen

/-- The parts of `xs` between the occurrences of `sep`, from the left. -/
def pieces (sep xs : List α) : List (List α) :=
  if sep = [] then [xs]
  else
    match _h : cut sep xs with
    | none => [xs]
    | some (before, after) => before :: pieces sep after
termination_by xs.length
decreasing_by
  have hlen := length_of_cut _h
  have hpos := List.length_pos_iff.mpr ‹sep ≠ []›
  omega

/-- What has no separator is one piece. -/
theorem pieces_of_cut_none {sep xs : List α} (h : cut sep xs = none) : pieces sep xs = [xs] := by
  rw [pieces]
  split
  · rfl
  · split
    · rfl
    · next h' => rw [h] at h'; cases h'

/-- The first piece is what stands before the first separator. -/
theorem pieces_of_cut_some {sep xs before after : List α} (hsep : sep ≠ [])
    (h : cut sep xs = some (before, after)) : pieces sep xs = before :: pieces sep after := by
  rw [pieces, if_neg hsep]
  split
  · next h' => rw [h] at h'; cases h'
  · next b a h' =>
    rw [h] at h'
    cases h'
    rfl

/-- There is always a piece. -/
theorem pieces_ne_nil (sep xs : List α) : pieces sep xs ≠ [] := by
  rw [pieces]
  split
  · simp
  · split <;> simp

/-- Joining the pieces puts the list back together. -/
theorem intercalate_pieces (sep xs : List α) : sep.intercalate (pieces sep xs) = xs := by
  induction hn : xs.length using Nat.strongRecOn generalizing xs with
  | ind n ih =>
    by_cases hsep : sep = []
    · rw [pieces, if_pos hsep]
      simp
    cases hcut : cut sep xs with
    | none => rw [pieces_of_cut_none hcut]; simp
    | some p =>
      obtain ⟨before, after⟩ := p
      have hlen := length_of_cut hcut
      have hpos := List.length_pos_iff.mpr hsep
      rw [pieces_of_cut_some hsep hcut,
        List.intercalate_cons_of_ne_nil (pieces_ne_nil sep after),
        ih after.length (by omega) after rfl]
      exact (eq_of_cut hcut).symm

/-- Every property that a cut hands to both of its parts holds of every piece. -/
theorem forall_mem_pieces {p : List α → Prop} {sep xs : List α} (hxs : p xs)
    (hcut : ∀ {before after}, p (before ++ sep ++ after) → p before ∧ p after) :
    ∀ piece ∈ pieces sep xs, p piece := by
  induction hn : xs.length using Nat.strongRecOn generalizing xs with
  | ind n ih =>
    by_cases hsep : sep = []
    · rw [pieces, if_pos hsep]
      simpa using hxs
    cases h : cut sep xs with
    | none => rw [pieces_of_cut_none h]; simpa using hxs
    | some q =>
      obtain ⟨before, after⟩ := q
      have hlen := length_of_cut h
      have hpos := List.length_pos_iff.mpr hsep
      rw [eq_of_cut h] at hxs
      obtain ⟨hbefore, hafter⟩ := hcut hxs
      rw [pieces_of_cut_some hsep h]
      intro piece hpiece
      rcases List.mem_cons.mp hpiece with rfl | hmem
      · exact hbefore
      · exact ih after.length (by omega) hafter rfl piece hmem

/-! ### One-element separators -/

private theorem cut_singleton_of_not_mem {c : α} {before after : List α} (h : c ∉ before) :
    cut [c] (before ++ c :: after) = some (before, after) := by
  induction before with
  | nil => exact cut_of_prefix (by simp)
  | cons x before ih =>
    obtain ⟨hx, hrest⟩ := not_or.mp (mt List.mem_cons.mpr h)
    have hpre : [c].isPrefixOf (x :: (before ++ c :: after)) = false := by
      simp [List.isPrefixOf, hx]
    rw [List.cons_append, cut, hpre, ih hrest]
    rfl

/-- One element cuts nothing that does not have it. -/
theorem cut_singleton_eq_none {c : α} {xs : List α} : cut [c] xs = none ↔ c ∉ xs := by
  constructor
  · intro h hmem
    obtain ⟨before, after, rfl, hbefore⟩ := List.eq_append_cons_of_mem hmem
    rw [cut_singleton_of_not_mem hbefore] at h
    cases h
  · intro h
    cases hcut : cut [c] xs with
    | none => rfl
    | some p =>
      obtain ⟨before, after⟩ := p
      rw [eq_of_cut hcut] at h
      simp at h

/-- One element cuts at its first occurrence. -/
theorem cut_singleton_eq_some {c : α} {xs before after : List α} :
    cut [c] xs = some (before, after) ↔ xs = before ++ c :: after ∧ c ∉ before := by
  constructor
  · intro h
    have heq : xs = before ++ c :: after := by simpa using eq_of_cut h
    refine ⟨heq, fun hmem => ?_⟩
    obtain ⟨b, a, hbefore, hnot⟩ := List.eq_append_cons_of_mem hmem
    have hcut : cut [c] (b ++ c :: (a ++ c :: after)) = some (b, a ++ c :: after) :=
      cut_singleton_of_not_mem hnot
    rw [heq, hbefore] at h
    simp only [List.append_assoc, List.cons_append] at h hcut
    rw [hcut] at h
    have hlen := congrArg (fun o => o.map fun p : List α × List α => p.1.length) h
    simp at hlen
  · rintro ⟨rfl, h⟩
    exact cut_singleton_of_not_mem h

/-- A list is cut at the first occurrence of an element in one way. -/
theorem append_cons_inj {c : α} {before after before' after' : List α} (h : c ∉ before)
    (h' : c ∉ before') (heq : before ++ c :: after = before' ++ c :: after') :
    before = before' ∧ after = after' := by
  have hcut := @cut_singleton_of_not_mem _ _ _ _ after h
  rw [heq, cut_singleton_of_not_mem h'] at hcut
  obtain ⟨hbefore, hafter⟩ := Prod.mk.inj (Option.some.inj hcut)
  exact ⟨hbefore.symm, hafter.symm⟩

/-- Splitting at one element is the standard `List.splitOn`. -/
theorem pieces_singleton (c : α) (xs : List α) : pieces [c] xs = xs.splitOn c := by
  induction hn : xs.length using Nat.strongRecOn generalizing xs with
  | ind n ih =>
    cases hcut : cut [c] xs with
    | none =>
      rw [pieces_of_cut_none hcut, List.splitOn_eq_singleton (cut_singleton_eq_none.mp hcut)]
    | some p =>
      obtain ⟨before, after⟩ := p
      obtain ⟨rfl, hbefore⟩ := cut_singleton_eq_some.mp hcut
      rw [pieces_of_cut_some (by simp) hcut,
        List.splitOn_append_cons_self_of_not_mem hbefore,
        ih after.length (by simp at hn; omega) _ rfl]

/-! ### The first element of a kind -/

omit [DecidableEq α] in
/-- A list is cut where its elements cease to have a property. -/
theorem takeWhile_append_exact {p : α → Bool} {front back : List α}
    (hfront : ∀ x ∈ front, p x = true) (hback : ∀ x ∈ back.head?, p x = false) :
    (front ++ back).takeWhile p = front ∧ (front ++ back).dropWhile p = back := by
  rw [List.takeWhile_append_of_pos hfront, List.dropWhile_append_of_pos hfront]
  cases back with
  | nil => simp
  | cons x back =>
    have hx : ¬p x = true := by simp [hback x rfl]
    rw [List.takeWhile_cons_of_neg hx, List.dropWhile_cons_of_neg hx, List.append_nil]
    exact ⟨rfl, rfl⟩

/-- A list is cut at the first occurrence of an element. -/
theorem takeWhile_ne_append {c : α} {front : List α} (h : c ∉ front) (back : List α) :
    (front ++ c :: back).takeWhile (· ≠ c) = front ∧
      (front ++ c :: back).dropWhile (· ≠ c) = c :: back :=
  takeWhile_append_exact (fun _ hx => decide_eq_true fun hxc => h (hxc ▸ hx)) (by simp)

/-- Nothing is cut off a list without the element. -/
theorem takeWhile_ne_of_notMem {c : α} {xs : List α} (h : c ∉ xs) :
    xs.takeWhile (· ≠ c) = xs ∧ xs.dropWhile (· ≠ c) = [] := by
  have hall : ∀ x ∈ xs, decide (x ≠ c) = true := fun _ hx => decide_eq_true fun hxc => h (hxc ▸ hx)
  exact ⟨List.takeWhile_eq_self_iff.mpr hall, List.dropWhile_eq_nil_iff.mpr hall⟩

/-- What precedes an element is a list of its own, or what the element follows. -/
theorem takeWhile_ne_eq_iff {c : α} {xs front : List α} (h : c ∉ front) :
    xs.takeWhile (· ≠ c) = front ↔ xs = front ∨ front ++ [c] <+: xs := by
  constructor
  · rintro rfl
    have hcut := List.takeWhile_append_dropWhile (p := (· ≠ c)) (l := xs)
    cases hdrop : xs.dropWhile (· ≠ c) with
    | nil => exact .inl (by rw [hdrop, List.append_nil] at hcut; exact hcut.symm)
    | cons y back =>
      have hy := List.head?_dropWhile_not (fun x => decide (x ≠ c)) xs
      rw [hdrop] at hy hcut
      obtain rfl : y = c := by simpa using hy
      exact .inr ⟨back, by rw [List.append_assoc]; exact hcut⟩
  · rintro (rfl | ⟨back, rfl⟩)
    · exact (takeWhile_ne_of_notMem h).1
    · rw [List.append_assoc]
      exact (takeWhile_ne_append h back).1

omit [DecidableEq α] in
/-- A prefix of what has a property is a prefix that has it. -/
theorem prefix_takeWhile_iff {p : α → Bool} {front xs : List α} :
    front <+: xs.takeWhile p ↔ front <+: xs ∧ ∀ x ∈ front, p x = true := by
  constructor
  · intro h
    exact ⟨h.trans (List.takeWhile_prefix p), fun x hx => List.mem_takeWhile_imp (h.subset hx)⟩
  · rintro ⟨⟨back, rfl⟩, h⟩
    rw [List.takeWhile_append_of_pos h]
    exact List.prefix_append _ _

omit [DecidableEq α] in
/-- As many elements as have a property from the start have it. -/
theorem forall_mem_take {p : α → Bool} {xs : List α} {k : ℕ} (h : k ≤ (xs.takeWhile p).length) :
    ∀ x ∈ xs.take k, p x = true := by
  intro x hx
  have hstart : xs.take k <+: xs.takeWhile p :=
    List.prefix_of_prefix_length_le (List.take_prefix _ _) (List.takeWhile_prefix _)
      (by rw [List.length_take]; omega)
  exact List.mem_takeWhile_imp (hstart.subset hx)

omit [DecidableEq α] in
/-- All of the first `k` satisfy `p` when at least `k` do in a row. -/
theorem forall_mem_take_iff {p : α → Bool} {xs : List α} {k : ℕ} (hk : k ≤ xs.length) :
    (∀ x ∈ xs.take k, p x = true) ↔ k ≤ (xs.takeWhile p).length := by
  refine ⟨fun h => ?_, forall_mem_take⟩
  rw [← List.take_append_drop k xs, List.takeWhile_append_of_pos h, List.length_append,
    List.length_take, Nat.min_eq_left hk]
  omega

/-! ### Doubled separators -/

/-- A doubled separator is found behind text that neither holds it nor ends in half of it. -/
theorem cut_pair {c : α} {before after : List α} (h : cut [c, c] before = none)
    (hlast : before.getLast? ≠ some c) :
    cut [c, c] (before ++ [c, c] ++ after) = some (before, after) := by
  induction before with
  | nil => exact cut_of_prefix (by simp)
  | cons x before ih =>
    rw [cut] at h
    split at h
    · cases h
    next hpre =>
    have hpre' : ¬[c, c].isPrefixOf (x :: (before ++ [c, c] ++ after)) = true := by
      cases before with
      | nil =>
        have hx : ¬c = x := fun heq => hlast (by rw [heq, List.getLast?_singleton])
        simp [hx]
      | cons y before => simpa using hpre
    have hrest : before.getLast? ≠ some c := by
      cases before with
      | nil => simp
      | cons y before => rwa [List.getLast?_cons_cons] at hlast
    rw [List.cons_append, List.cons_append, cut, if_neg hpre',
      ih (Option.map_eq_none_iff.mp h) hrest]
    rfl

/-- Text that is joined from parts, none empty, has no separator at its end and no doubled one. -/
theorem cut_pair_intercalate {c : α} {parts : List (List α)}
    (h : ∀ part ∈ parts, part ≠ [] ∧ c ∉ part) :
    cut [c, c] ([c].intercalate parts) = none ∧ ([c].intercalate parts).getLast? ≠ some c := by
  by_cases hparts : parts = []
  · subst hparts
    exact ⟨rfl, by simp⟩
  have hsplit : ([c].intercalate parts).splitOn c = parts :=
    List.splitOn_intercalate c (fun part hpart => (h part hpart).2) hparts
  have hempty : [] ∉ ([c].intercalate parts).splitOn c := by
    rw [hsplit]
    exact fun hmem => (h [] hmem).1 rfl
  constructor
  · cases hcut : cut [c, c] ([c].intercalate parts) with
    | none => rfl
    | some p =>
      obtain ⟨before, after⟩ := p
      apply absurd _ hempty
      rw [eq_of_cut hcut, List.append_assoc, List.cons_append, List.cons_append, List.nil_append,
        List.splitOn_append_cons_self, ← List.nil_append (c :: after),
        List.splitOn_append_cons_self]
      simp
  · intro hlast
    obtain ⟨init, hinit⟩ := List.getLast?_eq_some_iff.mp hlast
    apply hempty
    rw [hinit, List.splitOn_append_cons_self]
    simp

end Cut
