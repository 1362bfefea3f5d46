import Mathlib.Data.List.Basic
import Mathlib.Data.List.Induction

/-!
# Searching written text

A way of writing letters as units keeps a mark to itself when one letter is written
as one unit that the writing of no other letter holds. Such a letter can be looked
for in the units without reading them.
-/

namespace Marked

variable {α β : Type*} {f : α → List β} {c : α} {b : β}

/-- `f` writes `c` as the unit `b`, which is in the writing of nothing else. -/
structure Mark (f : α → List β) (c : α) (b : β) : Prop where
  writes : f c = [b]
  only : ∀ d, b ∈ f d → d = c

/-- The units hold the mark exactly when the letters do. -/
theorem Mark.mem_flatMap_iff (h : Mark f c b) {cs : List α} : b ∈ cs.flatMap f ↔ c ∈ cs := by
  rw [List.mem_flatMap]
  constructor
  · rintro ⟨d, hd, hb⟩
    rw [← h.only d hb]
    exact hd
  · intro hc
    exact ⟨c, hc, by rw [h.writes]; exact List.mem_singleton_self b⟩

/-- Around a marked letter there are the units of what is around it. -/
theorem Mark.flatMap_append_cons (h : Mark f c b) (before after : List α) :
    (before ++ c :: after).flatMap f = before.flatMap f ++ b :: after.flatMap f := by
  rw [List.flatMap_append, List.flatMap_cons, h.writes]
  rfl

/-- The units end with the mark exactly when the letters do. -/
theorem Mark.getLast?_flatMap_iff (h : Mark f c b) (hne : ∀ d, f d ≠ []) (cs : List α) :
    (cs.flatMap f).getLast? = some b ↔ cs.getLast? = some c := by
  induction cs using List.reverseRecOn with
  | nil => simp
  | append_singleton init d _ =>
    rw [List.flatMap_append, List.flatMap_singleton, List.getLast?_append_of_ne_nil _ (hne d),
      List.getLast?_concat, Option.some_inj]
    constructor
    · intro hlast
      exact h.only d (List.mem_of_getLast? hlast)
    · rintro rfl
      rw [h.writes]
      rfl

/-- A mark taken off the end of the units is the letter taken off. -/
theorem Mark.dropLast_flatMap (h : Mark f c b) {cs : List α} (hlast : cs.getLast? = some c) :
    (cs.flatMap f).dropLast = cs.dropLast.flatMap f := by
  obtain ⟨init, rfl⟩ := List.getLast?_eq_some_iff.mp hlast
  rw [List.flatMap_append, List.flatMap_singleton, h.writes, List.dropLast_concat,
    List.dropLast_concat]

end Marked
