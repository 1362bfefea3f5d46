import TrantorCli.Lib.Cut
import TrantorCli.Lib.Marked
import TrantorCli.Lib.SplitOn
import TrantorCli.Path.Filename

/-!
# Cutting at separators and dots

The last part of a path is a matter of its characters: what is behind the last
separator, and what is behind the first dot of that. Both cuts can be made in the
units that characters are written as, where separator and dot are marks.
-/

open Roc Marked

namespace TrantorCli.Path

variable {α : Type}

/-! ### What the operations are about -/

/-- What is behind the last `c`, or all of it. -/
def afterLast [DecidableEq α] (c : α) (l : List α) : List α :=
  (l.reverse.takeWhile (· ≠ c)).reverse

/-- What is behind the first `c`, if there is one. -/
def afterFirst [DecidableEq α] (c : α) (l : List α) : List α := (l.dropWhile (· ≠ c)).drop 1

/-- The name of a path given in characters. -/
def nameOf (path : List Char) : Except FilenameErr (List Char) :=
  if path.getLast? = some '/' then .error .isDirPath
  else if path.getLast? = some '.' ∧ path.dropLast.getLast? = some '.' then .error .endsInDots
  else .ok (afterLast '/' path)

/-- The extension of a name: what is behind its first dot, but for a dot it starts with. -/
def extOf (name : List Char) : List Char := afterFirst '.' (name.drop 1)

/-! ### Indices -/

/-- What is behind an index. -/
theorem afterIndex_append_cons (before after : List α) (c : α) :
    afterIndex (before ++ c :: after) before.length = .ok after := by
  have hlength : (before ++ c :: after).length = before.length + 1 + after.length := by
    rw [List.length_append, List.length_cons]
    omega
  rw [afterIndex, Checked.subLength, hlength, if_pos (Nat.le_add_right _ _), Try.ok_bind, sublist,
    List.drop_length_add_append, Nat.add_sub_cancel_left]
  exact congrArg Except.ok (List.take_of_length_le (Nat.le_refl _))

private theorem findIdx?_append_cons {p : α → Bool} {before after : List α} {c : α}
    (hbefore : ∀ a ∈ before, p a = false) (hc : p c = true) :
    (before ++ c :: after).findIdx? p = some before.length := by
  induction before with
  | nil => rw [List.nil_append, List.findIdx?_cons, if_pos hc, List.length_nil]
  | cons a before ih =>
    have ha : p a = false := hbefore a List.mem_cons_self
    rw [List.cons_append, List.findIdx?_cons, ha,
      ih fun x hx => hbefore x (List.mem_cons_of_mem _ hx)]
    rfl

private theorem findIdx?_eq_none {p : α → Bool} {l : List α} (h : ∀ a ∈ l, p a = false) :
    l.findIdx? p = none :=
  List.findIdx?_eq_none_iff.mpr h

/-- The last index is the one after which there is none. -/
theorem findLastIndex_append_cons {p : α → Bool} {before after : List α} {c : α}
    (hc : p c = true) (hafter : ∀ a ∈ after, p a = false) :
    findLastIndex p (before ++ c :: after) = some before.length := by
  have hreverse : (before ++ c :: after).reverse = after.reverse ++ c :: before.reverse := by simp
  rw [findLastIndex, hreverse,
    findIdx?_append_cons (fun a ha => hafter a (List.mem_reverse.mp ha)) hc,
    Option.map_some, List.length_append, List.length_cons, List.length_reverse]
  congr 1
  omega

variable [DecidableEq α]

/-! ### The helpers -/

/-- A list ends with its last element. -/
theorem endsWith_iff {l : List α} {c : α} : endsWith l c = true ↔ l.getLast? = some c := by
  rw [endsWith]
  cases l.getLast? <;> simp

private theorem endsWithTwo_iff {l : List α} {c d : α} :
    endsWithTwo l c d = true ↔ l.getLast? = some d ∧ l.dropLast.getLast? = some c := by
  obtain ⟨r, rfl⟩ : ∃ r, l = r.reverse := ⟨l.reverse, l.reverse_reverse.symm⟩
  rw [endsWithTwo, List.reverse_reverse, List.getLast?_reverse, List.dropLast_reverse,
    List.getLast?_reverse]
  cases r with
  | nil => simp
  | cons second rest =>
    cases rest with
    | nil => simp
    | cons first rest => simp [and_comm]

private theorem afterLast_append_cons {c : α} {before after : List α} (hafter : c ∉ after) :
    afterLast c (before ++ c :: after) = after := by
  have hreverse : (before ++ c :: after).reverse = after.reverse ++ c :: before.reverse := by simp
  have hnot : c ∉ after.reverse := mt List.mem_reverse.mp hafter
  rw [afterLast, hreverse, (Cut.takeWhile_ne_append hnot before.reverse).1, List.reverse_reverse]

/-- What is not there cuts nothing off. -/
theorem afterLast_of_notMem {c : α} {l : List α} (h : c ∉ l) : afterLast c l = l := by
  have hnot : c ∉ l.reverse := mt List.mem_reverse.mp h
  rw [afterLast, (Cut.takeWhile_ne_of_notMem hnot).1, List.reverse_reverse]

private theorem afterFirst_append_cons {c : α} {before after : List α} (hbefore : c ∉ before) :
    afterFirst c (before ++ c :: after) = after := by
  rw [afterFirst, (Cut.takeWhile_ne_append hbefore after).2]
  rfl

private theorem afterFirst_of_notMem {c : α} {l : List α} (h : c ∉ l) : afterFirst c l = [] := by
  rw [afterFirst, (Cut.takeWhile_ne_of_notMem h).2]
  rfl

/-- The index of the last separator leads to what is behind it. -/
theorem findLastIndex_cases {p : α → Bool} {c : α} {l : List α}
    (hp : ∀ a ∈ l, p a = decide (a = c)) :
    (∃ i, findLastIndex p l = some i ∧ afterIndex l i = .ok (afterLast c l)) ∨
    (findLastIndex p l = none ∧ c ∉ l) := by
  by_cases hmem : c ∈ l
  · obtain ⟨before, after, rfl, hafter⟩ := SplitOn.eq_append_cons_of_mem_last hmem
    have hc : p c = true := by rw [hp c hmem, decide_eq_true rfl]
    have hnot : ∀ a ∈ after, p a = false := fun a ha => by
      rw [hp a (by simp [ha])]
      exact decide_eq_false fun h => hafter (h ▸ ha)
    exact .inl ⟨before.length, findLastIndex_append_cons hc hnot,
      by rw [afterLast_append_cons hafter, afterIndex_append_cons]⟩
  · have hnot : ∀ a ∈ l.reverse, p a = false := fun a ha => by
      rw [hp a (List.mem_reverse.mp ha)]
      exact decide_eq_false fun h => hmem (h ▸ List.mem_reverse.mp ha)
    exact .inr ⟨by rw [findLastIndex, findIdx?_eq_none hnot]; rfl, hmem⟩

/-- The extension is what is behind the first dot that is not at the start. -/
theorem extUnits_eq (dot : α) (units : List α) :
    extUnits dot units = .ok (afterFirst dot (units.drop 1)) := by
  have heq : (dot == dot) = true := beq_self_eq_true dot
  have hne {l : List α} (h : dot ∉ l) : ∀ a ∈ l, (a == dot) = false := fun a ha =>
    beq_eq_false_iff_ne.mpr fun h' => h (h' ▸ ha)
  cases units with
  | nil => rfl
  | cons first rest =>
    rw [List.drop_one, List.tail_cons]
    by_cases hfirst : first = dot
    · subst hfirst
      have hzero : (first :: rest).findIdx? (· == first) = some 0 := by
        rw [List.findIdx?_cons, if_pos heq]
      by_cases hmem : first ∈ rest
      · obtain ⟨before, after, rfl, hbefore⟩ := List.eq_append_cons_of_mem hmem
        rw [extUnits, hzero]
        simp only [List.drop_one, List.tail_cons]
        rw [findIdx?_append_cons (hne hbefore) heq, afterFirst_append_cons hbefore]
        exact afterIndex_append_cons before after first
      · rw [extUnits, hzero]
        simp only [List.drop_one, List.tail_cons]
        rw [findIdx?_eq_none (hne hmem), afterFirst_of_notMem hmem]
    · by_cases hmem : dot ∈ rest
      · obtain ⟨before, after, rfl, hbefore⟩ := List.eq_append_cons_of_mem hmem
        have hbefore' : dot ∉ first :: before := by
          simpa using ⟨Ne.symm hfirst, hbefore⟩
        rw [extUnits, ← List.cons_append, findIdx?_append_cons (hne hbefore') heq,
          List.length_cons, afterFirst_append_cons hbefore]
        exact afterIndex_append_cons (first :: before) after dot
      · have hmem' : dot ∉ first :: rest := by
          simpa using ⟨Ne.symm hfirst, hmem⟩
        rw [extUnits, findIdx?_eq_none (hne hmem'), afterFirst_of_notMem hmem]

/-! ### Written text -/

section Written

variable {β : Type} [DecidableEq β] {f : α → List β} {c : α} {b : β}

omit [DecidableEq α] in
/-- A mark is at the end of the bytes when it is at the end of the characters. -/
theorem endsWith_flatMap (h : Mark f c b) (hne : ∀ d, f d ≠ []) (cs : List α) :
    endsWith (cs.flatMap f) b = true ↔ cs.getLast? = some c := by
  rw [endsWith_iff, h.getLast?_flatMap_iff hne]

omit [DecidableEq α] in
/-- So are two of them. -/
theorem endsWithTwo_flatMap (h : Mark f c b) (hne : ∀ d, f d ≠ []) (cs : List α) :
    endsWithTwo (cs.flatMap f) b b = true ↔
      cs.getLast? = some c ∧ cs.dropLast.getLast? = some c := by
  rw [endsWithTwo_iff, h.getLast?_flatMap_iff hne]
  refine and_congr_right fun hlast => ?_
  rw [h.dropLast_flatMap hlast, h.getLast?_flatMap_iff hne]

/-- What stands after the last mark is encoded. -/
theorem afterLast_flatMap (h : Mark f c b) (cs : List α) :
    afterLast b (cs.flatMap f) = (afterLast c cs).flatMap f := by
  by_cases hmem : c ∈ cs
  · obtain ⟨before, after, rfl, hafter⟩ := SplitOn.eq_append_cons_of_mem_last hmem
    rw [h.flatMap_append_cons, afterLast_append_cons hafter,
      afterLast_append_cons (fun hb => hafter (h.mem_flatMap_iff.mp hb))]
  · rw [afterLast_of_notMem hmem, afterLast_of_notMem fun hb => hmem (h.mem_flatMap_iff.mp hb)]

/-- Letters are longer than their first unit, but no mark is in what is longer. -/
theorem afterFirst_drop_flatMap (h : Mark f c b) (hne : ∀ d, f d ≠ []) (cs : List α) :
    afterFirst b ((cs.flatMap f).drop 1) = (afterFirst c (cs.drop 1)).flatMap f := by
  cases cs with
  | nil => rfl
  | cons d rest =>
    obtain ⟨u, us, hd⟩ := List.exists_cons_of_ne_nil (hne d)
    have hus : b ∉ us := by
      intro hmem
      obtain rfl := h.only d (by rw [hd]; exact List.mem_cons_of_mem u hmem)
      rw [h.writes] at hd
      obtain ⟨-, rfl⟩ := List.cons.inj hd
      cases hmem
    rw [List.flatMap_cons, hd, List.drop_one, List.drop_one, List.cons_append, List.tail_cons,
      List.tail_cons]
    by_cases hmem : c ∈ rest
    · obtain ⟨before, after, rfl, hbefore⟩ := List.eq_append_cons_of_mem hmem
      have hnot : b ∉ us ++ before.flatMap f := by
        rw [List.mem_append, h.mem_flatMap_iff]
        exact not_or.mpr ⟨hus, hbefore⟩
      rw [h.flatMap_append_cons, ← List.append_assoc, afterFirst_append_cons hnot,
        afterFirst_append_cons hbefore]
    · have hnot : b ∉ us ++ rest.flatMap f := by
        rw [List.mem_append, h.mem_flatMap_iff]
        exact not_or.mpr ⟨hus, hmem⟩
      rw [afterFirst_of_notMem hnot, afterFirst_of_notMem hmem]
      rfl

end Written

end TrantorCli.Path
