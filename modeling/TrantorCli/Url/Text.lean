import TrantorCli.Lib.SplitOn
import TrantorCli.Lib.Str

/-!
# String helpers of the URL parser

`Url.roc` builds its prefix and delimiter tests from `Str.split_on` and
`Str.join_with`. Each helper gets one lemma that says which bytes it looks for,
and later files use those lemmas only.
-/

open Roc

namespace TrantorCli.Url

/-- `split_first` -/
def splitFirst (str separator : Str) : Option (Str × Str) :=
  let parts := str.splitOn separator
  if parts.length > 1 then
    match parts[0]? with
    | some before => some (before, Str.joinWith (parts.drop 1) separator)
    | none => none
  else none

/-- `split_last` -/
def splitLast (str separator : Str) : Option (Str × Str) :=
  let parts := str.splitOn separator
  if parts.length > 1 then
    match parts[parts.length - 1]? with
    | some after => some (Str.joinWith parts.dropLast separator, after)
    | none => none
  else none

/-- `starts_with` -/
def startsWith (str pre : Str) : Bool :=
  if pre.isEmpty then true
  else
    match splitFirst str pre with
    | some (before, _) => before.isEmpty
    | none => false

/-- `ends_with` -/
def endsWith (str suffix : Str) : Bool :=
  if suffix.isEmpty then true
  else
    let parts := str.splitOn suffix
    match parts[parts.length - 1]? with
    | some last => last.isEmpty
    | none => false

/-- `drop_prefix` -/
def dropPrefix (str pre : Str) : Str := Str.joinWith ((str.splitOn pre).drop 1) pre

/-- `get_or_empty` -/
def getOrEmpty (list : List Str) (index : Nat) : Str := list.getD index (.lit "")

/-! ### The literals the parser looks for -/

/-- Nothing -/
@[simp] theorem empty_bytes : (Str.lit "").bytes = [] := rfl

/-- `/` -/
@[simp] theorem slash_bytes : (Str.lit "/").bytes = [47] := rfl

/-- `//` -/
@[simp] theorem twoSlashes_bytes : (Str.lit "//").bytes = [47, 47] := rfl

/-- `:` -/
@[simp] theorem colon_bytes : (Str.lit ":").bytes = [58] := rfl

/-- `::` -/
@[simp] theorem twoColons_bytes : (Str.lit "::").bytes = [58, 58] := rfl

/-- `.` -/
@[simp] theorem dot_bytes : (Str.lit ".").bytes = [46] := rfl

/-- `?` -/
@[simp] theorem question_bytes : (Str.lit "?").bytes = [63] := rfl

/-- `#` -/
@[simp] theorem hash_bytes : (Str.lit "#").bytes = [35] := rfl

/-- `@` -/
@[simp] theorem at_bytes : (Str.lit "@").bytes = [64] := rfl

/-- `[` -/
@[simp] theorem leftBracket_bytes : (Str.lit "[").bytes = [91] := rfl

/-- `]` -/
@[simp] theorem rightBracket_bytes : (Str.lit "]").bytes = [93] := rfl

/-! ### What each helper looks for -/

/-- `split_first` cuts at the leftmost occurrence. -/
theorem splitFirst_eq {str separator : Str} (hsep : separator.bytes ≠ []) :
    (splitFirst str separator).map (fun p => (p.1.bytes, p.2.bytes)) =
      Cut.cut separator.bytes str.bytes := by
  cases hcut : Cut.cut separator.bytes str.bytes with
  | none =>
    rw [splitFirst, Str.splitOn_of_cut_none hcut]
    rfl
  | some p =>
    obtain ⟨before, after⟩ := p
    obtain ⟨first, rest, hparts, hne, hfirst, hrest⟩ := Str.splitOn_of_cut hsep hcut
    have hlen : (first :: rest).length > 1 := by
      have := List.length_pos_iff.mpr hne
      simp only [List.length_cons]
      omega
    rw [splitFirst, hparts]
    simp only [hlen, if_true, List.getElem?_cons_zero, List.drop_one, List.tail_cons,
      Option.map_some, hfirst, hrest]

/-- A separator of one byte is not found where it is not. -/
theorem splitFirst_eq_none {str separator : Str} {c : UInt8} (hsep : separator.bytes = [c]) :
    splitFirst str separator = none ↔ c ∉ str.bytes := by
  rw [← Cut.cut_singleton_eq_none, ← hsep, ← splitFirst_eq (by simp [hsep]), Option.map_eq_none_iff]

/-- A separator of one byte cuts at its first occurrence. -/
theorem splitFirst_eq_some {str separator before after : Str} {c : UInt8}
    (hsep : separator.bytes = [c]) :
    splitFirst str separator = some (before, after) ↔
      str.bytes = before.bytes ++ c :: after.bytes ∧ c ∉ before.bytes := by
  rw [← Cut.cut_singleton_eq_some, ← hsep, ← splitFirst_eq (by simp [hsep])]
  constructor
  · intro h
    rw [h]
    rfl
  · intro h
    obtain ⟨⟨b, a⟩, hsplit, hpair⟩ := Option.map_eq_some_iff.mp h
    obtain ⟨hb, ha⟩ := Prod.mk.inj hpair
    rw [hsplit]
    exact congrArg some (Prod.ext (Str.ext hb) (Str.ext ha))

/-- `starts_with` tests for a prefix. -/
theorem startsWith_iff {str pre : Str} : startsWith str pre = true ↔ pre.bytes <+: str.bytes := by
  unfold startsWith
  by_cases hempty : pre.isEmpty = true
  · rw [if_pos hempty, Str.isEmpty_iff.mp hempty]
    simp
  · have hne : pre.bytes ≠ [] := mt Str.isEmpty_iff.mpr hempty
    rw [if_neg hempty, ← Cut.cut_nil_iff hne, ← splitFirst_eq hne]
    cases splitFirst str pre with
    | none => simp
    | some p => simp

/-- `drop_prefix` takes a prefix away. -/
theorem dropPrefix_bytes {str pre : Str} {rest : List UInt8} (hpre : pre.bytes ≠ [])
    (h : str.bytes = pre.bytes ++ rest) : (dropPrefix str pre).bytes = rest := by
  have hcut : Cut.cut pre.bytes str.bytes = some ([], rest) := by
    rw [h]
    exact Cut.cut_of_prefix hpre
  obtain ⟨first, parts, hparts, -, -, hrest⟩ := Str.splitOn_of_cut hpre hcut
  rw [dropPrefix, hparts]
  exact hrest

/-- `split_last` finds nothing when the separator does not occur. -/
theorem splitLast_of_not_mem {str separator : Str} {c : UInt8} (hsep : separator.bytes = [c])
    (h : c ∉ str.bytes) : splitLast str separator = none := by
  have hcut : Cut.cut separator.bytes str.bytes = none := by
    rw [hsep]
    exact Cut.cut_singleton_eq_none.mpr h
  rw [splitLast, Str.splitOn_of_cut_none hcut]
  rfl

/-- `split_last` cuts at the rightmost occurrence. -/
theorem splitLast_of_eq {str separator before after : Str} {c : UInt8}
    (hsep : separator.bytes = [c]) (h : str.bytes = before.bytes ++ c :: after.bytes)
    (hafter : c ∉ after.bytes) : splitLast str separator = some (before, after) := by
  have hmap := Str.splitOn_bytes str separator
  rw [hsep, Cut.pieces_singleton, h, SplitOn.splitOn_append_last _ hafter] at hmap
  obtain ⟨init, last, hparts⟩ : ∃ init last, str.splitOn separator = init ++ [last] :=
    ⟨_, _, (List.dropLast_concat_getLast (Str.splitOn_ne_nil str separator)).symm⟩
  rw [hparts, List.map_append, List.map_singleton] at hmap
  obtain ⟨hinit, hlast⟩ := List.append_inj' hmap rfl
  have hlast' : last = after := Str.ext (List.singleton_inj.mp hlast)
  have hinit' : Str.joinWith init separator = before := by
    ext1
    rw [Str.joinWith_bytes, hsep, hinit, List.intercalate_splitOn]
  have hne : init ≠ [] := by
    rintro rfl
    exact List.splitOn_ne_nil _ _ hinit.symm
  rw [splitLast, hparts]
  simp [hlast', hinit', hne]

/-! ### Parts of a string that fits -/

/-- A string without its prefix is in range. -/
theorem fits_dropPrefix {str pre : Str} (hpre : pre.bytes ≠ []) (h : str.Fits) :
    (dropPrefix str pre).Fits := by
  cases hcut : Cut.cut pre.bytes str.bytes with
  | none =>
    rw [dropPrefix, Str.splitOn_of_cut_none hcut]
    exact Nat.zero_lt_of_lt h
  | some p =>
    obtain ⟨before, after⟩ := p
    obtain ⟨first, parts, hparts, -, -, hrest⟩ := Str.splitOn_of_cut hpre hcut
    have hlen := congrArg List.length (Cut.eq_of_cut hcut)
    simp only [List.length_append] at hlen
    rw [dropPrefix, hparts, Str.Fits, show (first :: parts).drop 1 = parts from rfl, hrest]
    unfold Str.Fits at h
    omega

/-- Both parts of a string that was cut are in range. -/
theorem fits_splitFirst {str separator before after : Str} {c : UInt8}
    (hsep : separator.bytes = [c]) (hcut : splitFirst str separator = some (before, after))
    (h : str.Fits) : before.Fits ∧ after.Fits := by
  have hlen := congrArg List.length ((splitFirst_eq_some hsep).mp hcut).1
  rw [List.length_append, List.length_cons] at hlen
  unfold Str.Fits at *
  exact ⟨by omega, by omega⟩

end TrantorCli.Url
