import Mathlib.Data.List.TakeWhile
import TrantorCli.Url.RoundTrip

/-!
# The target of a reference

What a reference without a scheme is resolved against is text of the base followed
by the reference. The base's part is encoded already, so the merged text is cut
where the reference is, and the part passes through validation unchanged.
-/

open Roc

namespace TrantorCli.Url

/-- Whether a reference has a path of its own. -/
def hasPath (reference : Str) : Bool :=
  !(reference.isEmpty || startsWith reference (.lit "?") || startsWith reference (.lit "#"))

/-- The part of the base's path that stands in front of the reference. -/
def inheritedPath (base : Url) (reference : Str) : Str :=
  if startsWith reference (.lit "/") then .lit ""
  else if hasPath reference then pathDirectory base.path
  else base.path

/-- The base's query, when the reference has neither a path nor a query. -/
def inheritedQuery (base : Url) (reference : Str) : Str :=
  if reference.isEmpty || startsWith reference (.lit "#") then queryStr base.query else .lit ""

/-- What follows the origin when a reference is merged into the base. -/
def target (base : Url) (reference : Str) : Str :=
  Str.concat (Str.concat (inheritedPath base reference) (inheritedQuery base reference)) reference

/-- Whether the path component of a reference is refused. -/
def pathFails (reference : Str) : Bool :=
  !(validateComponent (splitComponents reference).path .path).isOk

/-! ### Cutting a merged target -/

/-- What is cut at one byte ends before it. -/
theorem cutAt_bytes {str separator : Str} {c : UInt8} (hsep : separator.bytes = [c]) :
    (cutAt str separator).1.bytes = str.bytes.takeWhile (· != c) := by
  cases hsplit : splitFirst str separator with
  | none =>
    have hnot := (splitFirst_eq_none hsep).mp hsplit
    rw [cutAt, hsplit]
    symm
    rw [List.takeWhile_eq_self_iff]
    intro byte hmem
    simp only [bne_iff_ne]
    rintro rfl
    exact hnot hmem
  | some p =>
    obtain ⟨before, after⟩ := p
    obtain ⟨hstr, hnot⟩ := (splitFirst_eq_some hsep).mp hsplit
    rw [cutAt, hsplit, hstr, List.takeWhile_append_of_pos]
    · simp
    · intro byte hmem
      simp only [bne_iff_ne]
      rintro rfl
      exact hnot hmem

/-- Text without the separator stays in front of the cut. -/
theorem cutAt_concat {front str separator : Str} {c : UInt8} (hsep : separator.bytes = [c])
    (hfront : c ∉ front.bytes) :
    cutAt (Str.concat front str) separator =
      (Str.concat front (cutAt str separator).1, (cutAt str separator).2) := by
  cases hsplit : splitFirst str separator with
  | none =>
    have hnot := (splitFirst_eq_none hsep).mp hsplit
    have hwhole : c ∉ (Str.concat front str).bytes := by simp [hfront, hnot]
    rw [cutAt_of_not_mem hsep hwhole, cutAt_of_not_mem hsep hnot]
  | some p =>
    obtain ⟨before, after⟩ := p
    obtain ⟨hstr, hnot⟩ := (splitFirst_eq_some hsep).mp hsplit
    have hwhole : (Str.concat front str).bytes =
        (Str.concat front before).bytes ++ c :: after.bytes := by simp [hstr]
    rw [cutAt_of_bytes hsep hstr hnot, cutAt_of_bytes hsep hwhole (by simp [hfront, hnot])]

/-- Text without `#` and `?` in front of a suffix becomes part of its path. -/
theorem splitComponents_concat {front str : Str} (hhash : 35 ∉ front.bytes)
    (hquestion : 63 ∉ front.bytes) :
    splitComponents (Str.concat front str) =
      { splitComponents str with path := Str.concat front (splitComponents str).path } := by
  simp only [splitComponents, cutAt_concat hash_bytes hhash, cutAt_concat question_bytes hquestion]

private theorem splitComponents_path_bytes (str : Str) :
    (splitComponents str).path.bytes = (str.bytes.takeWhile (· != 35)).takeWhile (· != 63) := by
  simp only [splitComponents]
  rw [cutAt_bytes question_bytes, cutAt_bytes hash_bytes]

/-- An empty reference has an empty path. -/
theorem splitComponents_path_of_isEmpty {reference : Str} (h : reference.bytes = []) :
    (splitComponents reference).path = .lit "" := by
  ext1
  rw [splitComponents_path_bytes, h]
  rfl

/-- A reference that starts with a delimiter has no path. -/
theorem splitComponents_path_of_delimiter {reference : Str} {first : UInt8} {rest : List UInt8}
    (h : reference.bytes = first :: rest) (hfirst : first = 35 ∨ first = 63) :
    (splitComponents reference).path = .lit "" := by
  ext1
  rw [splitComponents_path_bytes, h]
  rcases hfirst with rfl | rfl
  · simp
  · simp

/-- Any other reference has a path that starts as the reference does. -/
theorem splitComponents_path_cons {reference : Str} {first : UInt8} {rest : List UInt8}
    (h : reference.bytes = first :: rest) (hhash : first ≠ 35) (hquestion : first ≠ 63) :
    ∃ tail, (splitComponents reference).path.bytes = first :: tail := by
  refine ⟨(rest.takeWhile (· != 35)).takeWhile (· != 63), ?_⟩
  rw [splitComponents_path_bytes, h, List.takeWhile_cons_of_pos (by simpa using hhash),
    List.takeWhile_cons_of_pos (by simpa using hquestion)]

/-! ### Validation of a merged path -/

/-- Validation keeps the first byte, unless it escapes it. -/
theorem head_of_validateFrom {kind : Kind} {index : Nat} {first : UInt8} {rest out : List UInt8}
    (h : validateFrom kind index (first :: rest) = .ok out) :
    ∃ tail, out = (if first > 127 then 37 else first) :: tail := by
  by_cases hpercent : first = 37
  · subst hpercent
    match rest, h with
    | [], h => cases h
    | [_], h => cases h
    | high :: low :: rest, h =>
      by_cases hhex : (isHex high && isHex low) = true
      · obtain ⟨hhigh, hlow⟩ := Bool.and_eq_true_iff.mp hhex
        rw [validateFrom_escape hhigh hlow, prepend_eq_ok] at h
        obtain ⟨tail, -, rfl⟩ := h
        exact ⟨_, rfl⟩
      · rw [validateFrom_notHex hhex] at h
        cases h
  by_cases hhigh : first > 127
  · rw [validateFrom_high hpercent hhigh, prepend_eq_ok] at h
    obtain ⟨tail, -, rfl⟩ := h
    rw [if_pos hhigh]
    exact ⟨_, rfl⟩
  by_cases hforbidden : isForbidden first kind = true
  · rw [validateFrom_forbidden hpercent hhigh hforbidden] at h
    cases h
  · rw [validateFrom_plain hpercent hhigh hforbidden, prepend_eq_ok] at h
    obtain ⟨tail, -, rfl⟩ := h
    rw [if_neg hhigh]
    exact ⟨_, rfl⟩

private theorem map_bytes_injective {x y : Except ParseErr Str}
    (h : x.map Str.bytes = y.map Str.bytes) : x = y := by
  cases x with
  | error err =>
    cases y with
    | error err' => simpa [Except.map] using h
    | ok value => simp [Except.map] at h
  | ok value =>
    cases y with
    | error err => simp [Except.map] at h
    | ok value' =>
      simp only [Except.map, Except.ok.injEq] at h
      rw [Str.ext h]

/-- The base's part passes through and moves the position of an invalid escape. -/
theorem validateComponent_concat {front : Str} (hfront : Encoded .path front.bytes) (raw : Str) :
    validateComponent (Str.concat front raw) .path =
      ((validateComponent raw .path).map (Str.concat front)).mapError
        (ParseErr.shift front.bytes.length) := by
  apply map_bytes_injective
  have hraw := validateComponent_eq raw .path
  rw [validateComponent_eq, Str.concat_bytes, validateFrom_append hfront, validateFrom_shift,
    ← hraw]
  cases validateComponent raw .path <;> rfl

/-- A merged path is validated with the query and fragment as the path alone is. -/
theorem validateComponents_concat {front : Str} (hfront : Encoded .path front.bytes) (path : Str)
    (query fragment : Option Str) :
    validateComponents (Str.concat front path) query fragment =
      ((validateComponents path query fragment).map fun components =>
        { components with path := Str.concat front components.path }).mapError fun err =>
          if (validateComponent path .path).isOk then err else err.shift front.bytes.length := by
  simp only [validateComponents, validateComponent_concat hfront]
  cases validateComponent path .path with
  | error err => rfl
  | ok value =>
    simp only [Except.map, Except.mapError, Try.ok_bind]
    cases validateOptional query .query with
    | error err => rfl
    | ok encodedQuery => cases validateOptional fragment .fragment <;> rfl

end TrantorCli.Url
