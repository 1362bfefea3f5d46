import TrantorCli.Lib.DotSegments
import TrantorCli.Url.Path

/-!
# Normalization removes dot segments

`normalize_path` works on a list of segments with special cases for the last
one, the algorithm of RFC 3986 §5.2.4 on the bytes of a buffer. One round of the
algorithm's loop does to the buffers what one step of `normalize_segments` does
to the lists, so both end with the same path.
-/

open Roc DotSegments

namespace TrantorCli.Url

/-- `remove_dot_segments` on the bytes of a path. -/
def removeDots (path : List UInt8) : List UInt8 := removeDotSegments 47 46 path

/-- Segments as the buffers hold them, each behind its slash. -/
def buffer (segments : List Str) : List UInt8 := segments.flatMap fun segment => 47 :: segment.bytes

/-- No segments, no bytes. -/
@[simp] theorem buffer_nil : buffer [] = [] := rfl

/-- The first segment comes first, after a slash. -/
@[simp] theorem buffer_cons (first : Str) (rest : List Str) :
    buffer (first :: rest) = 47 :: (first.bytes ++ buffer rest) := rfl

/-- The last segment comes last, after a slash. -/
@[simp] theorem buffer_concat (segments : List Str) (last : Str) :
    buffer (segments ++ [last]) = buffer segments ++ 47 :: last.bytes := by
  simp [buffer]

private theorem follows_buffer (segments : List Str) : Follows 47 (buffer segments) := by
  cases segments with
  | nil => exact .inl rfl
  | cons first rest => exact .inr ⟨_, rfl⟩

/-- A joined path is its segments' buffer. -/
theorem buffer_eq {segments : List Str} (h : segments ≠ []) :
    buffer segments = 47 :: (Str.joinWith segments (.lit "/")).bytes := by
  rw [Str.joinWith_bytes, slash_bytes]
  induction segments with
  | nil => exact absurd rfl h
  | cons first rest ih =>
    by_cases hrest : rest = []
    · subst hrest
      simp
    · rw [buffer_cons, ih hrest, List.map_cons,
        List.intercalate_cons_of_ne_nil (by simpa using hrest)]
      simp

private theorem dropLastSegment_buffer {out : List Str} (h : ∀ segment ∈ out, 47 ∉ segment.bytes) :
    dropLastSegment 47 (buffer out) = buffer out.dropLast := by
  rcases List.eq_nil_or_concat out with rfl | ⟨init, last, rfl⟩
  · rfl
  · rw [List.concat_eq_append] at h ⊢
    rw [buffer_concat, dropLastSegment_concat _ (h last (by simp)), List.dropLast_concat]

/-- The algorithm does to the buffers what `normalize_segments` does to the lists. -/
theorem removeFrom_buffer {segments out : List Str}
    (hsegments : ∀ segment ∈ segments, 47 ∉ segment.bytes)
    (hout : ∀ segment ∈ out, 47 ∉ segment.bytes) :
    removeFrom 47 46 (buffer segments) (buffer out) = buffer (normalizeSegments segments out) := by
  have hne : (46 : UInt8) ≠ 47 := by decide
  induction segments generalizing out with
  | nil => exact removeFrom_nil _
  | cons first rest ih =>
    have hfirst := hsegments first (by simp)
    have hdropped : ∀ segment ∈ out.dropLast, 47 ∉ segment.bytes := fun segment hmem =>
      hout segment (List.dropLast_subset out hmem)
    have ih' : ∀ kept : List Str, (∀ segment ∈ kept, 47 ∉ segment.bytes) →
        removeFrom 47 46 (buffer rest) (buffer kept) = buffer (normalizeSegments rest kept) :=
      fun _ hkept => ih (fun s hs => hsegments s (by simp [hs])) hkept
    rw [normalizeSegments]
    by_cases hdot : first = .lit "."
    · subst hdot
      rw [if_pos (by decide)]
      cases rest with
      | nil =>
        rw [if_pos List.isEmpty_nil, buffer_concat]
        exact (removeFrom_dot hne [] _).1
      | cons next rest =>
        rw [if_neg (by simp)]
        exact (removeFrom_dot hne _ _).2.trans (ih' out hout)
    rw [if_neg (by simpa using hdot)]
    by_cases hdots : first = .lit ".."
    · subst hdots
      rw [if_pos (by decide)]
      cases rest with
      | nil =>
        rw [if_pos List.isEmpty_nil, buffer_concat, ← dropLastSegment_buffer hout]
        exact (removeFrom_dots hne [] _).1
      | cons next rest =>
        rw [if_neg (by simp)]
        have hstep := (removeFrom_dots hne (next.bytes ++ buffer rest) (buffer out)).2
        rw [dropLastSegment_buffer hout] at hstep
        exact hstep.trans (ih' _ hdropped)
    rw [if_neg (by simpa using hdots), buffer_cons,
      removeFrom_segment hne hfirst (fun h => hdot (Str.ext h)) (fun h => hdots (Str.ext h))
        (follows_buffer rest), ← buffer_concat]
    refine ih' _ fun segment hmem => ?_
    rcases List.mem_append.mp hmem with hmem | hmem
    · exact hout segment hmem
    · exact List.mem_singleton.mp hmem ▸ hfirst

/-- Normalizing twice is normalizing once. -/
theorem normalizePath_normalizePath (path : Str) :
    normalizePath (normalizePath path) = normalizePath path := by
  obtain ⟨segments, hne, hslash, -, hpath⟩ := exists_normalizePath path
  rw [hpath]
  exact normalizePath_of_noDots (normalizeSegments_ne_nil hne [])
    (slash_not_mem_normalizeSegments hslash) (noDots_normalizeSegments segments)

/-- Normalization of a rooted path is the removal of its dot segments, and has nothing left to do
on its own result. -/
theorem normalizePath_eq_removeDots {path : Str} (h : [47] <+: path.bytes) :
    (normalizePath path).bytes = removeDots path.bytes ∧
      normalizePath (normalizePath path) = normalizePath path := by
  obtain ⟨segments, hne, hslash, hrooted, hpath⟩ := exists_normalizePath path
  rw [if_pos (startsWith_iff.mpr h)] at hrooted
  have hbytes : ∀ segments : List Str, segments ≠ [] →
      (Str.joinWith (.lit "" :: segments) (.lit "/")).bytes = buffer segments := by
    intro segments hne
    rw [buffer_eq hne, ← slash_concat_joinWith hne]
    rfl
  refine ⟨?_, normalizePath_normalizePath path⟩
  rw [hpath, hbytes _ (normalizeSegments_ne_nil hne []), ← hrooted, hbytes _ hne]
  exact (removeFrom_buffer hslash (by simp)).symm

/-- More `..` than segments, an empty segment and a final `.`. -/
theorem normalizePath_eq_removeDots_climbing :
    (normalizePath (.lit "/a/../..//b/.")).bytes = removeDots (Str.lit "/a/../..//b/.").bytes ∧
      normalizePath (normalizePath (.lit "/a/../..//b/.")) =
        normalizePath (.lit "/a/../..//b/.") :=
  normalizePath_eq_removeDots ⟨_, rfl⟩

end TrantorCli.Url
