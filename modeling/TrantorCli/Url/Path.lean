import TrantorCli.Url.Encoded
import TrantorCli.Url.Text

/-!
# Path normalization

`normalize_path` splits a path into segments, drops the dot segments and joins
the rest. Its results are exactly the paths it leaves alone, which `NormalPath`
names: rooted, encoded and without a dot segment.
-/

open Roc

namespace TrantorCli.Url

/-- `is_dot_segment` -/
def isDotSegment (segment : Str) : Bool := segment == .lit "." || segment == .lit ".."

/-- `normalize_segments` -/
def normalizeSegments (segments out : List Str) : List Str :=
  match segments with
  | [] => out
  | first :: rest =>
    if first == .lit "." then
      if rest.isEmpty then out ++ [.lit ""] else normalizeSegments rest out
    else if first == .lit ".." then
      if rest.isEmpty then out.dropLast ++ [.lit ""] else normalizeSegments rest out.dropLast
    else normalizeSegments rest (out ++ [first])

/-- `normalize_path` -/
def normalizePath (pathStr : Str) : Str :=
  let rooted :=
    if startsWith pathStr (.lit "/") then pathStr else Str.concat (.lit "/") pathStr
  let segments := (rooted.splitOn (.lit "/")).drop 1
  Str.concat (.lit "/") (Str.joinWith (normalizeSegments segments []) (.lit "/"))

/-- `path_directory` -/
def pathDirectory (pathStr : Str) : Str :=
  let parts := pathStr.splitOn (.lit "/")
  if parts.length ≤ 2 then .lit "/"
  else Str.concat (Str.joinWith parts.dropLast (.lit "/")) (.lit "/")

/-- A path as a `Url` stores it. -/
structure NormalPath (path : Str) : Prop where
  /-- The path starts with a slash. -/
  rooted : [47] <+: path.bytes
  /-- The path is validated text. -/
  encoded : Encoded .path path.bytes
  /-- No segment is `.` or `..`. -/
  noDots : ∀ segment ∈ path.splitOn (.lit "/"), isDotSegment segment = false

/-! ### Segments -/

/-- Segments without dots are all kept. -/
theorem normalizeSegments_of_noDots {segments : List Str}
    (h : ∀ segment ∈ segments, isDotSegment segment = false) (out : List Str) :
    normalizeSegments segments out = out ++ segments := by
  induction segments generalizing out with
  | nil => simp [normalizeSegments]
  | cons first rest ih =>
    have hfirst := h first (by simp)
    simp only [isDotSegment, Bool.or_eq_false_iff] at hfirst
    rw [normalizeSegments, hfirst.1, hfirst.2]
    simpa using ih (fun s hs => h s (by simp [hs])) (out ++ [first])

/-- Every segment that is left was there before and is no dot segment, or is the
empty segment that a final dot segment becomes. -/
theorem mem_normalizeSegments {segments out : List Str} {segment : Str}
    (h : segment ∈ normalizeSegments segments out) :
    segment ∈ out ∨ segment ∈ segments ∧ isDotSegment segment = false ∨ segment = .lit "" := by
  induction segments generalizing out with
  | nil => exact .inl h
  | cons first rest ih =>
    -- a dot segment leaves at most what was there
    have hlast : ∀ kept ⊆ out, segment ∈ kept ++ [.lit ""] →
        segment ∈ out ∨ segment ∈ first :: rest ∧ isDotSegment segment = false ∨
          segment = .lit "" := by
      intro kept hkept hmem
      rcases List.mem_append.mp hmem with hout | hempty
      · exact .inl (hkept hout)
      · exact .inr (.inr (List.mem_singleton.mp hempty))
    have hlater : ∀ kept ⊆ out, segment ∈ normalizeSegments rest kept →
        segment ∈ out ∨ segment ∈ first :: rest ∧ isDotSegment segment = false ∨
          segment = .lit "" := by
      intro kept hkept hmem
      rcases ih hmem with hout | ⟨hrest, hno⟩ | hempty
      · exact .inl (hkept hout)
      · exact .inr (.inl ⟨List.mem_cons_of_mem _ hrest, hno⟩)
      · exact .inr (.inr hempty)
    rw [normalizeSegments] at h
    by_cases hdot : (first == .lit ".") = true
    · rw [if_pos hdot] at h
      split at h
      · exact hlast out (List.Subset.refl _) h
      · exact hlater out (List.Subset.refl _) h
    rw [if_neg hdot] at h
    by_cases hdots : (first == .lit "..") = true
    · rw [if_pos hdots] at h
      split at h
      · exact hlast _ (List.dropLast_subset out) h
      · exact hlater _ (List.dropLast_subset out) h
    rw [if_neg hdots] at h
    rcases ih h with hout | ⟨hrest, hno⟩ | hempty
    · rcases List.mem_append.mp hout with hout | hfirst
      · exact .inl hout
      · rw [List.mem_singleton.mp hfirst]
        exact .inr (.inl ⟨by simp, by simp [isDotSegment, hdot, hdots]⟩)
    · exact .inr (.inl ⟨List.mem_cons_of_mem _ hrest, hno⟩)
    · exact .inr (.inr hempty)

/-- A path always keeps a segment, if only an empty one. -/
theorem normalizeSegments_ne_nil {segments : List Str} (h : segments ≠ []) (out : List Str) :
    normalizeSegments segments out ≠ [] := by
  induction segments generalizing out with
  | nil => exact absurd rfl h
  | cons first rest ih =>
    have hkeep : ∀ out' : List Str, out' ≠ [] ∨ rest ≠ [] → normalizeSegments rest out' ≠ [] := by
      intro out' hor
      by_cases hrest : rest = []
      · subst hrest
        simpa [normalizeSegments] using hor
      · exact ih hrest out'
    rw [normalizeSegments]
    split
    · split
      · simp
      · next hrest => exact hkeep out (.inr (by simpa using hrest))
    split
    · split
      · simp
      · next hrest => exact hkeep _ (.inr (by simpa using hrest))
    · exact hkeep _ (.inl (by simp))

/-! ### Paths -/

/-- A rooted path splits into an empty piece and at least one segment. -/
theorem splitOn_rooted {path : Str} (h : [47] <+: path.bytes) :
    ∃ segments, path.splitOn (.lit "/") = .lit "" :: segments ∧ segments ≠ [] := by
  obtain ⟨rest, hrest⟩ := h
  have hcut : Cut.cut (Str.lit "/").bytes path.bytes = some ([], rest) := by
    rw [← hrest]
    exact Cut.cut_of_prefix (by simp)
  obtain ⟨first, segments, hparts, hne, hfirst, -⟩ := Str.splitOn_of_cut (by simp) hcut
  exact ⟨segments, by rw [hparts, Str.ext (hfirst.trans empty_bytes.symm)], hne⟩

/-- A slash and the joined segments are the segments joined after an empty piece. -/
theorem slash_concat_joinWith {segments : List Str} (h : segments ≠ []) :
    Str.concat (.lit "/") (Str.joinWith segments (.lit "/")) =
      Str.joinWith (.lit "" :: segments) (.lit "/") := by
  ext1
  rw [Str.concat_bytes, Str.joinWith_bytes, Str.joinWith_bytes, List.map_cons,
    List.intercalate_cons_of_ne_nil (by simpa using h)]
  rfl

/-- The segments of a rooted path. -/
theorem splitOn_rooted_joinWith {segments : List Str}
    (h : ∀ segment ∈ segments, 47 ∉ segment.bytes) :
    (Str.joinWith (.lit "" :: segments) (.lit "/")).splitOn (.lit "/") = .lit "" :: segments := by
  refine Str.splitOn_joinWith slash_bytes (by simp) fun part hpart => ?_
  rcases List.mem_cons.mp hpart with rfl | hmem
  · simp
  · exact h part hmem

/-- What normalization makes of a path: it normalizes the segments behind the first slash, which
is supplied where it lacks. -/
theorem exists_normalizePath (path : Str) :
    ∃ segments, segments ≠ [] ∧ (∀ segment ∈ segments, 47 ∉ segment.bytes) ∧
      Str.joinWith (.lit "" :: segments) (.lit "/") =
        (if startsWith path (.lit "/") then path else Str.concat (.lit "/") path) ∧
      normalizePath path =
        Str.joinWith (.lit "" :: normalizeSegments segments []) (.lit "/") := by
  obtain ⟨rooted, hrooted, hpre⟩ : ∃ rooted, rooted = (if startsWith path (.lit "/") then path
      else Str.concat (.lit "/") path) ∧ [47] <+: rooted.bytes := by
    refine ⟨_, rfl, ?_⟩
    split
    · next hstarts => exact startsWith_iff.mp hstarts
    · exact ⟨path.bytes, rfl⟩
  obtain ⟨segments, hparts, hne⟩ := splitOn_rooted hpre
  refine ⟨segments, hne, fun segment hmem => ?_, ?_, ?_⟩
  · exact Str.not_mem_of_mem_splitOn slash_bytes (by rw [hparts]; simp [hmem])
  · rw [← hrooted, ← hparts, Str.joinWith_splitOn]
  · simp only [normalizePath]
    rw [← hrooted, hparts, List.drop_one, List.tail_cons,
      slash_concat_joinWith (normalizeSegments_ne_nil hne [])]

/-- Normalized segments hold no slash. -/
theorem slash_not_mem_normalizeSegments {segments : List Str}
    (h : ∀ segment ∈ segments, 47 ∉ segment.bytes) :
    ∀ segment ∈ normalizeSegments segments [], 47 ∉ segment.bytes := by
  intro segment hmem
  rcases mem_normalizeSegments hmem with hout | ⟨hsegment, -⟩ | rfl
  · cases hout
  · exact h segment hsegment
  · simp

/-- Normalized segments are no dot segments. -/
theorem noDots_normalizeSegments (segments : List Str) :
    ∀ segment ∈ normalizeSegments segments [], isDotSegment segment = false := by
  intro segment hmem
  rcases mem_normalizeSegments hmem with hout | ⟨-, hno⟩ | rfl
  · cases hout
  · exact hno
  · decide

/-- A path without dot segments is left alone. -/
theorem normalizePath_of_noDots {segments : List Str} (hne : segments ≠ [])
    (hslash : ∀ segment ∈ segments, 47 ∉ segment.bytes)
    (hno : ∀ segment ∈ segments, isDotSegment segment = false) :
    normalizePath (Str.joinWith (.lit "" :: segments) (.lit "/")) =
      Str.joinWith (.lit "" :: segments) (.lit "/") := by
  have hstarts : startsWith (Str.joinWith (.lit "" :: segments) (.lit "/")) (.lit "/") = true := by
    rw [startsWith_iff, ← slash_concat_joinWith hne]
    exact ⟨_, rfl⟩
  simp only [normalizePath]
  rw [if_pos hstarts, splitOn_rooted_joinWith hslash, List.drop_one, List.tail_cons,
    normalizeSegments_of_noDots hno, List.nil_append, slash_concat_joinWith hne]

/-- Normalization leaves a normal path alone. -/
theorem normalizePath_normal {path : Str} (h : NormalPath path) : normalizePath path = path := by
  obtain ⟨segments, hparts, hne⟩ := splitOn_rooted h.rooted
  have hmem : ∀ segment ∈ segments, segment ∈ path.splitOn (.lit "/") := fun segment hsegment => by
    rw [hparts]
    exact List.mem_cons_of_mem _ hsegment
  have hpath : Str.joinWith (.lit "" :: segments) (.lit "/") = path := by
    rw [← hparts, Str.joinWith_splitOn]
  rw [← hpath]
  exact normalizePath_of_noDots hne
    (fun segment hsegment => Str.not_mem_of_mem_splitOn slash_bytes (hmem segment hsegment))
    fun segment hsegment => h.noDots segment (hmem segment hsegment)

/-- Normalizing encoded text gives a normal path. -/
theorem normalPath_normalizePath {path : Str} (h : Encoded .path path.bytes) :
    NormalPath (normalizePath path) := by
  have hslash : Encoded .path [47] := .single (by decide) (by decide) (by decide)
  obtain ⟨segments, hne, hnone, hrooted, hpath⟩ := exists_normalizePath path
  have henc : Encoded .path (Str.joinWith (.lit "" :: segments) (.lit "/")).bytes := by
    rw [hrooted]
    split
    · exact h
    · exact hslash.append h
  have hpiece : ∀ piece ∈ Str.lit "" :: segments, Encoded .path piece.bytes := by
    rw [← splitOn_rooted_joinWith hnone]
    exact Str.forall_mem_splitOn henc fun {before after} hcut =>
      Encoded.cut (by simpa using hcut) (by decide) (by decide)
  rw [hpath]
  refine ⟨?_, ?_, ?_⟩
  · rw [← slash_concat_joinWith (normalizeSegments_ne_nil hne [])]
    exact ⟨_, rfl⟩
  · rw [Str.joinWith_bytes]
    refine Encoded.intercalate hslash fun bytes hbytes => ?_
    obtain ⟨piece, hmem, rfl⟩ := List.mem_map.mp hbytes
    rcases List.mem_cons.mp hmem with rfl | hmem
    · exact .nil
    · rcases mem_normalizeSegments hmem with hout | ⟨hsegment, -⟩ | rfl
      · cases hout
      · exact hpiece piece (List.mem_cons_of_mem _ hsegment)
      · exact .nil
  · intro piece hmem
    rw [splitOn_rooted_joinWith (slash_not_mem_normalizeSegments hnone)] at hmem
    rcases List.mem_cons.mp hmem with rfl | hmem
    · decide
    · exact noDots_normalizeSegments segments piece hmem

/-- The directory of a rooted path is the path up to its last slash. -/
theorem exists_pathDirectory {path : Str} (h : [47] <+: path.bytes) :
    ∃ before last, path.bytes = before ++ 47 :: last ∧
      (pathDirectory path).bytes = before ++ [47] := by
  obtain ⟨segments, hparts, hne⟩ := splitOn_rooted h
  obtain ⟨init, last, hsegments⟩ : ∃ init last, segments = init ++ [last] :=
    ⟨_, _, (List.dropLast_concat_getLast hne).symm⟩
  have hpath :
      path.bytes = (Str.joinWith (.lit "" :: init) (.lit "/")).bytes ++ 47 :: last.bytes := by
    rw [← Str.joinWith_splitOn path (.lit "/"), hparts, hsegments, Str.joinWith_bytes,
      Str.joinWith_bytes, ← List.cons_append, List.map_append, List.map_singleton,
      SplitOn.intercalate_concat (by simp)]
    simp
  refine ⟨_, _, hpath, ?_⟩
  rw [pathDirectory, hparts, hsegments]
  cases init with
  | nil => rfl
  | cons first init =>
    rw [if_neg (by simp), ← List.cons_append, List.dropLast_concat]
    rfl

end TrantorCli.Url
