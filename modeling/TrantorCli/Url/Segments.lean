import TrantorCli.Url.DotSegments
import TrantorCli.Url.RoundTrip

/-!
# Appended path segments

`append_path_segments` puts one encoded segment behind the path for each of its
items. No encoded item holds a slash or is a dot segment, so neither the join
nor the normalization that follows it makes anything else of the items.
-/

open Roc Percent

namespace TrantorCli.Url

/-- The segments of a path: what stands behind each of its slashes. -/
def segmentsOf (path : Str) : List Str := (path.splitOn (.lit "/")).drop 1

/-- Segments without a single empty one at the end. -/
def dropTrailing (segments : List Str) : List Str :=
  if segments.getLast? = some (.lit "") then segments.dropLast else segments

/-! ### Encoded items -/

/-- Only a dot segment is encoded as one. -/
theorem isDotSegment_percentEncode (item : Str) :
    isDotSegment (percentEncode item) = isDotSegment item := by
  have hdecode := decode_percentEncode item
  have hsame : ∀ dots : Str, percentEncode dots = dots → decode dots.bytes = dots.bytes →
      (percentEncode item == dots) = (item == dots) := by
    intro dots hencode hself
    rw [Bool.eq_iff_iff, beq_iff_eq, beq_iff_eq]
    constructor
    · intro heq
      rw [heq, hself] at hdecode
      exact Str.ext hdecode.symm
    · rintro rfl
      exact hencode
  rw [isDotSegment, isDotSegment, hsame (.lit ".") (by decide +kernel) (by decide +kernel),
    hsame (.lit "..") (by decide +kernel) (by decide +kernel)]

/-! ### Joining behind a path -/

/-- A rooted path is its segments behind slashes. -/
theorem eq_joinWith_segmentsOf {path : Str} (h : [47] <+: path.bytes) :
    segmentsOf path ≠ [] ∧ path = Str.joinWith (.lit "" :: segmentsOf path) (.lit "/") := by
  obtain ⟨segments, hparts, hne⟩ := splitOn_rooted h
  have hsegments : segmentsOf path = segments := by
    rw [segmentsOf, hparts, List.drop_one, List.tail_cons]
  rw [hsegments, ← hparts, Str.joinWith_splitOn]
  exact ⟨hne, rfl⟩

private theorem segmentsOf_joinWith {segments : List Str}
    (h : ∀ segment ∈ segments, 47 ∉ segment.bytes) :
    segmentsOf (Str.joinWith (.lit "" :: segments) (.lit "/")) = segments := by
  rw [segmentsOf, Str.splitOn_joinWith slash_bytes (by simp), List.drop_one, List.tail_cons]
  intro part hpart
  rcases List.mem_cons.mp hpart with rfl | hmem
  · simp
  · exact h part hmem

/-- Two runs of segments are joined by a slash. -/
theorem joinWith_append {front back : List Str} (hfront : front ≠ []) (hback : back ≠ []) :
    Str.joinWith (front ++ back) (.lit "/") =
      Str.concat (Str.concat (Str.joinWith front (.lit "/")) (.lit "/"))
        (Str.joinWith back (.lit "/")) := by
  ext1
  simp only [Str.joinWith_bytes, Str.concat_bytes, List.map_append]
  exact SplitOn.intercalate_append (by simpa using hfront) (by simpa using hback)

/-- `ends_with` tests whether the last piece is empty. -/
theorem endsWith_slash_iff {path : Str} (h : [47] <+: path.bytes) :
    endsWith path (.lit "/") = true ↔ (segmentsOf path).getLast? = some (.lit "") := by
  obtain ⟨segments, hparts, hne⟩ := splitOn_rooted h
  have hsegments : segmentsOf path = segments := by
    rw [segmentsOf, hparts, List.drop_one, List.tail_cons]
  have hlast : (path.splitOn (.lit "/"))[(path.splitOn (.lit "/")).length - 1]? =
      segments.getLast? := by
    rw [← List.getLast?_eq_getElem?, hparts]
    exact List.getLast?_append_of_ne_nil [Str.lit ""] hne
  unfold endsWith
  rw [if_neg (by decide)]
  simp only [hlast, hsegments]
  cases segments.getLast? with
  | none => simp
  | some last => simp [Str.isEmpty_iff, Str.ext_iff]

/-- The path that appended segments are put behind, with a slash at its end. -/
theorem withSegments_path {path : Str} {encoded : List Str} (h : [47] <+: path.bytes)
    (hne : encoded ≠ []) :
    (if path == .lit "/" then Str.concat (.lit "/") (Str.joinWith encoded (.lit "/"))
      else if endsWith path (.lit "/") then Str.concat path (Str.joinWith encoded (.lit "/"))
      else Str.concat (Str.concat path (.lit "/")) (Str.joinWith encoded (.lit "/"))) =
    Str.joinWith (.lit "" :: (dropTrailing (segmentsOf path) ++ encoded)) (.lit "/") := by
  obtain ⟨hsegments, hpath⟩ := eq_joinWith_segmentsOf h
  have hends := endsWith_slash_iff h
  by_cases htrailing : (segmentsOf path).getLast? = some (.lit "")
  · -- the last slash is there already, in the bare root too
    have hsame : (if path == .lit "/" then Str.concat (.lit "/") (Str.joinWith encoded (.lit "/"))
        else if endsWith path (.lit "/") then Str.concat path (Str.joinWith encoded (.lit "/"))
        else Str.concat (Str.concat path (.lit "/")) (Str.joinWith encoded (.lit "/"))) =
        Str.concat path (Str.joinWith encoded (.lit "/")) := by
      by_cases hroot : path = .lit "/"
      · rw [if_pos (by simpa using hroot), hroot]
      · rw [if_neg (by simpa using hroot), if_pos (hends.mpr htrailing)]
    have hinit : segmentsOf path = (segmentsOf path).dropLast ++ [.lit ""] :=
      (List.dropLast_append_getLast? _ htrailing).symm
    have hfront : path = Str.concat
        (Str.joinWith (.lit "" :: (segmentsOf path).dropLast) (.lit "/")) (.lit "/") := by
      conv_lhs => rw [hpath, hinit, ← List.cons_append, joinWith_append (by simp) (by simp)]
      ext1
      simp
    rw [hsame, dropTrailing, if_pos htrailing, ← List.cons_append, joinWith_append (by simp) hne,
      ← hfront]
  · have hroot : ¬(path == .lit "/") = true := by
      rw [beq_iff_eq]
      rintro rfl
      exact htrailing (by decide +kernel)
    rw [if_neg hroot, if_neg (mt hends.mp htrailing), dropTrailing, if_neg htrailing,
      ← List.cons_append, joinWith_append (by simp) hne, ← hpath]

private theorem dropTrailing_subset (segments : List Str) : dropTrailing segments ⊆ segments := by
  unfold dropTrailing
  split
  · exact List.dropLast_subset segments
  · exact List.Subset.refl segments

/-- The segments of a normal path, and encoded items behind them. -/
theorem mem_appended {path : Str} {items : List Str} (h : NormalPath path)
    (hitems : ∀ item ∈ items, isDotSegment item = false) :
    ∀ segment ∈ dropTrailing (segmentsOf path) ++ items.map percentEncode,
      47 ∉ segment.bytes ∧ isDotSegment segment = false := by
  intro segment hmem
  rcases List.mem_append.mp hmem with hold | hnew
  · have hpiece : segment ∈ path.splitOn (.lit "/") :=
      List.mem_of_mem_drop (dropTrailing_subset _ hold)
    exact ⟨Str.not_mem_of_mem_splitOn slash_bytes hpiece, h.noDots segment hpiece⟩
  · obtain ⟨item, hitem, rfl⟩ := List.mem_map.mp hnew
    exact ⟨slash_not_mem_percentEncode item,
      (isDotSegment_percentEncode item).trans (hitems item hitem)⟩

/-- The path after `with_segments`: normalization finds nothing to do. -/
theorem withSegments_eq {url : Url} {items : List Str} (h : NormalPath url.path)
    (hitems : ∀ item ∈ items, isDotSegment item = false) (hne : items ≠ []) :
    (withSegments url items).path = Str.joinWith
      (.lit "" :: (dropTrailing (segmentsOf url.path) ++ items.map percentEncode)) (.lit "/") := by
  have hempty : ¬items.isEmpty = true := by simpa using hne
  have hencoded : items.map percentEncode ≠ [] := by simpa using hne
  have hmem := mem_appended h hitems
  simp only [withSegments]
  rw [if_neg hempty, withSegments_path h.rooted hencoded]
  exact normalizePath_of_noDots (by simp [hne]) (fun segment hs => (hmem segment hs).1)
    fun segment hs => (hmem segment hs).2

private theorem isDotSegment_eq_true {item : Str} :
    isDotSegment item = true ↔ item = .lit "." ∨ item = .lit ".." := by
  simp [isDotSegment]

private theorem isDotSegment_eq_false {item : Str} :
    isDotSegment item = false ↔ item ≠ .lit "." ∧ item ≠ .lit ".." := by
  rw [← Bool.not_eq_true, isDotSegment_eq_true, not_or]

/-- Appending segments adds one segment for each item, which decodes to the item, and nothing that
normalization would change; a dot segment among the items is refused. -/
theorem appendPathSegments_exact {url : Url} (h : Reachable url) (items : List Str) :
    (∀ front item back, items = front ++ item :: back →
      (∀ earlier ∈ front, earlier ≠ .lit "." ∧ earlier ≠ .lit "..") →
        (item = .lit "." ∨ item = .lit "..") → appendPathSegments url items = .error item) ∧
    ((∀ item ∈ items, item ≠ .lit "." ∧ item ≠ .lit "..") →
      ∃ v, appendPathSegments url items = .ok v ∧ v = { url with path := v.path } ∧
        (items = [] → v.path = url.path) ∧
        (items ≠ [] → ∃ encoded : List Str,
          segmentsOf v.path = dropTrailing (segmentsOf url.path) ++ encoded ∧
            encoded.map (fun segment => decode segment.bytes) = items.map Str.bytes) ∧
        normalizePath v.path = v.path ∧ parse (toStr v) = .ok v) := by
  constructor
  · rintro front item back rfl hfront hitem
    have hfound : (front ++ item :: back).find? isDotSegment = some item := by
      rw [List.find?_append, List.find?_eq_none.mpr fun earlier hmem => by
        simpa using isDotSegment_eq_false.mpr (hfront earlier hmem), Option.none_or,
        List.find?_cons_of_pos (isDotSegment_eq_true.mpr hitem)]
    rw [appendPathSegments, hfound]
  · intro hitems
    have hno : ∀ item ∈ items, isDotSegment item = false := fun item hmem =>
      isDotSegment_eq_false.mpr (hitems item hmem)
    have hnone : items.find? isDotSegment = none :=
      List.find?_eq_none.mpr fun item hmem => by simpa using hno item hmem
    have hv : appendPathSegments url items = .ok (withSegments url items) := by
      rw [appendPathSegments, hnone]
    have hcanonical := (Reachable.appendPathSegments h hv).canonical
    refine ⟨_, hv, rfl, ?_, fun hne => ⟨items.map percentEncode, ?_, ?_⟩,
      normalizePath_normal hcanonical.path, hcanonical.parse_toStr⟩
    · rintro rfl
      exact normalizePath_normal h.canonical.path
    · rw [withSegments_eq h.canonical.path hno hne, segmentsOf_joinWith]
      exact fun segment hs => (mem_appended h.canonical.path hno segment hs).1
    · rw [List.map_map]
      exact List.map_congr_left fun item _ => decode_percentEncode item

/-- An item with a slash and an empty one, behind a path with a trailing slash. -/
theorem appendPathSegments_exact_example :
    ∃ v encoded, appendPathSegments ⟨.http, .lit "a", none, .lit "/b/", none, none⟩
        [.lit "c/d", .lit ""] = .ok v ∧
      segmentsOf v.path = dropTrailing (segmentsOf (.lit "/b/")) ++ encoded ∧
      encoded.map (fun segment => decode segment.bytes) = [[99, 47, 100], []] := by
  have hparse :
      parse (.lit "http://a/b/") = .ok ⟨.http, .lit "a", none, .lit "/b/", none, none⟩ := by
    decide +kernel
  obtain ⟨v, hv, -, -, hsegments, -⟩ :=
    (appendPathSegments_exact (.parse hparse) [.lit "c/d", .lit ""]).2 (by decide)
  obtain ⟨encoded, hsegments, hdecode⟩ := hsegments (by simp)
  exact ⟨v, encoded, hv, hsegments, hdecode⟩

end TrantorCli.Url
