import TrantorCli.Url.Target

/-!
# Resolving is parsing against the base

A reference without a scheme resolves to what the base's origin followed by the
merged target parses to. The two pipelines validate the same components in the
same order; the base's own part passes through validation unchanged, and moves
the position of an invalid escape in the path by its length.
-/

open Roc

namespace TrantorCli.Url

/-! ### The two pipelines -/

/-- The base with the components of a validated reference merged in. -/
def merge (base : Url) (relative : Components) : Url :=
  { base with
    path :=
      if relative.path.isEmpty then base.path
      else if startsWith relative.path (.lit "/") then normalizePath relative.path
      else normalizePath (Str.concat (pathDirectory base.path) relative.path)
    query :=
      match relative.query with
      | some value => some value
      | none => if relative.path.isEmpty then base.query else none
    fragment := relative.fragment }

private theorem resolve_of_noScheme {base : Url} {reference : Str}
    (hscheme : referenceScheme reference = none)
    (hslashes : startsWith reference (.lit "//") = false) :
    resolve base reference = (validateComponents (splitComponents reference).path
      (splitComponents reference).query (splitComponents reference).fragment).map (merge base) := by
  rw [resolve, resolveReference, hscheme]
  simp only [resolveRelative, hslashes, parseRelative]
  cases validateComponents (splitComponents reference).path (splitComponents reference).query
    (splitComponents reference).fragment <;> rfl

/-- The validated path is empty, rooted or neither as the raw path is. -/
theorem path_of_validateComponents {pathInput : Str} {query fragment : Option Str}
    {components : Components} {first : UInt8} {rest : List UInt8}
    (h : validateComponents pathInput query fragment = .ok components)
    (hpath : pathInput.bytes = first :: rest) :
    components.path.isEmpty = false ∧
      (startsWith components.path (.lit "/") = true ↔ first = 47) := by
  obtain ⟨hvalid, -, -⟩ := validateComponents_eq_ok.mp h
  have hfrom := validateComponent_eq pathInput .path
  rw [hvalid, hpath] at hfrom
  obtain ⟨tail, htail⟩ := head_of_validateFrom hfrom.symm
  constructor
  · simp [Str.isEmpty, htail]
  · rw [startsWith_iff, htail, slash_bytes, List.cons_prefix_cons]
    constructor
    · rintro ⟨hhead, -⟩
      split at hhead
      · exact absurd hhead (by decide)
      · exact hhead.symm
    · rintro rfl
      exact ⟨by rw [if_neg (by decide)], List.nil_prefix⟩

/-- A reference with a rooted path of its own. -/
theorem parse_target_rooted {base : Url} (hbase : Canonical base) {reference : Str}
    (hscheme : referenceScheme reference = none)
    (hslashes : startsWith reference (.lit "//") = false)
    (hrooted : startsWith reference (.lit "/") = true) :
    parse (Str.concat (origin base) reference) = resolve base reference := by
  obtain ⟨rest, hrest⟩ := startsWith_iff.mp hrooted
  have hbytes : reference.bytes = 47 :: rest := hrest.symm
  obtain ⟨tail, hpath⟩ := splitComponents_path_cons hbytes (by decide) (by decide)
  rw [parse_origin_concat hbase ⟨rest, hrest⟩,
    parseSuffix_rooted (by rw [hpath]; exact ⟨tail, rfl⟩), resolve_of_noScheme hscheme hslashes]
  cases hvalid : validateComponents (splitComponents reference).path
    (splitComponents reference).query (splitComponents reference).fragment with
  | error err => rfl
  | ok components =>
    obtain ⟨hne, hstarts⟩ := path_of_validateComponents hvalid hpath
    simp only [Except.map, merge, hne, hstarts.mpr rfl]
    cases components.query <;> rfl

/-- A normal path is cut nowhere. -/
theorem splitComponents_concat_normal {front : Str} (hencoded : Encoded .path front.bytes)
    (str : Str) : splitComponents (Str.concat front str) =
      { splitComponents str with path := Str.concat front (splitComponents str).path } :=
  splitComponents_concat (hencoded.not_mem (by decide) (by decide) (by decide))
    (hencoded.not_mem (by decide) (by decide) (by decide))

/-- A reference with a path that is not rooted. -/
theorem parse_target_merged {base : Url} (hbase : Canonical base) {reference : Str}
    {first : UInt8} {rest : List UInt8} (hscheme : referenceScheme reference = none)
    (hslashes : startsWith reference (.lit "//") = false) (hbytes : reference.bytes = first :: rest)
    (hslash : first ≠ 47) (hquestion : first ≠ 63) (hhash : first ≠ 35) :
    parse (Str.concat (origin base) (Str.concat (pathDirectory base.path) reference)) =
      (resolve base reference).mapError fun err =>
        if pathFails reference then err.shift (pathDirectory base.path).bytes.length else err := by
  obtain ⟨before, last, hpath, hdirectory⟩ := exists_pathDirectory hbase.path.rooted
  have hencoded := encoded_pathDirectory hbase.path
  have hrooted : [47] <+: (pathDirectory base.path).bytes := by
    have hbase' := hbase.path.rooted
    rw [hpath] at hbase'
    rw [hdirectory]
    cases before with
    | nil => exact List.prefix_refl _
    | cons x before =>
      obtain ⟨rfl, -⟩ := List.cons_prefix_cons.mp hbase'
      exact ⟨_, rfl⟩
  obtain ⟨tail, hraw⟩ := splitComponents_path_cons hbytes hhash hquestion
  have hsplit := splitComponents_concat_normal hencoded reference
  rw [parse_origin_concat hbase (hrooted.trans (List.prefix_append _ _)), parseSuffix_rooted
    (by rw [hsplit]; exact hrooted.trans (List.prefix_append _ _)), hsplit,
    validateComponents_concat hencoded, resolve_of_noScheme hscheme hslashes, pathFails]
  cases hvalid : validateComponents (splitComponents reference).path
    (splitComponents reference).query (splitComponents reference).fragment with
  | error err =>
    simp only [Except.map, Except.mapError]
    cases (validateComponent (splitComponents reference).path .path).isOk <;> rfl
  | ok components =>
    obtain ⟨hne, hstarts⟩ := path_of_validateComponents hvalid hraw
    have hnot : startsWith components.path (.lit "/") = false := by
      rw [← Bool.not_eq_true]
      exact mt hstarts.mp hslash
    simp only [Except.map, Except.mapError, merge, hne, hnot]
    cases components.query <;> rfl

private theorem validateComponent_empty : validateComponent (.lit "") .path = .ok (.lit "") :=
  validateComponent_encoded .nil

private theorem concat_empty (s : Str) : Str.concat s (.lit "") = s := by
  ext1
  simp

private theorem empty_concat (s : Str) : Str.concat (.lit "") s = s := by
  ext1
  simp

/-- A reference that starts with a question mark has a query. -/
theorem query_of_question {reference : Str} {rest : List UInt8}
    (h : reference.bytes = 63 :: rest) :
    ∃ value, (splitComponents reference).query = some value := by
  have hmem : 63 ∈ (cutAt reference (.lit "#")).1.bytes := by
    rw [cutAt_bytes hash_bytes, h]
    simp
  cases hsplit : splitFirst (cutAt reference (.lit "#")).1 (.lit "?") with
  | none => exact absurd hmem ((splitFirst_eq_none question_bytes).mp hsplit)
  | some p =>
    obtain ⟨before, after⟩ := p
    refine ⟨after, ?_⟩
    simp only [splitComponents]
    rw [cutAt, hsplit]

private theorem query_of_validateComponents {pathInput query : Str} {fragment : Option Str}
    {components : Components}
    (h : validateComponents pathInput (some query) fragment = .ok components) :
    ∃ value, components.query = some value := by
  obtain ⟨-, hquery, -⟩ := validateComponents_eq_ok.mp h
  rw [validateOptional] at hquery
  split at hquery
  · exact ⟨_, (Except.ok.inj hquery).symm⟩
  · cases hquery

/-- A reference that replaces the base's query. -/
theorem parse_target_query {base : Url} (hbase : Canonical base) {reference : Str}
    {rest : List UInt8} (hscheme : referenceScheme reference = none)
    (hslashes : startsWith reference (.lit "//") = false) (hbytes : reference.bytes = 63 :: rest) :
    parse (Str.concat (origin base) (Str.concat base.path reference)) = resolve base reference := by
  have hempty := splitComponents_path_of_delimiter hbytes (.inr rfl)
  obtain ⟨query, hquery⟩ := query_of_question hbytes
  have hsplit := splitComponents_concat_normal hbase.path.encoded reference
  rw [hempty, concat_empty] at hsplit
  have hrooted : [47] <+: (Str.concat base.path reference).bytes :=
    hbase.path.rooted.trans (List.prefix_append _ _)
  have hbasePath : validateComponents base.path (some query) (splitComponents reference).fragment =
      ((validateComponents (.lit "") (some query) (splitComponents reference).fragment).map
        fun components => { components with path := Str.concat base.path components.path }) := by
    have hconcat := validateComponents_concat hbase.path.encoded (.lit "") (some query)
      (splitComponents reference).fragment
    rw [concat_empty, validateComponent_empty] at hconcat
    rw [hconcat]
    cases validateComponents (.lit "") (some query) (splitComponents reference).fragment <;> rfl
  rw [parse_origin_concat hbase hrooted,
    parseSuffix_rooted (by rw [hsplit]; exact hbase.path.rooted), hsplit,
    resolve_of_noScheme hscheme hslashes, hempty, hquery, hbasePath]
  cases hvalid : validateComponents (.lit "") (some query) (splitComponents reference).fragment with
  | error err => rfl
  | ok components =>
    obtain ⟨value, hvalue⟩ := query_of_validateComponents hvalid
    have hpath : components.path = .lit "" := by
      obtain ⟨path, hpath, h⟩ := Try.bind_eq_ok.mp hvalid
      obtain ⟨encodedQuery, -, h⟩ := Try.bind_eq_ok.mp h
      obtain ⟨encodedFragment, -, h⟩ := Try.bind_eq_ok.mp h
      cases h
      rw [validateComponent_empty] at hpath
      exact (Except.ok.inj hpath).symm
    have hisEmpty : (Str.lit "").isEmpty = true := rfl
    simp only [Except.map, merge, hpath, hvalue, hisEmpty, if_true, concat_empty,
      normalizePath_normal hbase.path]

/-- A reference that keeps the base's query. -/
theorem parse_target_fragment {base : Url} (hbase : Canonical base) {fragment : Option Str}
    (hscheme : referenceScheme (fragmentStr fragment) = none)
    (hslashes : startsWith (fragmentStr fragment) (.lit "//") = false) :
    parse (Str.concat (origin base)
      (Str.concat (Str.concat base.path (queryStr base.query)) (fragmentStr fragment))) =
      resolve base (fragmentStr fragment) := by
  have hrooted : [47] <+: (Str.concat (Str.concat base.path (queryStr base.query))
      (fragmentStr fragment)).bytes := by
    rw [Str.concat_bytes, Str.concat_bytes, List.append_assoc]
    exact hbase.path.rooted.trans (List.prefix_append _ _)
  have hsplit := splitComponents_join fragment hbase.path.question_not_mem
    hbase.path.hash_not_mem hbase.query.hash_not_mem
  have hempty : splitComponents (fragmentStr fragment) = ⟨.lit "", none, fragment⟩ := by
    have hjoin : splitComponents (Str.concat (Str.concat (.lit "") (queryStr none))
        (fragmentStr fragment)) = ⟨.lit "", none, fragment⟩ :=
      splitComponents_join fragment (by simp) (by simp) (by simp)
    rwa [queryStr, concat_empty, empty_concat] at hjoin
  rw [parse_origin_concat hbase hrooted,
    parseSuffix_rooted (by rw [hsplit]; exact hbase.path.rooted),
    hsplit, resolve_of_noScheme hscheme hslashes, hempty]
  simp only [validateComponents, validateComponent_encoded hbase.path.encoded,
    validateOptional_encoded hbase.query, validateComponent_empty, Try.ok_bind]
  cases validateOptional fragment .fragment with
  | error err => rfl
  | ok value =>
    have hisEmpty : (Str.lit "").isEmpty = true := rfl
    simp only [Try.ok_bind, Try.pure_eq, Except.map, validateOptional, merge, hisEmpty, if_true,
      normalizePath_normal hbase.path]

/-- A reference that starts with a hash is a fragment. -/
theorem eq_fragmentStr_of_hash {reference : Str} {rest : List UInt8}
    (h : reference.bytes = 35 :: rest) : ∃ value, reference = fragmentStr (some value) := by
  cases hsplit : splitFirst reference (.lit "#") with
  | none =>
    have hnot := (splitFirst_eq_none hash_bytes).mp hsplit
    rw [h] at hnot
    simp at hnot
  | some p =>
    obtain ⟨before, after⟩ := p
    obtain ⟨hbytes, hnot⟩ := (splitFirst_eq_some hash_bytes).mp hsplit
    refine ⟨after, Str.ext ?_⟩
    cases hbefore : before.bytes with
    | nil =>
      rw [hbytes, hbefore]
      rfl
    | cons x before' =>
      rw [h, hbefore] at hbytes
      obtain ⟨rfl, -⟩ := List.cons.inj hbytes
      rw [hbefore] at hnot
      simp at hnot

/-! ### All references -/

private theorem startsWith_cons {str separator : Str} {c first : UInt8} {rest : List UInt8}
    (hsep : separator.bytes = [c]) (hstr : str.bytes = first :: rest) :
    startsWith str separator = decide (first = c) := by
  rw [Bool.eq_iff_iff, startsWith_iff, hsep, hstr, List.cons_prefix_cons, decide_eq_true_iff]
  exact ⟨fun h => h.1.symm, fun h => ⟨h.symm, List.nil_prefix⟩⟩

private theorem startsWith_nil {str separator : Str} {c : UInt8} (hsep : separator.bytes = [c])
    (hstr : str.bytes = []) : startsWith str separator = false := by
  rw [← Bool.not_eq_true, startsWith_iff, hsep, hstr]
  simp

/-- What the four kinds of reference take from the base. -/
theorem target_cases (base : Url) (reference : Str) :
    (∃ rest, reference.bytes = 47 :: rest ∧ inheritedPath base reference = .lit "" ∧
      target base reference = reference) ∨
    (∃ first rest, reference.bytes = first :: rest ∧ first ≠ 47 ∧ first ≠ 63 ∧ first ≠ 35 ∧
      inheritedPath base reference = pathDirectory base.path ∧
      target base reference = Str.concat (pathDirectory base.path) reference) ∨
    (∃ rest, reference.bytes = 63 :: rest ∧
      target base reference = Str.concat base.path reference) ∨
    ∃ fragment, reference = fragmentStr fragment ∧
      target base reference =
        Str.concat (Str.concat base.path (queryStr base.query)) reference := by
  cases hbytes : reference.bytes with
  | nil =>
    have hempty : reference.isEmpty = true := Str.isEmpty_iff.mpr hbytes
    refine .inr (.inr (.inr ⟨none, Str.ext hbytes, ?_⟩))
    simp [target, inheritedPath, inheritedQuery, hasPath, startsWith_nil slash_bytes hbytes, hempty]
  | cons first rest =>
    have hempty : reference.isEmpty = false := by simp [Str.isEmpty, hbytes]
    have hslash := startsWith_cons slash_bytes hbytes
    have hquestion := startsWith_cons question_bytes hbytes
    have hhash := startsWith_cons hash_bytes hbytes
    by_cases h47 : first = 47
    · subst h47
      refine .inl ⟨rest, rfl, ?_, ?_⟩ <;>
        simp [target, inheritedPath, inheritedQuery, hslash, hhash, hempty, empty_concat]
    by_cases h63 : first = 63
    · subst h63
      refine .inr (.inr (.inl ⟨rest, rfl, ?_⟩))
      simp [target, inheritedPath, inheritedQuery, hasPath, hslash, hquestion, hhash, hempty,
        concat_empty]
    by_cases h35 : first = 35
    · subst h35
      obtain ⟨value, hvalue⟩ := eq_fragmentStr_of_hash hbytes
      refine .inr (.inr (.inr ⟨some value, hvalue, ?_⟩))
      simp [target, inheritedPath, inheritedQuery, hasPath, hslash, hhash, hempty]
    · refine .inr (.inl ⟨first, rest, rfl, h47, h63, h35, ?_, ?_⟩) <;>
        simp [target, inheritedPath, inheritedQuery, hasPath, hslash, hquestion, hhash, hempty, h47,
          h63, h35, concat_empty]

/-- A reference with no path of its own is not refused for its path. -/
theorem mapError_of_empty {base : Url} {reference : Str}
    (h : (splitComponents reference).path = .lit "") (answer : Except ParseErr Url) :
    (answer.mapError fun err =>
      if pathFails reference then err.shift (inheritedPath base reference).bytes.length
      else err) = answer := by
  have hfails : pathFails reference = false := by
    rw [pathFails, h, validateComponent_empty]
    rfl
  rw [hfails]
  cases answer <;> rfl

/-- Resolving a reference without a scheme against a reachable base is parsing the
base's origin followed by the merged target. The answers are the same URL or the
same error, but that an invalid escape in the path is found further in by the
length of what was taken from the base's path. -/
theorem resolve_eq_parse {base : Url} (hbase : Reachable base) {reference : Str}
    (hscheme : referenceScheme reference = none)
    (hslashes : startsWith reference (.lit "//") = false) :
    parse (Str.concat (origin base) (target base reference)) =
      (resolve base reference).mapError fun err =>
        if pathFails reference then err.shift (inheritedPath base reference).bytes.length
        else err := by
  have hcanonical := hbase.canonical
  rcases target_cases base reference with ⟨rest, hbytes, hinherited, htarget⟩ |
    ⟨first, rest, hbytes, hslash, hquestion, hhash, hinherited, htarget⟩ | ⟨rest, hbytes, htarget⟩ |
    ⟨fragment, hreference, htarget⟩
  · have hrooted : startsWith reference (.lit "/") = true :=
      startsWith_iff.mpr ⟨rest, hbytes.symm⟩
    rw [htarget, hinherited, parse_target_rooted hcanonical hscheme hslashes hrooted]
    cases resolve base reference with
    | ok url => rfl
    | error err => simp [Except.mapError]
  · rw [htarget, hinherited]
    exact parse_target_merged hcanonical hscheme hslashes hbytes hslash hquestion hhash
  · rw [htarget, mapError_of_empty (splitComponents_path_of_delimiter hbytes (.inr rfl))]
    exact parse_target_query hcanonical hscheme hslashes hbytes
  · have hempty : (splitComponents reference).path = .lit "" := by
      cases fragment with
      | none => exact splitComponents_path_of_isEmpty (by rw [hreference]; rfl)
      | some value =>
        exact splitComponents_path_of_delimiter (by rw [hreference]; rfl) (.inl rfl)
    rw [htarget, mapError_of_empty hempty]
    subst hreference
    exact parse_target_fragment hcanonical hscheme hslashes

/-- An invalid escape behind a base directory of three bytes. -/
theorem resolve_eq_parse_example :
    parse (Str.concat (origin ⟨.http, .lit "a", none, .lit "/b/c", none, none⟩)
        (target ⟨.http, .lit "a", none, .lit "/b/c", none, none⟩ (.lit "x%"))) =
      (resolve ⟨.http, .lit "a", none, .lit "/b/c", none, none⟩ (.lit "x%")).mapError fun err =>
        if pathFails (.lit "x%") then
          err.shift (inheritedPath ⟨.http, .lit "a", none, .lit "/b/c", none, none⟩
            (.lit "x%")).bytes.length
        else err :=
  resolve_eq_parse (.parse (show parse (.lit "http://a/b/c") = .ok _ by decide +kernel))
    (by decide +kernel) (by decide +kernel)

end TrantorCli.Url
