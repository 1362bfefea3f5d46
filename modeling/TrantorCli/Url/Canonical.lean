import TrantorCli.Url.AuthorityGrammar
import TrantorCli.Url.Escaping
import TrantorCli.Url.Operations

/-!
# The canonical form of reachable URLs

Every way to obtain a `Url` from the module restores one invariant: a canonical
host and port, a normal path, and encoded query and fragment.
-/

open Roc

namespace TrantorCli

/-- What holds of every `Url` that the module hands out. -/
structure Url.Canonical (url : Url) : Prop where
  /-- The host is what validation returns. -/
  host : Url.CanonicalHost url.host
  /-- The port is not the default one. -/
  port : Url.CanonicalPort url.scheme url.port
  /-- The path is rooted, encoded and without dot segments. -/
  path : Url.NormalPath url.path
  /-- The query is validated text. -/
  query : Url.EncodedOption .query url.query
  /-- The fragment is validated text. -/
  fragment : Url.EncodedOption .fragment url.fragment

namespace Url

/-- The URLs that a program can hold: parsed ones, and what the operations make of them. -/
inductive Reachable : Url → Prop where
  | parse {input : Str} {url : Url} (h : parse input = .ok url) : Reachable url
  | resolve {base url : Url} {reference : Str} (hbase : Reachable base)
      (h : resolve base reference = .ok url) : Reachable url
  | appendPathSegments {base url : Url} {segments : List Str} (hbase : Reachable base)
      (h : appendPathSegments base segments = .ok url) : Reachable url
  | appendQueryParam {base : Url} (hbase : Reachable base) (key value : Str) :
      Reachable (appendQueryParam base key value)
  | withQuery {base url : Url} {option : Option Str} (hbase : Reachable base)
      (h : withQuery base option = .ok url) : Reachable url
  | withFragment {base url : Url} {option : Option Str} (hbase : Reachable base)
      (h : withFragment base option = .ok url) : Reachable url
  | withoutFragment {base : Url} (hbase : Reachable base) : Reachable (withoutFragment base)

/-! ### Each operation restores the invariant -/

/-- Components are valid together when each of them is valid. -/
theorem validateComponents_eq_ok {pathInput : Str} {query fragment : Option Str}
    {components : Components} :
    validateComponents pathInput query fragment = .ok components ↔
      validateComponent pathInput .path = .ok components.path ∧
        validateOptional query .query = .ok components.query ∧
          validateOptional fragment .fragment = .ok components.fragment := by
  constructor
  · intro h
    obtain ⟨path, hpath, h⟩ := Try.bind_eq_ok.mp h
    obtain ⟨encodedQuery, hquery, h⟩ := Try.bind_eq_ok.mp h
    obtain ⟨encodedFragment, hfragment, h⟩ := Try.bind_eq_ok.mp h
    cases h
    exact ⟨hpath, hquery, hfragment⟩
  · rintro ⟨hpath, hquery, hfragment⟩
    rw [validateComponents, hpath, Try.ok_bind, hquery, Try.ok_bind, hfragment, Try.ok_bind]
    rfl

/-- A suffix is read as its components, where no path at all stands for `/`. -/
theorem parseSuffix_eq_ok {suffix : Str} {components : Components} :
    parseSuffix suffix = .ok components ↔ ∃ path : Str,
      ((splitComponents suffix).path.bytes = [] ∧ path = .lit "/" ∨
        [47] <+: (splitComponents suffix).path.bytes ∧ path = (splitComponents suffix).path) ∧
      validateComponents path (splitComponents suffix).query (splitComponents suffix).fragment =
        .ok components := by
  simp only [parseSuffix]
  by_cases hempty : (splitComponents suffix).path.isEmpty = true
  · have hnil := Str.isEmpty_iff.mp hempty
    have hslash : startsWith (.lit "/") (.lit "/") = true :=
      startsWith_iff.mpr (List.prefix_refl _)
    rw [if_pos hempty, hslash, if_neg (by simp)]
    constructor
    · intro h
      exact ⟨_, .inl ⟨hnil, rfl⟩, h⟩
    · rintro ⟨path, ⟨-, rfl⟩ | ⟨hrooted, -⟩, h⟩
      · exact h
      · rw [hnil] at hrooted
        simp at hrooted
  have hne := mt Str.isEmpty_iff.mpr hempty
  rw [if_neg hempty]
  by_cases hrooted : startsWith (splitComponents suffix).path (.lit "/") = true
  · rw [hrooted, if_neg (by simp)]
    constructor
    · intro h
      exact ⟨_, .inr ⟨startsWith_iff.mp hrooted, rfl⟩, h⟩
    · rintro ⟨path, ⟨hnil, -⟩ | ⟨-, rfl⟩, h⟩
      · exact absurd hnil hne
      · exact h
  · rw [if_pos (by simpa using hrooted)]
    constructor
    · intro h
      cases h
    · rintro ⟨path, ⟨hnil, -⟩ | ⟨hstarts, -⟩, -⟩
      · exact absurd hnil hne
      · exact absurd (startsWith_iff.mpr hstarts) hrooted

private theorem encoded_of_validateComponents {pathInput : Str} {query fragment : Option Str}
    {components : Components}
    (h : validateComponents pathInput query fragment = .ok components) :
    Encoded .path components.path.bytes ∧ EncodedOption .query components.query ∧
      EncodedOption .fragment components.fragment := by
  obtain ⟨hpath, hquery, hfragment⟩ := validateComponents_eq_ok.mp h
  exact ⟨encoded_of_validateComponent hpath, encoded_of_validateOptional hquery,
    encoded_of_validateOptional hfragment⟩

private theorem encoded_of_parseSuffix {suffix : Str} {components : Components}
    (h : parseSuffix suffix = .ok components) :
    Encoded .path components.path.bytes ∧ EncodedOption .query components.query ∧
      EncodedOption .fragment components.fragment := by
  obtain ⟨path, -, hvalid⟩ := parseSuffix_eq_ok.mp h
  exact encoded_of_validateComponents hvalid

private theorem canonical_of_parseAbsolute {input : Str} {url : Url}
    (h : parseAbsolute input = .ok url) : Canonical url := by
  obtain ⟨⟨scheme, after⟩, -, h⟩ := Try.bind_eq_ok.mp h
  simp only [] at h
  split at h
  · cases h
  split at h
  · cases h
  obtain ⟨⟨host, port⟩, hauthority, h⟩ := Try.bind_eq_ok.mp h
  obtain ⟨components, hsuffix, h⟩ := Try.bind_eq_ok.mp h
  cases h
  obtain ⟨hhost, hport⟩ := canonical_of_parseAuthority hauthority
  obtain ⟨hpath, hquery, hfragment⟩ := encoded_of_parseSuffix hsuffix
  exact ⟨hhost, hport, normalPath_normalizePath hpath, hquery, hfragment⟩

/-- The directory of a normal path is encoded. -/
theorem encoded_pathDirectory {path : Str} (h : NormalPath path) :
    Encoded .path (pathDirectory path).bytes := by
  obtain ⟨before, last, hpath, hdirectory⟩ := exists_pathDirectory h.rooted
  have hencoded := h.encoded
  rw [hpath] at hencoded
  rw [hdirectory]
  exact (hencoded.cut (by decide) (by decide)).1.append
    (.single (by decide) (by decide) (by decide))

private theorem canonical_of_resolveRelative {base url : Url} {reference : Str}
    (hbase : Canonical base)
    (h : resolveRelative base reference = .ok url) : Canonical url := by
  unfold resolveRelative at h
  split at h
  · cases h
  obtain ⟨relative, hrelative, h⟩ := Try.bind_eq_ok.mp h
  cases h
  obtain ⟨hpath, hquery, hfragment⟩ := encoded_of_validateComponents hrelative
  refine ⟨hbase.host, hbase.port, ?_, ?_, hfragment⟩
  · simp only []
    split
    · exact hbase.path
    split
    · exact normalPath_normalizePath hpath
    · exact normalPath_normalizePath ((encoded_pathDirectory hbase.path).append hpath)
  · simp only []
    split
    · next value hvalue => exact hvalue ▸ hquery
    split
    · exact hbase.query
    · simp [EncodedOption]

private theorem canonical_of_resolve {base url : Url} {reference : Str} (hbase : Canonical base)
    (h : resolve base reference = .ok url) : Canonical url := by
  unfold resolve resolveReference at h
  split at h
  · exact canonical_of_parseAbsolute h
  · exact canonical_of_resolveRelative hbase h

private theorem canonical_of_appendPathSegments {base url : Url} {segments : List Str}
    (hbase : Canonical base) (h : appendPathSegments base segments = .ok url) :
    Canonical url := by
  unfold appendPathSegments at h
  split at h
  · cases h
  cases h
  have hslash : Encoded .path (Str.lit "/").bytes := .single (by decide) (by decide) (by decide)
  have hsuffix : Encoded .path
      (Str.joinWith (segments.map percentEncode) (.lit "/")).bytes := by
    rw [Str.joinWith_bytes]
    refine Encoded.intercalate hslash fun bytes hbytes => ?_
    obtain ⟨part, hpart, rfl⟩ := List.mem_map.mp hbytes
    obtain ⟨segment, -, rfl⟩ := List.mem_map.mp hpart
    exact encoded_percentEncode segment
  refine ⟨hbase.host, hbase.port, normalPath_normalizePath ?_, hbase.query, hbase.fragment⟩
  split
  · exact hbase.path.encoded
  split
  · exact hslash.append hsuffix
  split
  · exact hbase.path.encoded.append hsuffix
  · exact (hbase.path.encoded.append hslash).append hsuffix

private theorem canonical_appendQueryParam {base : Url} (hbase : Canonical base) (key value : Str) :
    Canonical (appendQueryParam base key value) := by
  have hplain : ∀ byte : UInt8, byte = 61 ∨ byte = 38 → Encoded .query [byte] := by
    rintro byte (rfl | rfl) <;> exact .single (by decide) (by decide) (by decide)
  have hpair : Encoded .query
      (Str.concat (Str.concat (formEncode key) (.lit "=")) (formEncode value)).bytes :=
    ((encoded_formEncode key).append (hplain 61 (.inl rfl))).append (encoded_formEncode value)
  refine ⟨hbase.host, hbase.port, hbase.path, ?_, hbase.fragment⟩
  intro query hquery
  obtain rfl := Option.some.inj hquery
  split
  · exact hpair
  · next existing hexisting =>
    split
    · exact hpair
    · exact ((hbase.query existing hexisting).append (hplain 38 (.inr rfl))).append hpair

private theorem canonical_of_withQuery {base url : Url} {option : Option Str}
    (hbase : Canonical base)
    (h : withQuery base option = .ok url) : Canonical url := by
  unfold withQuery at h
  obtain ⟨value, hvalue, h⟩ := Try.bind_eq_ok.mp h
  cases h
  exact ⟨hbase.host, hbase.port, hbase.path, encoded_of_validateOptional hvalue, hbase.fragment⟩

private theorem canonical_of_withFragment {base url : Url} {option : Option Str}
    (hbase : Canonical base)
    (h : withFragment base option = .ok url) : Canonical url := by
  unfold withFragment at h
  obtain ⟨value, hvalue, h⟩ := Try.bind_eq_ok.mp h
  cases h
  exact ⟨hbase.host, hbase.port, hbase.path, hbase.query, encoded_of_validateOptional hvalue⟩

/-- Every reachable URL is canonical. -/
theorem Reachable.canonical {url : Url} (h : Reachable url) : Canonical url := by
  induction h with
  | parse h => exact canonical_of_parseAbsolute h
  | resolve _ h ih => exact canonical_of_resolve ih h
  | appendPathSegments _ h ih => exact canonical_of_appendPathSegments ih h
  | appendQueryParam _ key value ih => exact canonical_appendQueryParam ih key value
  | withQuery _ h ih => exact canonical_of_withQuery ih h
  | withFragment _ h ih => exact canonical_of_withFragment ih h
  | withoutFragment _ ih =>
    exact ⟨ih.host, ih.port, ih.path, ih.query, by simp [Url.withoutFragment, EncodedOption]⟩

end Url

end TrantorCli
