import TrantorCli.Url.Origin

/-!
# The canonical round trip

A serialized URL parses to itself: the cuts at `#` and `?` fall where the
serializer put them, because encoded components do not hold those bytes.
Serialization is therefore injective on the URLs a program can hold.
-/

open Roc

namespace TrantorCli.Url

/-- A separator that is absent cuts nothing off. -/
theorem cutAt_of_not_mem {str separator : Str} {c : UInt8} (hsep : separator.bytes = [c])
    (h : c ∉ str.bytes) : cutAt str separator = (str, none) := by
  rw [cutAt, (splitFirst_eq_none hsep).mpr h]

/-- The first separator is the one that cuts. -/
theorem cutAt_of_bytes {str separator before after : Str} {c : UInt8}
    (hsep : separator.bytes = [c]) (hstr : str.bytes = before.bytes ++ c :: after.bytes)
    (h : c ∉ before.bytes) : cutAt str separator = (before, some after) := by
  rw [cutAt, (splitFirst_eq_some hsep).mpr ⟨hstr, h⟩]

/-- Joined components are cut where they were joined. -/
theorem splitComponents_join {path : Str} {query : Option Str} (fragment : Option Str)
    (hquestion : 63 ∉ path.bytes) (hhash : 35 ∉ path.bytes)
    (hquery : ∀ value ∈ query, 35 ∉ value.bytes) :
    splitComponents (Str.concat (Str.concat path (queryStr query)) (fragmentStr fragment)) =
      ⟨path, query, fragment⟩ := by
  have hbefore : 35 ∉ (Str.concat path (queryStr query)).bytes := by
    intro hmem
    rcases List.mem_append.mp hmem with hpath | hrest
    · exact hhash hpath
    · cases query with
      | none => cases hrest
      | some value =>
        rcases List.mem_cons.mp hrest with hmark | hvalue
        · exact absurd hmark (by decide)
        · exact hquery value rfl hvalue
  have hfragment : cutAt (Str.concat (Str.concat path (queryStr query)) (fragmentStr fragment))
      (.lit "#") = (Str.concat path (queryStr query), fragment) := by
    cases fragment with
    | none =>
      have hwhole : Str.concat (Str.concat path (queryStr query)) (fragmentStr none) =
          Str.concat path (queryStr query) := by
        ext1
        simp [fragmentStr]
      rw [hwhole, cutAt_of_not_mem hash_bytes hbefore]
    | some value => exact cutAt_of_bytes hash_bytes rfl hbefore
  have hpath : cutAt (Str.concat path (queryStr query)) (.lit "?") = (path, query) := by
    cases query with
    | none =>
      have hwhole : Str.concat path (queryStr none) = path := by
        ext1
        simp [queryStr]
      rw [hwhole, cutAt_of_not_mem question_bytes hquestion]
    | some value => exact cutAt_of_bytes question_bytes rfl hquestion
  rw [splitComponents, hfragment]
  simp only [hpath]

/-- Encoded components of a rooted path validate to themselves. -/
theorem validateComponents_encoded {path : Str} {query fragment : Option Str}
    (hpath : Encoded .path path.bytes) (hquery : EncodedOption .query query)
    (hfragment : EncodedOption .fragment fragment) :
    validateComponents path query fragment = .ok ⟨path, query, fragment⟩ :=
  validateComponents_eq_ok.mpr ⟨validateComponent_encoded hpath, validateOptional_encoded hquery,
    validateOptional_encoded hfragment⟩

/-- A suffix with a rooted path is validated as it is. -/
theorem parseSuffix_rooted {suffix : Str} (hrooted : [47] <+: (splitComponents suffix).path.bytes) :
    parseSuffix suffix = validateComponents (splitComponents suffix).path
      (splitComponents suffix).query (splitComponents suffix).fragment := by
  have hne : ¬(splitComponents suffix).path.isEmpty = true := by
    rw [Str.isEmpty_iff]
    rintro hempty
    rw [hempty] at hrooted
    simp at hrooted
  have hstarts : startsWith (splitComponents suffix).path (.lit "/") = true :=
    startsWith_iff.mpr hrooted
  simp only [parseSuffix]
  rw [if_neg hne, hstarts]
  rfl

/-- A path that was normalized has no query. -/
theorem NormalPath.question_not_mem {path : Str} (h : NormalPath path) : 63 ∉ path.bytes :=
  h.encoded.not_mem (by decide) (by decide) (by decide)

/-- A path that was normalized has no fragment. -/
theorem NormalPath.hash_not_mem {path : Str} (h : NormalPath path) : 35 ∉ path.bytes :=
  h.encoded.not_mem (by decide) (by decide) (by decide)

/-- A query that was encoded has no fragment. -/
theorem EncodedOption.hash_not_mem {query : Option Str} (h : EncodedOption .query query) :
    ∀ value ∈ query, 35 ∉ value.bytes := fun value hmem =>
  (h value hmem).not_mem (by decide) (by decide) (by decide)

private theorem toStr_eq_origin_concat (url : Url) :
    toStr url = Str.concat (origin url)
      (Str.concat (Str.concat url.path (queryStr url.query)) (fragmentStr url.fragment)) := by
  ext1
  simp [toStr, serialize, origin]

/-- A canonical URL is what its serialization parses to. -/
theorem Canonical.parse_toStr {url : Url} (h : Canonical url) : parse (toStr url) = .ok url := by
  have hrooted : [47] <+: (Str.concat (Str.concat url.path (queryStr url.query))
      (fragmentStr url.fragment)).bytes := by
    rw [Str.concat_bytes, Str.concat_bytes, List.append_assoc]
    exact h.path.rooted.trans (List.prefix_append _ _)
  have hsplit := splitComponents_join url.fragment h.path.question_not_mem h.path.hash_not_mem
    h.query.hash_not_mem
  rw [toStr_eq_origin_concat, parse_origin_concat h hrooted,
    parseSuffix_rooted (by rw [hsplit]; exact h.path.rooted), hsplit,
    validateComponents_encoded h.path.encoded h.query h.fragment]
  simp only [Except.map, normalizePath_normal h.path]

/-- Parsing a serialized URL gives back all six fields, so that serialization is
injective on reachable URLs and comparing it compares the fields. -/
theorem reachable_roundTrip {url : Url} (h : Reachable url) :
    parse (toStr url) = .ok url ∧
      ∀ other, Reachable other → (toStr url = toStr other → url = other) ∧
        (isEq url other = true ↔ url.scheme = other.scheme ∧ url.host = other.host ∧
          url.port = other.port ∧ url.path = other.path ∧ url.query = other.query ∧
          url.fragment = other.fragment) := by
  have hurl := h.canonical.parse_toStr
  refine ⟨hurl, fun other hother => ?_⟩
  have hinj : toStr url = toStr other → url = other := by
    intro heq
    rw [heq, hother.canonical.parse_toStr] at hurl
    exact (Except.ok.inj hurl).symm
  refine ⟨hinj, ?_⟩
  rw [isEq, beq_iff_eq]
  constructor
  · intro heq
    obtain rfl := hinj heq
    exact ⟨rfl, rfl, rfl, rfl, rfl, rfl⟩
  · rintro ⟨hscheme, hhost, hport, hpath, hquery, hfragment⟩
    obtain ⟨_, _, _, _, _, _⟩ := url
    obtain ⟨_, _, _, _, _, _⟩ := other
    simp only at hscheme hhost hport hpath hquery hfragment
    rw [hscheme, hhost, hport, hpath, hquery, hfragment]

/-- The port, the empty query and the fragment of one URL survive the round trip. -/
theorem reachable_roundTrip_example :
    parse (toStr ⟨.http, .lit "a", some 81, .lit "/", some (.lit ""), some (.lit "f")⟩) =
      .ok ⟨.http, .lit "a", some 81, .lit "/", some (.lit ""), some (.lit "f")⟩ :=
  (reachable_roundTrip (.parse
    (show parse (.lit "HTTP://A:81?#f") = .ok _ by decide +kernel))).1

end TrantorCli.Url
