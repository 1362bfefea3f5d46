import TrantorCli.Url.Origin

/-!
# What parsing accepts

An input is accepted exactly when it is a scheme name, `://`, a host that
validation reads, an optional port and a suffix that parses. The conditions are
on the parts alone, so a change of one part changes what is read from that part.
-/

open Roc

namespace TrantorCli.Url

/-- The raw parts of an accepted input, and what is read from each. -/
structure Reading (input : Str) (url : Url) (name rawHost : Str) (rawPort : Option Str)
    (suffix : Str) : Prop where
  /-- The input is made of the parts. -/
  text : input.bytes = name.bytes ++ 58 :: 47 :: 47 ::
    (rawHost.bytes ++ portText (rawPort.map Str.bytes) ++ suffix.bytes)
  /-- The name is that of the scheme, in some case. -/
  scheme : name.bytes.map lowerByte = (schemeStr url.scheme).bytes
  /-- The host is read from the raw host. -/
  host : ReadsHost rawHost url.host
  /-- The port is read from the raw port. -/
  port : readPort rawPort url.scheme = .ok url.port
  /-- The suffix starts behind the authority. -/
  delimiter : ∀ first ∈ suffix.bytes.head?, isDelimiter first = true
  /-- The path, query and fragment are read from the suffix. -/
  components : (parseSuffix suffix).map
    (fun components => (normalizePath components.path, components.query, components.fragment)) =
      .ok (url.path, url.query, url.fragment)

/-- An input is accepted exactly when it has parts from which the URL is read. -/
theorem parse_iff {input : Str} {url : Url} :
    parse input = .ok url ↔
      ∃ name rawHost rawPort suffix, Reading input url name rawHost rawPort suffix := by
  constructor
  · intro h
    rw [parse, parseAbsolute] at h
    obtain ⟨⟨scheme, after⟩, hscheme, h⟩ := Try.bind_eq_ok.mp h
    obtain ⟨name, hname, hinput⟩ := splitScheme_iff.mp hscheme
    cases hsplit : splitAuthority after with
    | mk authority suffix =>
    obtain ⟨hafter, -, hdelimiter⟩ := splitAuthority_iff.mp hsplit
    simp only [hsplit] at h
    split at h
    · cases h
    split at h
    · cases h
    obtain ⟨⟨host, port⟩, hauthority, h⟩ := Try.bind_eq_ok.mp h
    obtain ⟨components, hcomponents, h⟩ := Try.bind_eq_ok.mp h
    obtain ⟨rawHost, rawPort, hraw, hhost, hport⟩ := parseAuthority_iff.mp hauthority
    cases h
    refine ⟨name, rawHost, rawPort, suffix, ?_, hname, hhost, hport, hdelimiter, ?_⟩
    · rw [hinput, hafter, hraw]
    · rw [hcomponents]
      rfl
  · rintro ⟨name, rawHost, rawPort, suffix, h⟩
    have hcomponents := h.components
    rw [parse_parts h.scheme h.host h.port h.delimiter h.text]
    cases hsuffix : parseSuffix suffix with
    | error err =>
      rw [hsuffix] at hcomponents
      cases hcomponents
    | ok components =>
      rw [hsuffix] at hcomponents
      simp only [Except.map, Except.ok.injEq, Prod.mk.injEq] at hcomponents
      obtain ⟨hpath, hquery, hfragment⟩ := hcomponents
      simp only [Except.map, hpath, hquery, hfragment]

end TrantorCli.Url
