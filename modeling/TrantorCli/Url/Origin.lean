import TrantorCli.Url.AuthorityGrammar
import TrantorCli.Url.Canonical
import TrantorCli.Url.Cuts

/-!
# Parsing behind a canonical origin

`origin` is the part of a serialized URL in front of its path. Parsing an origin
followed by a rooted suffix gives back the scheme, host and port, and is
otherwise the parsing of the suffix; both main results rest on this equation.
-/

open Roc

namespace TrantorCli.Url

/-- `scheme://host[:port]`, as `serialize` writes it. -/
def origin (url : Url) : Str :=
  Str.concat (Str.concat (Str.concat (schemeStr url.scheme) (.lit "://")) url.host)
    (portStr url.port)

/-- No delimiter stands in an authority. -/
theorem isDelimiter_of_isAuthorityByte {byte : UInt8} (h : isAuthorityByte byte = true) :
    isDelimiter byte = false ∧ byte ≠ 64 := by
  unfold isAuthorityByte isHostByte at h
  unfold isDelimiter
  grind

private theorem not_contains_at {s : Str} (h : 64 ∉ s.bytes) : s.contains (.lit "@") = false := by
  rw [Str.contains, at_bytes, Cut.cut_singleton_eq_none.mpr h]
  rfl

/-- An input made of a scheme name, a host, a port and a suffix is parsed part by part. -/
theorem parse_parts {input name rawHost host suffix : Str} {rawPort : Option Str} {scheme : Scheme}
    {port : Option UInt16} (hname : name.bytes.map lowerByte = (schemeStr scheme).bytes)
    (hhost : ReadsHost rawHost host) (hport : readPort rawPort scheme = .ok port)
    (hdelimiter : ∀ first ∈ suffix.bytes.head?, isDelimiter first = true)
    (hinput : input.bytes = name.bytes ++ 58 :: 47 :: 47 ::
      (rawHost.bytes ++ portText (rawPort.map Str.bytes) ++ suffix.bytes)) :
    parse input = (parseSuffix suffix).map fun components =>
      { scheme, host, port
        path := normalizePath components.path
        query := components.query
        fragment := components.fragment } := by
  have hbytes : ∀ byte ∈ rawHost.bytes ++ portText (rawPort.map Str.bytes),
      isAuthorityByte byte = true := by
    intro byte hmem
    rcases List.mem_append.mp hmem with hmem | hmem
    · exact hhost.bytes byte hmem
    · exact isAuthorityByte_of_readPort hport byte hmem
  have hvalid : Utf8.Valid (rawHost.bytes ++ portText (rawPort.map Str.bytes)) :=
    Utf8.Ascii.valid fun byte hmem => ascii_of_isAuthorityByte (hbytes byte hmem)
  have hscheme : splitScheme input = .ok (scheme, Str.concat ⟨_, hvalid⟩ suffix) :=
    splitScheme_iff.mpr ⟨name, hname, hinput⟩
  have hsplit : splitAuthority (Str.concat ⟨_, hvalid⟩ suffix) = (⟨_, hvalid⟩, suffix) :=
    splitAuthority_iff.mpr ⟨rfl, fun byte hmem =>
      (isDelimiter_of_isAuthorityByte (hbytes byte hmem)).1, hdelimiter⟩
  have hne : ¬(Str.mk _ hvalid).isEmpty = true := by
    rw [Str.isEmpty_iff]
    exact fun hempty => hhost.ne_nil (List.append_eq_nil_iff.mp hempty).1
  have hat : (Str.mk _ hvalid).contains (.lit "@") = false :=
    not_contains_at fun hmem => (isDelimiter_of_isAuthorityByte (hbytes 64 hmem)).2 rfl
  have hauthority : parseAuthority ⟨_, hvalid⟩ scheme = .ok (host, port) :=
    parseAuthority_iff.mpr ⟨rawHost, rawPort, rfl, hhost, hport⟩
  rw [parse, parseAbsolute, hscheme, Try.ok_bind]
  simp only [hsplit]
  rw [if_neg hne, hat]
  simp only [hauthority, Try.ok_bind]
  cases parseSuffix suffix <;> rfl

/-- Parsing a canonical origin and a rooted suffix is parsing the suffix. -/
theorem parse_origin_concat {url : Url} (h : Canonical url) {suffix : Str}
    (hsuffix : [47] <+: suffix.bytes) :
    parse (Str.concat (origin url) suffix) =
      (parseSuffix suffix).map fun components =>
        { url with
          path := normalizePath components.path
          query := components.query
          fragment := components.fragment } := by
  have hdelimiter : ∀ first ∈ suffix.bytes.head?, isDelimiter first = true := by
    obtain ⟨rest, hrest⟩ := hsuffix
    rintro first hfirst
    rw [← hrest, List.singleton_append, List.head?_cons, Option.mem_some] at hfirst
    exact hfirst ▸ rfl
  refine parse_parts (lower_schemeStr url.scheme) h.host.reads (readPort_canonical h.port)
    hdelimiter ?_
  rw [portText_canonical]
  simp [origin, show (Str.lit "://").bytes = [58, 47, 47] from rfl]

end TrantorCli.Url
