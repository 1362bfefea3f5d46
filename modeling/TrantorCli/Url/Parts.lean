import TrantorCli.Url.Accepted

/-!
# The parts of a text

The text of an absolute URL is a scheme name, a host, a port and a suffix. Each
part ends where the next one starts, so a text has its parts in one way, and what
parsing reads are these.
-/

open Roc

namespace TrantorCli.Url

/-- The parts of the text of an absolute URL. -/
@[ext] structure Parts where
  /-- The name of the scheme. -/
  name : List UInt8
  /-- The host, in brackets if it is an IPv6 address. -/
  host : List UInt8
  /-- The digits of the port, if there is one. -/
  port : Option (List UInt8)
  /-- The path, query and fragment. -/
  suffix : List UInt8
  deriving DecidableEq

namespace Parts

/-- The text that has the parts. -/
def text (x : Parts) : List UInt8 :=
  x.name ++ 58 :: 47 :: 47 :: (x.host ++ portText x.port ++ x.suffix)

/-- Each part ends where the next one starts. -/
structure WellFormed (x : Parts) : Prop where
  /-- The name ends at the first colon. -/
  name : 58 ∉ x.name
  /-- The authority ends at the first delimiter. -/
  authority : ∀ byte ∈ x.host ++ portText x.port, isDelimiter byte = false
  /-- The suffix starts with a delimiter, if there is one. -/
  suffix : ∀ first ∈ x.suffix.head?, isDelimiter first = true
  /-- The host ends at a colon, or at the bracket that closes it. -/
  host : (58 ∉ x.host ∧ x.host.head? ≠ some 91) ∨
    ∃ address, x.host = 91 :: (address ++ [93]) ∧ 93 ∉ address

end Parts

/-! ### The parts of a text -/

private theorem portText_injective {port other : Option (List UInt8)}
    (h : portText port = portText other) :
    port = other := by
  cases port with
  | none =>
    cases other with
    | none => rfl
    | some digits => cases h
  | some digits =>
    cases other with
    | none => cases h
    | some digits' => rw [(List.cons.inj h).2]

/-- A host without colon is what precedes the first one. -/
theorem plainHost_inj {host host' : List UInt8} {port port' : Option (List UInt8)}
    (h : 58 ∉ host) (h' : 58 ∉ host') (heq : host ++ portText port = host' ++ portText port') :
    host = host' ∧ port = port' := by
  cases port with
  | none =>
    cases port' with
    | none => exact ⟨by simpa [portText] using heq, rfl⟩
    | some digits =>
      rw [portText, List.append_nil] at heq
      rw [heq] at h
      simp [portText] at h
  | some digits =>
    cases port' with
    | none =>
      rw [portText, portText, List.append_nil] at heq
      rw [← heq] at h'
      simp at h'
    | some digits' =>
      obtain ⟨rfl, rfl⟩ := Cut.append_cons_inj h h' heq
      exact ⟨rfl, rfl⟩

/-- A host that does not start with a bracket is no bracketed one. -/
theorem plainHost_ne_bracketed {host address : List UInt8} {port port' : Option (List UInt8)}
    (h : host.head? ≠ some 91) :
    host ++ portText port ≠ 91 :: (address ++ [93]) ++ portText port' := by
  intro heq
  cases host with
  | nil =>
    cases port with
    | none => cases heq
    | some digits => exact absurd (List.cons.inj heq).1 (by decide)
  | cons first rest => exact h (by rw [List.head?_cons, (List.cons.inj heq).1])

private theorem authority_inj {x y : Parts} (hx : x.WellFormed) (hy : y.WellFormed)
    (h : x.host ++ portText x.port = y.host ++ portText y.port) :
    x.host = y.host ∧ x.port = y.port := by
  rcases hx.host with ⟨hx, hxhead⟩ | ⟨a, hxhost, hx⟩
  · rcases hy.host with ⟨hy, -⟩ | ⟨b, hyhost, -⟩
    · exact plainHost_inj hx hy h
    · rw [hyhost] at h
      exact absurd h (plainHost_ne_bracketed hxhead)
  · rcases hy.host with ⟨-, hyhead⟩ | ⟨b, hyhost, hy⟩
    · rw [hxhost] at h
      exact absurd h.symm (plainHost_ne_bracketed hyhead)
    · rw [hxhost, hyhost, List.cons_append, List.cons_append, List.append_assoc, List.append_assoc,
        List.cons.injEq, List.singleton_append, List.singleton_append] at h
      obtain ⟨rfl, hport⟩ := Cut.append_cons_inj hx hy h.2
      exact ⟨hxhost.trans hyhost.symm, portText_injective hport⟩

/-- A text has its parts in one way. -/
theorem parts_inj {x y : Parts} (hx : x.WellFormed) (hy : y.WellFormed) (h : x.text = y.text) :
    x = y := by
  obtain ⟨hname, hrest⟩ := Cut.append_cons_inj hx.name hy.name h
  have htail : x.host ++ portText x.port ++ x.suffix = y.host ++ portText y.port ++ y.suffix :=
    (List.cons.inj (List.cons.inj hrest).2).2
  have hcut : ∀ z : Parts, z.WellFormed →
      (z.host ++ portText z.port ++ z.suffix).takeWhile (fun byte => !isDelimiter byte) =
          z.host ++ portText z.port ∧
        (z.host ++ portText z.port ++ z.suffix).dropWhile (fun byte => !isDelimiter byte) =
          z.suffix := by
    intro z hz
    apply Cut.takeWhile_append_exact
    · intro byte hmem
      rw [hz.authority byte hmem]
      rfl
    · intro byte hmem
      rw [hz.suffix byte hmem]
      rfl
  obtain ⟨hxauthority, hxsuffix⟩ := hcut x hx
  obtain ⟨hyauthority, hysuffix⟩ := hcut y hy
  rw [htail, hyauthority] at hxauthority
  rw [htail, hysuffix] at hxsuffix
  obtain ⟨hhost, hport⟩ := authority_inj hx hy hxauthority.symm
  exact Parts.ext hname hhost hport hxsuffix.symm

private theorem ReadsHost.form {raw host : Str} (h : ReadsHost raw host) :
    (58 ∉ raw.bytes ∧ raw.bytes.head? ≠ some 91) ∨
      ∃ address, raw.bytes = 91 :: (address ++ [93]) ∧ 93 ∉ address := by
  cases h with
  | plain hvalid =>
    have hbytes := isHostByte_of_validateHost hvalid
    refine .inl ⟨fun hmem => absurd (hbytes 58 hmem) (by decide), fun hhead => ?_⟩
    exact absurd (hbytes 91 (List.mem_of_head? hhead)) (by decide)
  | @ipv6 address host hvalid =>
    refine .inr ⟨address.bytes, rfl, fun hmem => ?_⟩
    rcases isHex_of_validateIpv6 hvalid 93 hmem with hcolon | hhex
    · exact absurd hcolon (by decide)
    · exact absurd hhex (by decide)

/-- The parts that were read are parts of the text. -/
theorem Reading.wellFormed {input : Str} {url : Url} {name rawHost : Str} {rawPort : Option Str}
    {suffix : Str} (h : Reading input url name rawHost rawPort suffix) :
    (⟨name.bytes, rawHost.bytes, rawPort.map Str.bytes, suffix.bytes⟩ : Parts).WellFormed := by
  refine ⟨fun hmem => ?_, fun byte hmem => ?_, h.delimiter, ?_⟩
  · have halpha := isAlpha_schemeStr url.scheme (lowerByte 58) (by
      rw [← h.scheme]
      exact List.mem_map_of_mem hmem)
    exact absurd halpha (by decide)
  · apply (isDelimiter_of_isAuthorityByte _).1
    rcases List.mem_append.mp hmem with hhost | hport
    · exact h.host.bytes byte hhost
    · exact isAuthorityByte_of_readPort h.port byte hport
  · exact h.host.form

end TrantorCli.Url
