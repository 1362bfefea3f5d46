import TrantorCli.Url.Authority
import TrantorCli.Url.HostGrammar
import TrantorCli.Url.Ipv6Grammar

/-!
# What authority parsing accepts

An authority is read exactly when it is a host that validation reads with an
optional port behind it, each read on its own. What a `Url` stores as host and
port is such a text, and is read back as it stands.
-/

open Roc

namespace TrantorCli.Url

/-- A raw port with the colon in front of it. -/
def portText (port : Option (List UInt8)) : List UInt8 :=
  match port with
  | none => []
  | some digits => 58 :: digits

/-- What `parse_authority` makes of a raw port. -/
def readPort (port : Option Str) (scheme : Scheme) : Except ParseErr (Option UInt16) :=
  match port with
  | none => .ok none
  | some digits => parsePort digits scheme

/-- A raw host and the host that is read from it. -/
inductive ReadsHost : Str → Str → Prop where
  /-- A name or an IPv4 address. -/
  | plain {raw host : Str} (h : validateHost raw = .ok host) : ReadsHost raw host
  /-- An IPv6 address in brackets. -/
  | ipv6 {address host : Str} (h : validateIpv6 address = .ok host) :
      ReadsHost (bracketed address) (bracketed host)

/-! ### Bytes of an authority -/

/-- A valid address has hex digits and colons. -/
theorem isHex_of_validateIpv6 {raw host : Str} (h : validateIpv6 raw = .ok host) :
    ∀ byte ∈ raw.bytes, byte = 58 ∨ isHex byte = true := by
  obtain ⟨values, hdenotes, -⟩ := denotes_of_validateIpv6 h
  intro byte hmem
  rcases hdenotes.bytes byte hmem with hcolon | hdigit
  · exact .inl hcolon
  · exact .inr (isHex_iff_digitValue.mpr hdigit)

private theorem isDigit_of_parsePort {raw : Str} {scheme : Scheme} {port : Option UInt16}
    (h : parsePort raw scheme = .ok port) : ∀ byte ∈ raw.bytes, isDigit byte = true := by
  unfold parsePort at h
  split at h
  · cases h
  · next value hvalue => exact (parseDecimal_eq_some hvalue).2.1

/-- Authorities are ASCII. -/
theorem ascii_of_isAuthorityByte {byte : UInt8} (h : isAuthorityByte byte = true) :
    byte < 128 := by
  unfold isAuthorityByte isHostByte at h
  grind

/-- A host that is read has an authority's bytes. -/
theorem ReadsHost.bytes {raw host : Str} (h : ReadsHost raw host) :
    ∀ byte ∈ raw.bytes, isAuthorityByte byte = true := by
  intro byte hmem
  cases h with
  | plain h =>
    rw [isAuthorityByte, isHostByte_of_validateHost h byte hmem]
    rfl
  | ipv6 h =>
    rw [bracketed_bytes, List.mem_append, List.mem_cons, List.mem_singleton] at hmem
    rcases hmem with (rfl | hmem) | rfl
    · decide
    · rcases isHex_of_validateIpv6 h byte hmem with rfl | hhex
      · decide
      · exact isAuthorityByte_of_isHex hhex
    · decide

/-- A host that is read is not empty. -/
theorem ReadsHost.ne_nil {raw host : Str} (h : ReadsHost raw host) : raw.bytes ≠ [] := by
  cases h with
  | plain h => exact ne_nil_of_validateHost h
  | ipv6 h => simp

/-- A raw port that can be read is made of digits. -/
theorem isDigit_of_readPort {raw : Option Str} {scheme : Scheme} {port : Option UInt16}
    (h : readPort raw scheme = .ok port) : ∀ digits ∈ raw, ∀ byte ∈ digits.bytes,
      isDigit byte = true := by
  rintro digits rfl
  exact isDigit_of_parsePort h

/-- A port that is read has an authority's bytes. -/
theorem isAuthorityByte_of_readPort {raw : Option Str} {scheme : Scheme} {port : Option UInt16}
    (h : readPort raw scheme = .ok port) :
    ∀ byte ∈ portText (raw.map Str.bytes), isAuthorityByte byte = true := by
  intro byte hmem
  cases raw with
  | none => simp [portText] at hmem
  | some digits =>
    rcases List.mem_cons.mp hmem with rfl | hmem
    · decide
    · exact isAuthorityByte_of_isDigit (isDigit_of_readPort h digits rfl byte hmem)

private theorem colon_not_mem_of_readPort {raw : Str} {scheme : Scheme} {port : Option UInt16}
    (h : readPort (some raw) scheme = .ok port) : 58 ∉ raw.bytes := by
  intro hmem
  have hdigit := isDigit_of_readPort h raw rfl 58 hmem
  exact absurd hdigit (by decide)

/-! ### Authorities -/

/-- `split_last` finds the last colon, or there is none. -/
theorem splitLast_cases (str : Str) :
    (58 ∉ str.bytes ∧ splitLast str (.lit ":") = none) ∨
      ∃ before after : Str, str.bytes = before.bytes ++ 58 :: after.bytes ∧
        splitLast str (.lit ":") = some (before, after) := by
  by_cases hcolon : 58 ∈ str.bytes
  · obtain ⟨front, back, hbytes, hback⟩ := SplitOn.eq_append_cons_of_mem_last hcolon
    have hvalid := str.valid
    rw [hbytes] at hvalid
    obtain ⟨hfront, hrest⟩ := Utf8.Valid.cut hvalid (by decide)
    have hafter : Utf8.Valid back :=
      Utf8.Valid.of_append_left (Utf8.Ascii.valid (by simp) : Utf8.Valid [58]) hrest
    exact .inr ⟨⟨front, hfront⟩, ⟨back, hafter⟩, hbytes, splitLast_of_eq colon_bytes hbytes hback⟩
  · exact .inl ⟨hcolon, splitLast_of_not_mem colon_bytes hcolon⟩

private theorem parseAuthority_of_plain {authority rawHost host : Str} {rawPort : Option Str}
    {scheme : Scheme} {port : Option UInt16} (hhost : validateHost rawHost = .ok host)
    (hport : readPort rawPort scheme = .ok port)
    (h : authority.bytes = rawHost.bytes ++ portText (rawPort.map Str.bytes)) :
    parseAuthority authority scheme = .ok (host, port) := by
  have hbytes := isHostByte_of_validateHost hhost
  have hnot : ¬startsWith authority (.lit "[") = true := by
    rw [startsWith_iff]
    rintro ⟨rest, hrest⟩
    obtain ⟨first, tail, hcons⟩ := List.exists_cons_of_ne_nil (ne_nil_of_validateHost hhost)
    rw [leftBracket_bytes, h, hcons, List.cons_append] at hrest
    have hfirst := hbytes first (by rw [hcons]; simp)
    rw [← (List.cons.inj hrest).1] at hfirst
    exact absurd hfirst (by decide)
  have hcolon : 58 ∉ rawHost.bytes := fun hmem => absurd (hbytes 58 hmem) (by decide)
  rw [parseAuthority, if_neg hnot]
  cases rawPort with
  | none =>
    have hwhole : authority = rawHost := Str.ext (by simpa [portText] using h)
    cases hport
    rw [hwhole, splitLast_of_not_mem colon_bytes hcolon]
    simp [hhost]
  | some digits =>
    have hport' : parsePort digits scheme = .ok port := hport
    rw [splitLast_of_eq colon_bytes h (colon_not_mem_of_readPort hport)]
    simp [hhost, hport']

/-- The text of a raw port is a string. -/
theorem exists_portText (rawPort : Option Str) :
    ∃ after : Str, after.bytes = portText (rawPort.map Str.bytes) := by
  cases rawPort with
  | none => exact ⟨.lit "", rfl⟩
  | some digits => exact ⟨Str.concat (.lit ":") digits, rfl⟩

/-- Behind a closing bracket stands nothing, or a colon and a port. -/
theorem portBehindBracket_iff {authority after : Str} {scheme : Scheme} {port : Option UInt16} :
    (if after.isEmpty then .ok none
      else if startsWith after (.lit ":") then parsePort (dropPrefix after (.lit ":")) scheme
      else .error (.invalidIpv6 authority)) = Except.ok port ↔
      ∃ rawPort, after.bytes = portText (rawPort.map Str.bytes) ∧
        readPort rawPort scheme = .ok port := by
  by_cases hempty : after.isEmpty = true
  · have hnil := Str.isEmpty_iff.mp hempty
    rw [if_pos hempty]
    constructor
    · intro h
      exact ⟨none, hnil, h⟩
    · rintro ⟨rawPort, hbytes, hport⟩
      cases rawPort with
      | none => exact hport
      | some digits =>
        rw [hnil] at hbytes
        cases hbytes
  rw [if_neg hempty]
  by_cases hcolon : startsWith after (.lit ":") = true
  · obtain ⟨rest, hrest⟩ := startsWith_iff.mp hcolon
    rw [if_pos hcolon]
    constructor
    · intro h
      refine ⟨some (dropPrefix after (.lit ":")), ?_, h⟩
      rw [Option.map_some, portText, dropPrefix_bytes (by simp) hrest.symm, ← hrest]
      rfl
    · rintro ⟨rawPort, hbytes, hport⟩
      cases rawPort with
      | none => exact absurd (Str.isEmpty_iff.mpr hbytes) hempty
      | some digits =>
        have hdigits : dropPrefix after (.lit ":") = digits :=
          Str.ext (dropPrefix_bytes (by simp) hbytes)
        rw [hdigits]
        exact hport
  · rw [if_neg hcolon]
    constructor
    · intro h
      cases h
    · rintro ⟨rawPort, hbytes, -⟩
      cases rawPort with
      | none => exact absurd (Str.isEmpty_iff.mpr hbytes) hempty
      | some digits => exact absurd (startsWith_iff.mpr ⟨_, hbytes.symm⟩) hcolon

private theorem parseAuthority_of_ipv6 {authority address host : Str} {rawPort : Option Str}
    {scheme : Scheme} {port : Option UInt16} (hhost : validateIpv6 address = .ok host)
    (hport : readPort rawPort scheme = .ok port)
    (h : authority.bytes = (bracketed address).bytes ++ portText (rawPort.map Str.bytes)) :
    parseAuthority authority scheme = .ok (bracketed host, port) := by
  have hclose : 93 ∉ (Str.concat (.lit "[") address).bytes := by
    intro hmem
    rcases List.mem_cons.mp hmem with hopen | hmem
    · exact absurd hopen (by decide)
    · rcases isHex_of_validateIpv6 hhost 93 hmem with hcolon | hhex
      · exact absurd hcolon (by decide)
      · exact absurd hhex (by decide)
  have hstarts : startsWith authority (.lit "[") = true := by
    rw [startsWith_iff, h]
    exact ⟨_, rfl⟩
  obtain ⟨after, hafter⟩ := exists_portText rawPort
  have hsplit : splitFirst authority (.lit "]") = some (Str.concat (.lit "[") address, after) := by
    refine (splitFirst_eq_some rightBracket_bytes).mpr ⟨?_, hclose⟩
    simp [h, hafter]
  have hdrop : dropPrefix (Str.concat (.lit "[") address) (.lit "[") = address :=
    Str.ext (dropPrefix_bytes (by simp) rfl)
  rw [parseAuthority, if_pos hstarts, hsplit]
  simp only [hdrop, hhost, Try.ok_bind]
  rw [portBehindBracket_iff.mpr ⟨rawPort, hafter, hport⟩]
  rfl

/-- What stands before a closing bracket is opened where the whole text is. -/
theorem exists_opened {authority before : Str} {after : List UInt8}
    (hstarts : startsWith authority (.lit "[") = true)
    (h : authority.bytes = before.bytes ++ 93 :: after) : ∃ inner, before.bytes = 91 :: inner := by
  obtain ⟨rest, hrest⟩ := startsWith_iff.mp hstarts
  rw [leftBracket_bytes, h] at hrest
  cases hbefore : before.bytes with
  | nil =>
    rw [hbefore] at hrest
    cases hrest
  | cons first inner =>
    rw [hbefore] at hrest
    exact ⟨inner, by rw [← (List.cons.inj hrest).1]⟩

/-- An authority is read as a host and a port exactly when it is a text of both. -/
theorem parseAuthority_iff {authority host : Str} {scheme : Scheme} {port : Option UInt16} :
    parseAuthority authority scheme = .ok (host, port) ↔
      ∃ rawHost rawPort, authority.bytes = rawHost.bytes ++ portText (rawPort.map Str.bytes) ∧
        ReadsHost rawHost host ∧ readPort rawPort scheme = .ok port := by
  constructor
  · intro h
    unfold parseAuthority at h
    split at h
    · next hstarts =>
      split at h
      · cases h
      next before after hsplit =>
      obtain ⟨hauthority, -⟩ := (splitFirst_eq_some rightBracket_bytes).mp hsplit
      obtain ⟨address, haddress, h⟩ := Try.bind_eq_ok.mp h
      obtain ⟨value, hvalue, h⟩ := Try.bind_eq_ok.mp h
      cases h
      obtain ⟨inner, hinner⟩ := exists_opened hstarts hauthority
      obtain ⟨rawPort, hafter, hport⟩ := portBehindBracket_iff.mp hvalue
      have hraw : (bracketed (dropPrefix before (.lit "["))).bytes = before.bytes ++ [93] := by
        rw [bracketed_bytes, dropPrefix_bytes (by simp) hinner, hinner]
      refine ⟨bracketed (dropPrefix before (.lit "[")), rawPort, ?_, .ipv6 haddress, hport⟩
      rw [hauthority, hraw, ← hafter, List.append_assoc, List.singleton_append]
    · simp only [] at h
      obtain ⟨name, hname, h⟩ := Try.bind_eq_ok.mp h
      obtain ⟨value, hvalue, h⟩ := Try.bind_eq_ok.mp h
      cases h
      rcases splitLast_cases authority with ⟨-, hnone⟩ | ⟨before, after, hbytes, hsome⟩
      · rw [hnone] at hname hvalue
        exact ⟨authority, none, by simp [portText], .plain hname, hvalue⟩
      · rw [hsome] at hname hvalue
        exact ⟨before, some after, hbytes, .plain hname, hvalue⟩
  · rintro ⟨rawHost, rawPort, hauthority, hhost, hport⟩
    cases hhost with
    | plain hhost => exact parseAuthority_of_plain hhost hport hauthority
    | ipv6 hhost => exact parseAuthority_of_ipv6 hhost hport hauthority

/-! ### What is read is canonical -/

private theorem ReadsHost.canonical {raw host : Str} (h : ReadsHost raw host) :
    CanonicalHost host := by
  cases h with
  | plain h => exact .plain (plainHost_of_validateHost h)
  | ipv6 h =>
    obtain ⟨groups, hlen, rfl⟩ := exists_groups_of_validateIpv6 h
    exact .ipv6 hlen

private theorem canonicalPort_of_readPort {raw : Option Str} {scheme : Scheme}
    {port : Option UInt16}
    (h : readPort raw scheme = .ok port) : CanonicalPort scheme port := by
  cases raw with
  | none =>
    cases h
    simp [CanonicalPort]
  | some digits => exact canonicalPort_of_parsePort h

/-- Parsing an authority gives a canonical host and port. -/
theorem canonical_of_parseAuthority {authority host : Str} {scheme : Scheme}
    {port : Option UInt16} (h : parseAuthority authority scheme = .ok (host, port)) :
    CanonicalHost host ∧ CanonicalPort scheme port := by
  obtain ⟨rawHost, rawPort, -, hhost, hport⟩ := parseAuthority_iff.mp h
  exact ⟨hhost.canonical, canonicalPort_of_readPort hport⟩

/-- A canonical host is read as it stands. -/
theorem CanonicalHost.reads {host : Str} (h : CanonicalHost host) : ReadsHost host host := by
  cases h with
  | plain h => exact .plain h.valid
  | ipv6 hlen => exact .ipv6 (validateIpv6_serializeIpv6 hlen)

/-- A port in its canonical form is read as itself. -/
theorem readPort_canonical {scheme : Scheme} {port : Option UInt16}
    (h : CanonicalPort scheme port) :
    readPort (port.map fun value => decimalStr value.toNat) scheme = .ok port := by
  cases port with
  | none => rfl
  | some value => exact parsePort_decimalStr (h value rfl)

/-- A port is written in its canonical form. -/
theorem portText_canonical (port : Option UInt16) :
    portText ((port.map fun value => decimalStr value.toNat).map Str.bytes) =
      (portStr port).bytes := by
  cases port <;> rfl

end TrantorCli.Url
