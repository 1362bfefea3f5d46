import TrantorCli.Url.Escapes
import TrantorCli.Url.Parts

/-!
# Equivalent spellings

Two texts of a URL are spellings of one another when they differ in the case of
scheme, host and escapes, and in whether the default port is written. Parsing
gives every spelling the same URL.
-/

open Roc

namespace TrantorCli.Url

/-- The port that is meant when none is written. -/
def defaultPort : Scheme → ℕ
  | .http => 80
  | .https => 443

/-- A port that need not be written, with any number of leading zeros if it is. -/
def IsDefaultPort (name : List UInt8) (port : Option (List UInt8)) : Prop :=
  ∀ digits ∈ port, ∃ scheme zeros, name.map lowerByte = (schemeStr scheme).bytes ∧
    digits = List.replicate zeros 48 ++ Decimal.decimal (defaultPort scheme)

/-- The parts of two spellings of one URL. -/
structure Respelled (x y : Parts) : Prop where
  /-- The names of the schemes differ in case only. -/
  name : y.name.map lowerByte = x.name.map lowerByte
  /-- The hosts differ in case only. -/
  host : y.host.map lowerByte = x.host.map lowerByte
  /-- The ports are the same, or need not be written. -/
  port : y.port = x.port ∨ IsDefaultPort x.name x.port ∧ IsDefaultPort x.name y.port
  /-- The suffixes differ in the case of escapes only. -/
  suffix : SameEscapes x.suffix y.suffix

/-! ### Hosts in either case -/

variable {raw other host : Str}

private theorem asciiLower_eq_of_map (h : other.bytes.map lowerByte = raw.bytes.map lowerByte) :
    asciiLower other = asciiLower raw :=
  Str.ext (by rw [asciiLower_bytes, asciiLower_bytes, h])

/-- Addresses in digits and dots have one case. -/
theorem eq_of_isDotted (hraw : IsDotted raw.bytes)
    (h : other.bytes.map lowerByte = raw.bytes.map lowerByte) : other = raw := by
  have hsame : ∀ byte ∈ other.bytes, lowerByte byte = id byte := by
    intro byte hmem
    have hlower : lowerByte byte ∈ raw.bytes := by
      rw [← hraw.lower, ← h]
      exact List.mem_map_of_mem hmem
    obtain ⟨hdigit, -, hdot, -⟩ := lowerByte_class byte
    rcases hraw.bytes _ hlower with hclass | hclass
    · rw [← isDigit_iff, hdigit, isDigit_iff] at hclass
      exact lowerByte_of_isDigit hclass
    · rw [← beq_iff_eq, hdot, beq_iff_eq] at hclass
      rw [hclass]
      decide
  ext1
  rw [← hraw.lower, ← h, List.map_congr_left hsame, List.map_id]

private theorem validateHost_respelled (hraw : validateHost raw = .ok host)
    (h : other.bytes.map lowerByte = raw.bytes.map lowerByte) : validateHost other = .ok host := by
  obtain ⟨rfl, hform⟩ := validateHost_iff.mp hraw
  refine validateHost_iff.mpr ⟨(asciiLower_eq_of_map h).symm, ?_⟩
  rcases hform with hdotted | hname
  · rw [eq_of_isDotted hdotted h]
    exact .inl hdotted
  · right
    rw [← isDnsName_lower, h, isDnsName_lower]
    exact hname

private theorem keepsDigits_lowerByte : Ipv6.KeepsDigits lowerByte := by
  intro byte
  apply Words.forall_uint8 _ byte
  decide +kernel

private theorem validateIpv6_respelled (hraw : validateIpv6 raw = .ok host)
    (h : other.bytes.map lowerByte = raw.bytes.map lowerByte) : validateIpv6 other = .ok host := by
  obtain ⟨values, hdenotes, hhost⟩ := validateIpv6_iff.mp hraw
  refine validateIpv6_iff.mpr ⟨values, ?_, hhost⟩
  rw [← keepsDigits_lowerByte.denotes_iff, h, keepsDigits_lowerByte.denotes_iff]
  exact hdenotes

private theorem bracket_of_lowerByte (byte : UInt8) :
    (lowerByte byte = 91 ↔ byte = 91) ∧ (lowerByte byte = 93 ↔ byte = 93) := by
  grind

/-- Brackets have no case, so a spelling of a bracketed text is bracketed. -/
theorem exists_bracketed {address : Str}
    (h : other.bytes.map lowerByte = (bracketed address).bytes.map lowerByte) :
    ∃ inner : Str, other = bracketed inner ∧
      inner.bytes.map lowerByte = address.bytes.map lowerByte := by
  have hbrackets : lowerByte 91 = 91 ∧ lowerByte 93 = 93 := by decide
  rw [bracketed_bytes, List.cons_append, List.map_cons, List.map_append, List.map_singleton,
    hbrackets.1, hbrackets.2] at h
  obtain ⟨first, rest, hother, hfirst, hrest⟩ := List.map_eq_cons_iff.mp h
  obtain ⟨inner, close, rfl, hinner, hclose⟩ := List.map_eq_append_iff.mp hrest
  obtain ⟨last, rfl, hlast⟩ := List.map_eq_singleton_iff.mp hclose
  obtain rfl := (bracket_of_lowerByte first).1.mp hfirst
  obtain rfl := (bracket_of_lowerByte last).2.mp hlast
  have hvalid := other.valid
  rw [hother, ← List.cons_append] at hvalid
  have hinnerValid : Utf8.Valid inner :=
    Utf8.Valid.of_append_left (Utf8.Ascii.valid (by simp) : Utf8.Valid [91])
      (Utf8.Valid.cut hvalid (by decide)).1
  exact ⟨⟨inner, hinnerValid⟩, Str.ext hother, hinner⟩

/-- A host is read the same in every case. -/
theorem ReadsHost.respelled (hraw : ReadsHost raw host)
    (h : other.bytes.map lowerByte = raw.bytes.map lowerByte) : ReadsHost other host := by
  cases hraw with
  | plain hvalid => exact .plain (validateHost_respelled hvalid h)
  | ipv6 hvalid =>
    obtain ⟨inner, rfl, hinner⟩ := exists_bracketed h
    exact .ipv6 (validateIpv6_respelled hvalid hinner)

/-! ### Ports that need not be written -/

private theorem schemeStr_injective {scheme found : Scheme}
    (h : (schemeStr scheme).bytes = (schemeStr found).bytes) : scheme = found := by
  cases scheme <;> cases found
  · rfl
  · exact absurd h (by decide +kernel)
  · exact absurd h (by decide +kernel)
  · rfl

/-- The default port is no port, however many zeros precede it. -/
theorem parsePort_default {digits : Str} {scheme : Scheme} {zeros : ℕ}
    (h : digits.bytes = List.replicate zeros 48 ++ Decimal.decimal (defaultPort scheme)) :
    parsePort digits scheme = .ok none := by
  have hdigits : ∀ byte ∈ digits.bytes, isDigit byte = true := by
    intro byte hmem
    rw [h] at hmem
    rcases List.mem_append.mp hmem with hzero | hmem
    · rw [List.eq_of_mem_replicate hzero]
      decide
    · exact isDigit_iff.mpr (Decimal.isDigit_of_mem_decimal hmem)
  have hne : digits.bytes ≠ [] := by
    rw [h]
    exact List.append_ne_nil_of_right_ne_nil _ (Decimal.decimal_ne_nil _)
  have hvalue : Decimal.value digits.bytes = defaultPort scheme := by
    rw [h, Decimal.value_zeros, Decimal.value_decimal]
  have hle : defaultPort scheme ≤ decimalCap := by cases scheme <;> decide
  rw [parsePort, parseDecimal_of_le hne hdigits (by rwa [hvalue]), hvalue]
  cases scheme <;> rfl

private theorem readPort_default {name : List UInt8} {port : Option Str} {scheme : Scheme}
    (hname : name.map lowerByte = (schemeStr scheme).bytes)
    (h : IsDefaultPort name (port.map Str.bytes)) : readPort port scheme = .ok none := by
  cases port with
  | none => rfl
  | some digits =>
    obtain ⟨found, zeros, hfound, hdigits⟩ := h digits.bytes rfl
    obtain rfl := schemeStr_injective (hname.symm.trans hfound)
    exact parsePort_default hdigits

/-- The digits of a default port are text. -/
theorem exists_port {name : List UInt8} {port : Option (List UInt8)} (h : IsDefaultPort name port) :
    ∃ raw : Option Str, port = raw.map Str.bytes := by
  cases port with
  | none => exact ⟨none, rfl⟩
  | some digits =>
    obtain ⟨scheme, zeros, -, rfl⟩ := h digits rfl
    have hascii : Utf8.Ascii (List.replicate zeros 48 ++ Decimal.decimal (defaultPort scheme)) := by
      refine Utf8.ascii_append.mpr ⟨fun byte hmem => ?_, Decimal.ascii_decimal _⟩
      rw [List.eq_of_mem_replicate hmem]
      decide
    exact ⟨some ⟨_, hascii.valid⟩, rfl⟩

/-- A port is read the same whether it is written or not. -/
theorem readPort_respelled {name : List UInt8} {rawPort : Option Str} {scheme : Scheme}
    {port : Option UInt16} {other : Option (List UInt8)}
    (hname : name.map lowerByte = (schemeStr scheme).bytes)
    (hport : readPort rawPort scheme = .ok port)
    (h : other = rawPort.map Str.bytes ∨
      IsDefaultPort name (rawPort.map Str.bytes) ∧ IsDefaultPort name other) :
    ∃ raw : Option Str, other = raw.map Str.bytes ∧ readPort raw scheme = .ok port := by
  rcases h with rfl | ⟨hold, hnew⟩
  · exact ⟨rawPort, rfl, hport⟩
  · obtain ⟨raw, rfl⟩ := exists_port hnew
    rw [readPort_default hname hold] at hport
    exact ⟨raw, rfl, (readPort_default hname hnew).trans hport⟩

/-! ### Text in either case -/

/-- A change of case keeps text ASCII. -/
theorem ascii_of_map {bytes others : List UInt8} (hbytes : Utf8.Ascii bytes)
    (h : others.map lowerByte = bytes.map lowerByte) : Utf8.Ascii others := by
  have hlower : ∀ byte : UInt8, lowerByte byte < 128 ↔ byte < 128 := by
    intro byte
    grind
  intro byte hmem
  have hmap : lowerByte byte ∈ bytes.map lowerByte := by
    rw [← h]
    exact List.mem_map_of_mem hmem
  obtain ⟨old, hold, heq⟩ := List.mem_map.mp hmap
  rw [← hlower, ← heq, hlower]
  exact hbytes old hold

/-- A change of escapes replaces ASCII bytes one for one. -/
theorem SameEscapes.forall₂ {a b : List UInt8} (h : SameEscapes a b) :
    List.Forall₂ (fun x y => x = y ∨ x < 128 ∧ y < 128) a b := by
  have hdigit : ∀ {digit other : UInt8}, isHex digit = true →
      lowerByte other = lowerByte digit → digit < 128 ∧ other < 128 := by
    intro digit other hhex hlower
    have hascii : ∀ byte ∈ [digit, other], isHex byte = true := by
      simp [hhex, isHex_of_lower hlower]
    exact ⟨ascii_of_isHex hascii digit (by simp), ascii_of_isHex hascii other (by simp)⟩
  induction h with
  | nil => exact .nil
  | plain byte h ih => exact .cons (.inl rfl) ih
  | escape hdigits hhigh hlow h ih =>
    obtain ⟨hhex, hhex'⟩ := isHex_of_escaped hdigits
    exact .cons (.inl rfl) (.cons (.inr (hdigit hhex hhigh)) (.cons (.inr (hdigit hhex' hlow)) ih))

private theorem SameEscapes.valid {a b : List UInt8} (h : SameEscapes a b) (ha : Utf8.Valid a) :
    Utf8.Valid b := by
  have hfront : Utf8.Valid ([] ++ a) := ha
  exact Utf8.Valid.replace hfront h.forall₂

/-- What follows a delimiter in one spelling follows it in the other. -/
theorem SameEscapes.delimiter {a b : List UInt8} (h : SameEscapes a b)
    (ha : ∀ first ∈ a.head?, isDelimiter first = true) :
    ∀ first ∈ b.head?, isDelimiter first = true := by
  cases h with
  | nil => exact ha
  | plain byte h => exact ha
  | escape => exact ha

/-! ### Spellings -/

/-- Every spelling of an input that was read is read the same. -/
theorem Reading.respelled {input name rawHost suffix : Str} {url : Url} {rawPort : Option Str}
    (h : Reading input url name rawHost rawPort suffix) {y : Parts}
    (hy : Respelled ⟨name.bytes, rawHost.bytes, rawPort.map Str.bytes, suffix.bytes⟩ y) :
    ∃ t : Str, t.bytes = y.text ∧ parse t = .ok url := by
  obtain ⟨yname, yhost, yport, ysuffix⟩ := y
  obtain ⟨hname, hhost, hport, hsuffix⟩ := hy
  simp only at hname hhost hport hsuffix
  have hschemeAscii : Utf8.Ascii (schemeStr url.scheme).bytes := by
    cases url.scheme <;> decide +kernel
  have hnameAscii : Utf8.Ascii yname :=
    ascii_of_map hschemeAscii (by rw [hname, h.scheme, lower_schemeStr])
  have hhostAscii : Utf8.Ascii yhost :=
    ascii_of_map (fun byte hmem => ascii_of_isAuthorityByte (h.host.bytes byte hmem)) hhost
  obtain ⟨raw, rfl, hraw⟩ := readPort_respelled h.scheme h.port hport
  have hhost' : ReadsHost ⟨yhost, hhostAscii.valid⟩ url.host := h.host.respelled hhost
  have htext : Utf8.Valid (yname ++ 58 :: 47 :: 47 ::
      (yhost ++ portText (raw.map Str.bytes) ++ ysuffix)) := by
    have hport' : Utf8.Ascii (portText (raw.map Str.bytes)) := fun byte hmem =>
      ascii_of_isAuthorityByte (isAuthorityByte_of_readPort hraw byte hmem)
    refine Utf8.Valid.append hnameAscii.valid ?_
    rw [← List.cons_append, ← List.cons_append, ← List.cons_append]
    refine Utf8.Valid.append (Utf8.Ascii.valid ?_) (hsuffix.valid suffix.valid)
    simpa using ⟨hhostAscii, hport'⟩
  refine ⟨⟨_, htext⟩, rfl, parse_iff.mpr ⟨⟨yname, hnameAscii.valid⟩, ⟨yhost, hhostAscii.valid⟩, raw,
    ⟨ysuffix, hsuffix.valid suffix.valid⟩, rfl, ?_, hhost', hraw,
    hsuffix.delimiter h.delimiter, ?_⟩⟩
  · exact hname.trans h.scheme
  · have hcomponents := h.components
    cases hanswer : parseSuffix suffix with
    | error err =>
      rw [hanswer] at hcomponents
      cases hcomponents
    | ok components =>
      rw [hanswer] at hcomponents
      have hanswer' : parseSuffix ⟨ysuffix, hsuffix.valid suffix.valid⟩ = .ok components :=
        SameEscapes.parseSuffix hsuffix hanswer
      rw [hanswer']
      exact hcomponents

/-- An accepted text has its parts in one way, and every spelling of them parses to the same URL. -/
theorem parse_respelled {s : Str} {url : Url} (h : parse s = .ok url) :
    (∃! x : Parts, x.WellFormed ∧ x.text = s.bytes) ∧
      ∀ x y : Parts, x.WellFormed → x.text = s.bytes → Respelled x y →
        ∃ t : Str, t.bytes = y.text ∧ parse t = .ok url := by
  obtain ⟨name, rawHost, rawPort, suffix, hread⟩ := parse_iff.mp h
  have hform := hread.wellFormed
  constructor
  · refine ⟨_, ⟨hform, hread.text.symm⟩, fun x hx => ?_⟩
    exact parts_inj hx.1 hform (hx.2.trans hread.text)
  · intro x y hx htext hy
    obtain rfl := parts_inj hx hform (htext.trans hread.text)
    exact hread.respelled hy

/-- A port that need not be written, and other cases of scheme, host and escape. -/
theorem parse_respelled_example :
    ∃ t : Str, t.bytes = (Str.lit "HTTP://a.B/%3f").bytes ∧
      parse t = .ok ⟨.http, .lit "a.b", none, .lit "/%3F", none, none⟩ := by
  have hparse : parse (.lit "http://A.b:080/%3F") =
      .ok ⟨.http, .lit "a.b", none, .lit "/%3F", none, none⟩ := by decide +kernel
  let x : Parts := ⟨(Str.lit "http").bytes, (Str.lit "A.b").bytes, some (Str.lit "080").bytes,
    (Str.lit "/%3F").bytes⟩
  let y : Parts := ⟨(Str.lit "HTTP").bytes, (Str.lit "a.B").bytes, none, (Str.lit "/%3f").bytes⟩
  refine (parse_respelled hparse).2 x y ⟨?_, ?_, ?_, ?_⟩ ?_ ⟨?_, ?_, .inr ⟨?_, ?_⟩, ?_⟩
  · decide +kernel
  · decide +kernel
  · decide +kernel
  · exact .inl (by decide +kernel)
  · decide +kernel
  · decide +kernel
  · decide +kernel
  · rintro digits hdigits
    refine ⟨.http, 1, by decide +kernel, ?_⟩
    rw [← Option.some.inj hdigits]
    decide +kernel
  · rintro digits hdigits
    cases hdigits
  · exact .plain 47 (.escape (by decide) (by decide) (by decide) .nil)

end TrantorCli.Url
