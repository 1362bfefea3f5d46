import TrantorCli.Url.Arith.Host

/-!
# Ranges of decimal numbers

The saturating parser is asked whether a number is at most 65535 or at most 255.
Its answer is right for digit strings of every length: from the cap on the
accumulator never comes back below it, and below the cap it is the number. No step
leaves `U64`.
-/

open Roc Roc.Checked

namespace TrantorCli.Url.Arith

/-- One or more decimal digits. -/
def IsDecimal (digits : List UInt8) : Prop :=
  digits ≠ [] ∧ ∀ byte ∈ digits, Decimal.IsDigit byte

/-- A zero that more digits follow. -/
def LeadingZero (digits : List UInt8) : Prop := 1 < digits.length ∧ digits.head? = some 48

/-- The port that a scheme stands for. -/
def schemePort : Scheme → ℕ
  | .http => 80
  | .https => 443

/-- What the parsers make of digits that denote `n`. -/
structure Reads (raw : Str) (scheme : Scheme) (n : ℕ) : Prop where
  /-- The number, exact up to the cap and at least the cap above it. -/
  decimal : ∃ v, parseDecimal raw = .ok (some v) ∧
    (n ≤ 4294967295 → v = n) ∧ (4294967295 < n → 4294967295 ≤ v)
  /-- A port out of range is reported as one. -/
  outOfRange : (∃ v, Yields (parsePort raw scheme) (.error (.portOutOfRange v))) ↔ 65535 < n
  /-- A port in range is the number, or nothing where it goes without saying. -/
  port : n ≤ 65535 → ∃ port : Option UInt16, Yields (parsePort raw scheme) (.ok port) ∧
    port.map UInt16.toNat = if n = schemePort scheme then none else some n
  /-- An octet is taken up to 255. -/
  octet : ¬LeadingZero raw.bytes → ∀ rest out, parseIpv4Parts (raw :: rest) out =
    if n ≤ 255 then parseIpv4Parts rest (out ++ [n]) else .ok none

/-- What they make of any other string. -/
structure Refuses (raw : Str) (scheme : Scheme) : Prop where
  decimal : parseDecimal raw = .ok none
  port : Yields (parsePort raw scheme) (.error (.invalidPort raw))

/-! ### Decimal numbers -/

/-- Digits parse, to their number or to something that is too large as well. -/
theorem parseDecimal_of_isDecimal {raw : Str} (h : IsDecimal raw.bytes) :
    ∃ v, Url.parseDecimal raw = some v ∧ (v = Decimal.value raw.bytes ∨
      decimalCap ≤ v ∧ decimalCap < Decimal.value raw.bytes) := by
  have hdigits : ∀ byte ∈ raw.bytes, isDigit byte = true := fun byte hmem =>
    isDigit_iff.mpr (h.2 byte hmem)
  exact ⟨_, parseDecimal_of_digits h.1 hdigits, foldl_decimalStep hdigits⟩

private theorem parseDecimal_eq_none {raw : Str} (h : ¬IsDecimal raw.bytes) :
    Url.parseDecimal raw = none := by
  cases hvalue : Url.parseDecimal raw with
  | none => rfl
  | some value =>
    obtain ⟨hne, hdigits, -⟩ := parseDecimal_eq_some hvalue
    exact absurd ⟨hne, fun byte hmem => isDigit_iff.mp (hdigits byte hmem)⟩ h

/-- Below the cap the parsed number and the true one compare alike. -/
theorem compare_parsed {v n : ℕ} (limit : ℕ) (hlimit : limit < decimalCap)
    (h : v = n ∨ decimalCap ≤ v ∧ decimalCap < n) :
    (limit < v ↔ limit < n) ∧ (v ≤ limit → v = n) := by
  omega

/-! ### Ports -/

/-- The test for the default port, as numbers. -/
theorem isDefaultPort_ofNat {scheme : Scheme} {n : ℕ} (h : n ≤ 65535) :
    isDefaultPort scheme (UInt16.ofNat n) = true ↔ n = schemePort scheme := by
  have hvalue : (UInt16.ofNat n).toNat = n :=
    UInt16.toNat_ofNat_of_lt' (Nat.lt_of_le_of_lt h (by decide))
  cases scheme with
  | http =>
    rw [isDefaultPort, beq_iff_eq, ← UInt16.toNat_inj, hvalue]
    rfl
  | https =>
    rw [isDefaultPort, beq_iff_eq, ← UInt16.toNat_inj, hvalue]
    rfl

/-- The port that parsed digits stand for. -/
theorem parsePort_of_parseDecimal {raw : Str} (scheme : Scheme) {v : ℕ}
    (h : Url.parseDecimal raw = some v) :
    (65535 < v → Url.parsePort raw scheme = .error (.portOutOfRange v)) ∧
      (v ≤ 65535 → ∃ port : Option UInt16, Url.parsePort raw scheme = .ok port ∧
        port.map UInt16.toNat = if v = schemePort scheme then none else some v) := by
  simp only [Url.parsePort, h]
  constructor
  · intro hgt
    rw [if_pos hgt]
  · intro hle
    rw [if_neg (by omega)]
    refine ⟨_, rfl, ?_⟩
    by_cases hdefault : v = schemePort scheme
    · rw [if_pos hdefault, if_pos ((isDefaultPort_ofNat hle).mpr hdefault)]
      rfl
    · rw [if_neg hdefault, if_neg (mt (isDefaultPort_ofNat hle).mp hdefault), Option.map_some,
        UInt16.toNat_ofNat_of_lt' (Nat.lt_of_le_of_lt hle (by decide))]

/-- A checked computation has one answer. -/
theorem yields_parsePort_iff {raw : Str} {scheme : Scheme}
    {answer : Except ParseErr (Option UInt16)} :
    Yields (parsePort raw scheme) answer ↔ Url.parsePort raw scheme = answer := by
  have hyields : (parsePort raw scheme).run = .ok (Url.parsePort raw scheme) :=
    parsePort_yields raw scheme
  rw [Yields, hyields, Except.ok.injEq]

/-! ### Octets -/

private theorem leadingZero_iff {raw : Str} :
    (decide (raw.toUtf8.length > 1) && startsWith raw (.lit "0")) = true ↔
      LeadingZero raw.bytes := by
  have hhead : startsWith raw (.lit "0") = true ↔ raw.bytes.head? = some 48 := by
    rw [startsWith_iff]
    constructor
    · rintro ⟨rest, hrest⟩
      rw [← hrest]
      rfl
    · intro h
      obtain ⟨rest, hrest⟩ := List.head?_eq_some_iff.mp h
      exact ⟨rest, hrest.symm⟩
  rw [Bool.and_eq_true, hhead, decide_eq_true_eq, LeadingZero]

private theorem parseIpv4Parts_of_leadingZero {raw : Str} (h : LeadingZero raw.bytes)
    (rest : List Str)
    (out : List ℕ) : parseIpv4Parts (raw :: rest) out = .ok none := by
  rw [parseIpv4Parts, if_pos (leadingZero_iff.mpr h)]
  rfl

/-- Without a leading zero an octet is what parsing its digits gives. -/
theorem parseIpv4Parts_cons {raw : Str} (h : ¬LeadingZero raw.bytes) (rest : List Str)
    (out : List ℕ) : parseIpv4Parts (raw :: rest) out =
      match Url.parseDecimal raw with
      | some value => if value ≤ 255 then parseIpv4Parts rest (out ++ [value]) else .ok none
      | none => .ok none := by
  rw [parseIpv4Parts, if_neg (mt leadingZero_iff.mp h), parseDecimal_ok, Try.ok_bind]
  rfl

/-! ### Every string -/

private theorem reads_value {raw : Str} (scheme : Scheme) (h : IsDecimal raw.bytes) :
    Reads raw scheme (Decimal.value raw.bytes) := by
  obtain ⟨v, hv, hvalue⟩ := parseDecimal_of_isDecimal h
  obtain ⟨hport, hportEq⟩ := compare_parsed 65535 (by decide) hvalue
  obtain ⟨hoctet, hoctetEq⟩ := compare_parsed 255 (by decide) hvalue
  obtain ⟨hout, hin⟩ := parsePort_of_parseDecimal scheme hv
  refine ⟨⟨v, by rw [parseDecimal_ok, hv], ?_, ?_⟩, ?_, fun hle => ?_, fun hzero rest out => ?_⟩
  · simp only [decimalCap] at hvalue
    omega
  · simp only [decimalCap] at hvalue
    omega
  · simp only [yields_parsePort_iff]
    constructor
    · rintro ⟨other, hother⟩
      by_contra hnot
      obtain ⟨port, hok, -⟩ := hin (by omega)
      rw [hok] at hother
      cases hother
    · intro hgt
      exact ⟨v, hout (hport.mpr hgt)⟩
  · obtain ⟨port, hok, hmap⟩ := hin (by omega)
    rw [hportEq (by omega)] at hmap
    exact ⟨port, yields_parsePort_iff.mpr hok, hmap⟩
  · rw [parseIpv4Parts_cons hzero, hv]
    by_cases hle : v ≤ 255
    · simp only [hoctetEq hle, if_pos (hoctetEq hle ▸ hle)]
    · simp only [if_neg hle]
      rw [if_neg (by omega)]

private theorem refuses {raw : Str} (scheme : Scheme) (h : ¬IsDecimal raw.bytes) :
    Refuses raw scheme := by
  have hnone := parseDecimal_eq_none h
  refine ⟨by rw [parseDecimal_ok, hnone], yields_parsePort_iff.mpr ?_⟩
  simp only [Url.parsePort, hnone]

/-- Digits of every length are decided by the number they denote, without overflow; any other
string is refused, and as an octet so is one with a leading zero. -/
theorem decimal_ranges (raw : Str) (scheme : Scheme) :
    (IsDecimal raw.bytes → Reads raw scheme (Decimal.value raw.bytes)) ∧
      (¬IsDecimal raw.bytes → Refuses raw scheme) ∧
      (¬IsDecimal raw.bytes ∨ LeadingZero raw.bytes →
        ∀ rest out, parseIpv4Parts (raw :: rest) out = .ok none) := by
  refine ⟨reads_value scheme, refuses scheme, fun h rest out => ?_⟩
  by_cases hzero : LeadingZero raw.bytes
  · exact parseIpv4Parts_of_leadingZero hzero rest out
  · rw [parseIpv4Parts_cons hzero, parseDecimal_eq_none (h.resolve_right hzero)]

end TrantorCli.Url.Arith
