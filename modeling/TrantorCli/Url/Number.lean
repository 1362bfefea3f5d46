import TrantorCli.Lib.Decimal
import TrantorCli.Url.Basic
import TrantorCli.Url.Bytes

/-!
# Decimal numbers and ports

`parse_decimal` saturates instead of overflowing. Below its cap it returns the
number the digits denote, and above it stays above, so the range tests of its
callers see the true answer. A port other than the default one is what parsing
its own digits gives.
-/

open Roc

namespace TrantorCli.Url

/-- `decimal_cap` -/
def decimalCap : Nat := 4294967295

/-- One digit of `parse_decimal`. -/
def decimalStep (acc : Nat) (byte : UInt8) : Nat :=
  if acc ≥ decimalCap then decimalCap else acc * 10 + (byte - 48).toNat

/-- `parse_decimal`; `none` is `Err(NotDecimal)`. -/
def parseDecimal (raw : Str) : Option Nat :=
  let bytes := raw.toUtf8
  if bytes.isEmpty || !bytes.all isDigit then none else some (bytes.foldl decimalStep 0)

/-- `U64.to_str` and `U16.to_str` -/
def decimalStr (n : Nat) : Str := ⟨Decimal.decimal n, (Decimal.ascii_decimal n).valid⟩

/-- The port that goes without saying. -/
def isDefaultPort (scheme : Scheme) (port : UInt16) : Bool :=
  match scheme with
  | .http => port == 80
  | .https => port == 443

/-- `parse_port` -/
def parsePort (raw : Str) (scheme : Scheme) : Except ParseErr (Option UInt16) :=
  match parseDecimal raw with
  | none => .error (.invalidPort raw)
  | some value =>
    if value > 65535 then .error (.portOutOfRange value)
    else
      let port := UInt16.ofNat value
      .ok (if isDefaultPort scheme port then none else some port)

/-! ### What the parsers return -/

/-- What the code takes for a digit is one. -/
theorem isDigit_iff {byte : UInt8} : isDigit byte = true ↔ Decimal.IsDigit byte := by
  simp [isDigit, Decimal.IsDigit, UInt8.le_iff_toNat_le]

/-- The saturating fold is exact up to the cap and stays above it from there on. -/
theorem foldl_decimalStep {bytes : List UInt8} (h : ∀ byte ∈ bytes, isDigit byte = true) :
    bytes.foldl decimalStep 0 = Decimal.value bytes ∨
      decimalCap ≤ bytes.foldl decimalStep 0 ∧ decimalCap < Decimal.value bytes := by
  induction bytes using List.reverseRecOn with
  | nil => exact .inl rfl
  | append_singleton init last ih =>
    have hlast := isDigit_iff.mp (h last (by simp))
    have hsub : (last - 48).toNat = last.toNat - 48 :=
      UInt8.toNat_sub_of_le _ _ (UInt8.le_iff_toNat_le.mpr hlast.1)
    have ih' := ih fun byte hmem => h byte (by simp [hmem])
    rw [List.foldl_append, List.foldl_cons, List.foldl_nil, Decimal.value_concat, decimalStep]
    by_cases hcap : init.foldl decimalStep 0 ≥ decimalCap
    · rw [if_pos hcap]
      simp only [decimalCap] at ih' hcap ⊢
      omega
    · rw [if_neg hcap]
      simp only [decimalCap] at ih' hcap ⊢
      omega

/-- What is parsed as a decimal has digits only, whose value it is up to the cap. -/
theorem parseDecimal_eq_some {raw : Str} {value : Nat} (h : parseDecimal raw = some value) :
    raw.bytes ≠ [] ∧ (∀ byte ∈ raw.bytes, isDigit byte = true) ∧
      (value = Decimal.value raw.bytes ∨
        decimalCap ≤ value ∧ decimalCap < Decimal.value raw.bytes) := by
  simp only [parseDecimal, Str.toUtf8_eq] at h
  by_cases hbad : (raw.bytes.isEmpty || !raw.bytes.all isDigit) = true
  · rw [if_pos hbad] at h
    cases h
  · rw [if_neg hbad] at h
    simp only [Bool.or_eq_true, not_or, List.isEmpty_iff, Bool.not_eq_true', Bool.not_eq_false,
      List.all_eq_true] at hbad
    obtain ⟨hne, hdigits⟩ := hbad
    rw [← Option.some.inj h]
    exact ⟨hne, hdigits, foldl_decimalStep hdigits⟩

/-- Digits parse to what the fold makes of them. -/
theorem parseDecimal_of_digits {raw : Str} (hne : raw.bytes ≠ [])
    (hdigits : ∀ byte ∈ raw.bytes, isDigit byte = true) :
    parseDecimal raw = some (raw.bytes.foldl decimalStep 0) := by
  have hgood : ¬(raw.bytes.isEmpty || !raw.bytes.all isDigit) = true := by
    simpa [hne] using hdigits
  simp only [parseDecimal, Str.toUtf8_eq]
  rw [if_neg hgood]

/-- Digits of a number below the cap parse to it. -/
theorem parseDecimal_of_le {raw : Str} (hne : raw.bytes ≠ [])
    (hdigits : ∀ byte ∈ raw.bytes, isDigit byte = true)
    (hle : Decimal.value raw.bytes ≤ decimalCap) :
    parseDecimal raw = some (Decimal.value raw.bytes) := by
  rw [parseDecimal_of_digits hne hdigits]
  rcases foldl_decimalStep hdigits with heq | ⟨-, hgt⟩
  · rw [heq]
  · omega

/-- A written number parses to itself. -/
theorem parseDecimal_decimalStr {n : Nat} (h : n ≤ decimalCap) :
    parseDecimal (decimalStr n) = some n := by
  have hdigits : ∀ byte ∈ (decimalStr n).bytes, isDigit byte = true := fun byte hmem =>
    isDigit_iff.mpr (Decimal.isDigit_of_mem_decimal hmem)
  have hvalue : Decimal.value (decimalStr n).bytes = n := Decimal.value_decimal n
  rw [parseDecimal_of_le (Decimal.decimal_ne_nil n) hdigits (by rwa [hvalue]), hvalue]

/-- A stored port is not the default one. -/
def CanonicalPort (scheme : Scheme) (port : Option UInt16) : Prop :=
  ∀ value ∈ port, isDefaultPort scheme value = false

/-- A port is never the default of its scheme. -/
theorem canonicalPort_of_parsePort {raw : Str} {scheme : Scheme} {port : Option UInt16}
    (h : parsePort raw scheme = .ok port) : CanonicalPort scheme port := by
  unfold parsePort at h
  split at h
  · cases h
  · next value hvalue =>
    split at h
    · cases h
    · cases h
      intro value hmem
      split at hmem
      · cases hmem
      · next hnot =>
        obtain rfl := Option.some.inj hmem
        simpa using hnot

/-- A stored port is what its digits parse to. -/
theorem parsePort_decimalStr {scheme : Scheme} {port : UInt16}
    (h : isDefaultPort scheme port = false) :
    parsePort (decimalStr port.toNat) scheme = .ok (some port) := by
  have hlt := port.toNat_lt
  have hle : port.toNat ≤ decimalCap := by
    simp only [decimalCap]
    omega
  rw [parsePort, parseDecimal_decimalStr hle]
  simp only []
  rw [if_neg (by omega), UInt16.ofNat_toNat, if_neg (by simp [h])]

end TrantorCli.Url
