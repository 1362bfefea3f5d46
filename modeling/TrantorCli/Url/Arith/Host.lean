import TrantorCli.Url.Arith.Bytes
import TrantorCli.Url.Host

/-!
# Arithmetic of hosts and ports

`parse_decimal` subtracts from bytes that were tested to be digits, and saturates
before its accumulator could leave `U64`. The validators of names and IPv4
addresses do no other arithmetic.
-/

open Roc Roc.Checked

namespace TrantorCli.Url.Arith

/-! ### Decimal numbers -/

/-- One digit of `parse_decimal`. -/
def decimalStep (acc : Nat) (byte : UInt8) : Checked Nat :=
  if acc ≥ decimalCap then return decimalCap
  else do
    let product ← mulU64 acc 10
    let digit ← subU8 byte 48
    return ← addU64 product digit.toNat

/-- `parse_decimal`; `none` is `Err(NotDecimal)`. -/
def parseDecimal (raw : Str) : Checked (Option Nat) :=
  let bytes := raw.toUtf8
  if bytes.isEmpty || !bytes.all isDigit then return none
  else do return some (← bytes.foldlM decimalStep 0)

/-- `parse_port` -/
def parsePort (raw : Str) (scheme : Scheme) : ExceptT ParseErr Checked (Option UInt16) := do
  match ← parseDecimal raw with
  | none => throw (.invalidPort raw)
  | some value =>
    if value > 65535 then throw (.portOutOfRange value)
    else
      let port := UInt16.ofNat value
      return if isDefaultPort scheme port then none else some port

/-- `parse_ipv4_parts`; `none` is `Err(BadIpv4Part)`. -/
def parseIpv4Parts (parts : List Str) (out : List Nat) : Checked (Option (List Nat)) :=
  match parts with
  | [] => return some out
  | first :: rest =>
    if decide (first.toUtf8.length > 1) && startsWith first (.lit "0") then return none
    else do
      match ← parseDecimal first with
      | some value => if value ≤ 255 then parseIpv4Parts rest (out ++ [value]) else return none
      | none => return none

/-- `validate_ipv4` -/
def validateIpv4 (rawHost : Str) : ExceptT ParseErr Checked Str :=
  let parts := rawHost.splitOn (.lit ".")
  if parts.length ≠ 4 then throw (.invalidIpv4 rawHost)
  else do
    match ← parseIpv4Parts parts [] with
    | none => throw (.invalidIpv4 rawHost)
    | some values => return Str.joinWith (values.map decimalStr) (.lit ".")

private theorem decimalStep_ok {acc : Nat} {byte : UInt8} (h : isDigit byte = true) :
    decimalStep acc byte = .ok (Url.decimalStep acc byte) := by
  obtain ⟨hlow, hhigh⟩ := isDigit_iff.mp h
  rw [decimalStep, Url.decimalStep]
  by_cases hcap : acc ≥ decimalCap
  · rw [if_pos hcap, if_pos hcap]
    rfl
  · rw [if_neg hcap, if_neg hcap]
    simp only [decimalCap] at hcap
    have hdigit : (byte - 48).toNat = byte.toNat - 48 :=
      UInt8.toNat_sub_of_le _ _ (UInt8.le_iff_toNat_le.mpr hlow)
    rw [mulU64, guarded_of (by rw [limitU64]; omega), Try.ok_bind, subU8,
      guarded_of (show UInt8.toNat 48 ≤ byte.toNat from hlow), Try.ok_bind, addU64,
      guarded_of (by rw [limitU64, hdigit]; omega)]
    rfl

/-- A decimal is read without an overflow. -/
theorem parseDecimal_ok (raw : Str) : parseDecimal raw = .ok (Url.parseDecimal raw) := by
  simp only [parseDecimal, Url.parseDecimal, Str.toUtf8_eq]
  by_cases hbad : (raw.bytes.isEmpty || !raw.bytes.all isDigit) = true
  · rw [if_pos hbad, if_pos hbad]
    rfl
  · have hdigits : ∀ byte ∈ raw.bytes, isDigit byte = true := by
      simp only [Bool.or_eq_true, not_or, Bool.not_eq_true', Bool.not_eq_false,
        List.all_eq_true] at hbad
      exact hbad.2
    rw [if_neg hbad, if_neg hbad, foldlM_ok]
    · rfl
    · rintro front byte back hl
      exact decimalStep_ok (hdigits byte (by rw [hl]; simp))

/-- A port is read without an overflow. -/
theorem parsePort_yields (raw : Str) (scheme : Scheme) :
    Yields (parsePort raw scheme) (Url.parsePort raw scheme) := by
  rw [parsePort, Url.parsePort]
  refine .lift (parseDecimal_ok raw) ?_
  cases Url.parseDecimal raw with
  | none => exact .throw _
  | some value => exact .ite (fun _ => .throw _) fun _ => .pure _

private theorem parseIpv4Parts_ok (parts : List Str) (out : List Nat) :
    parseIpv4Parts parts out = .ok (Url.parseIpv4Parts parts out) := by
  induction parts generalizing out with
  | nil => rfl
  | cons first rest ih =>
    rw [parseIpv4Parts, Url.parseIpv4Parts]
    by_cases hzero : (decide (first.toUtf8.length > 1) && startsWith first (.lit "0")) = true
    · rw [if_pos hzero, if_pos hzero]
      rfl
    · rw [if_neg hzero, if_neg hzero, parseDecimal_ok, Try.ok_bind]
      cases Url.parseDecimal first with
      | none => rfl
      | some value =>
        by_cases hle : value ≤ 255
        · simp only [if_pos hle]
          exact ih _
        · simp only [if_neg hle]
          rfl

private theorem validateIpv4_yields (rawHost : Str) :
    Yields (validateIpv4 rawHost) (Url.validateIpv4 rawHost) := by
  rw [validateIpv4, Url.validateIpv4]
  refine .ite (fun _ => .throw _) fun _ => ?_
  refine .lift (parseIpv4Parts_ok _ _) ?_
  cases Url.parseIpv4Parts (rawHost.splitOn (.lit ".")) [] with
  | none => exact .throw _
  | some values => exact .pure _

/-! ### DNS names -/

/-- What `validate_dns_name` asks of each label. -/
def isDnsLabel (label : Str) : Checked Bool :=
  let bytes := label.toUtf8
  let len := bytes.length
  if decide (len > 0) && decide (len ≤ 63) && isAlphanumeric (firstOrZero bytes) then do
    let last ← lastOrZero bytes
    return isAlphanumeric last && bytes.all fun byte => isAlphanumeric byte || byte == 45
  else return false

/-- `validate_dns_name` -/
def validateDnsName (rawHost : Str) : ExceptT ParseErr Checked Str := do
  let host ← asciiLower rawHost
  let labels := host.splitOn (.lit ".")
  let valid ←
    (if host.toUtf8.length ≤ 253 then labels.allM isDnsLabel else return false : Checked Bool)
  if valid then return host else throw (.invalidHost rawHost)

/-- `validate_host` -/
def validateHost (rawHost : Str) : ExceptT ParseErr Checked Str :=
  if rawHost.isEmpty then throw .emptyHost
  else if rawHost.toUtf8.any (· > 127) then throw .internationalHostUnsupported
  else if rawHost.toUtf8.all fun byte => isDigit byte || byte == 46 then validateIpv4 rawHost
  else if endsInNumber rawHost then throw (.invalidIpv4 rawHost)
  else validateDnsName rawHost

private theorem isDnsLabel_ok (label : Str) : isDnsLabel label = .ok (Url.isDnsLabel label) := by
  simp only [isDnsLabel, Url.isDnsLabel]
  generalize hguard : (decide (label.toUtf8.length > 0) && decide (label.toUtf8.length ≤ 63) &&
    isAlphanumeric (firstOrZero label.toUtf8)) = guard
  cases guard with
  | false => rfl
  | true =>
    rw [if_pos rfl, lastOrZero_ok]
    rfl

private theorem validateDnsName_yields (rawHost : Str) :
    Yields (validateDnsName rawHost) (Url.validateDnsName rawHost) := by
  have hvalid : (if (Url.asciiLower rawHost).toUtf8.length ≤ 253 then
      ((Url.asciiLower rawHost).splitOn (.lit ".")).allM isDnsLabel
      else return false : Checked Bool) =
        .ok (decide ((Url.asciiLower rawHost).toUtf8.length ≤ 253) &&
          ((Url.asciiLower rawHost).splitOn (.lit ".")).all Url.isDnsLabel) := by
    by_cases hlen : (Url.asciiLower rawHost).toUtf8.length ≤ 253
    · rw [if_pos hlen, allM_ok fun label _ => isDnsLabel_ok label, decide_eq_true hlen,
        Bool.true_and]
    · rw [if_neg hlen, decide_eq_false hlen, Bool.false_and]
      rfl
  rw [validateDnsName, Url.validateDnsName]
  refine .lift (asciiLower_ok rawHost) ?_
  exact .lift hvalid (.ite (fun _ => .pure _) fun _ => .throw _)

/-- A host is validated without an overflow. -/
theorem validateHost_yields (rawHost : Str) :
    Yields (validateHost rawHost) (Url.validateHost rawHost) := by
  rw [validateHost, Url.validateHost]
  refine .ite (fun _ => .throw _) fun _ => ?_
  refine .ite (fun _ => .throw _) fun _ => ?_
  refine .ite (fun _ => validateIpv4_yields rawHost) fun _ => ?_
  exact .ite (fun _ => .throw _) fun _ => validateDnsName_yields rawHost

end TrantorCli.Url.Arith
