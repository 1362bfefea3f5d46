import TrantorCli.Url.Arith.Host
import TrantorCli.Url.Authority
import TrantorCli.Url.Ipv6Grammar

/-!
# Arithmetic of IPv6 addresses and authorities

A group is folded into 16 bits from at most four bytes, all tested to be
hexadecimal, and the elided groups are counted after the others were found to be
fewer than eight.
-/

open Roc Roc.Checked

namespace TrantorCli.Url.Arith

/-- One digit of a group. -/
def hexStep (acc : UInt16) (byte : UInt8) : Checked UInt16 := do
  let product ← mulU16 acc 16
  let digit ← hexValue byte
  addU16 product digit.toUInt16

/-- `parse_hex_groups` -/
def parseHexGroups (parts : List Str) (out : List UInt16) :
    ExceptT ParseErr Checked (List UInt16) :=
  match parts with
  | [] => return out
  | first :: rest =>
    let bytes := first.toUtf8
    if bytes.isEmpty || decide (bytes.length > 4) || !bytes.all isHex then
      throw (.invalidIpv6 first)
    else do
      let value ← (bytes.foldlM hexStep 0 : Checked UInt16)
      parseHexGroups rest (out ++ [value])

/-- `parse_ipv6_side` -/
def parseIpv6Side (raw : Str) : ExceptT ParseErr Checked (List UInt16) :=
  if raw.isEmpty then return [] else parseHexGroups (raw.splitOn (.lit ":")) []

/-- `u16_to_hex_help` -/
def u16ToHexHelp (value : UInt16) (digits : List UInt8) : Checked Str := do
  let low ← remU16 value 16
  let digit ← lowerHexDigitByte low.toUInt8
  let nextDigits := [digit] ++ digits
  let ⟨next, _hnext⟩ ← divU16 value 16
  if _hzero : next == 0 then return Str.fromUtf8Lossy nextDigits
  else u16ToHexHelp next nextDigits
termination_by value.toNat
decreasing_by
  have hne : ¬next = 0 := by simpa using _hzero
  have hdiv : next.toNat = value.toNat / 16 := by simp [_hnext]
  have hpos : next.toNat ≠ 0 := fun h => hne (UInt16.toNat_inj.mp h)
  omega

/-- `u16_to_hex` -/
def u16ToHex (value : UInt16) : Checked Str :=
  if value == 0 then return .lit "0" else u16ToHexHelp value []

/-- `serialize_ipv6` -/
def serializeIpv6 (groups : List UInt16) : Checked Str := do
  return Str.joinWith (← groups.mapM u16ToHex) (.lit ":")

/-- `validate_ipv6` -/
def validateIpv6 (raw : Str) : ExceptT ParseErr Checked Str :=
  let pieces := raw.splitOn (.lit "::")
  if pieces.length > 2 then throw (.invalidIpv6 raw)
  else if pieces.length == 1 then do
    let groups ← parseIpv6Side raw
    if groups.length == 8 then return ← serializeIpv6 groups else throw (.invalidIpv6 raw)
  else do
    let left ← parseIpv6Side (getOrEmpty pieces 0)
    let right ← parseIpv6Side (getOrEmpty pieces 1)
    let ⟨count, _⟩ ← addU64 left.length right.length
    if count ≥ 8 then throw (.invalidIpv6 raw)
    else do
      let elided ← subU64 8 count
      return ← serializeIpv6 (left ++ List.replicate elided 0 ++ right)

/-- `parse_authority` -/
def parseAuthority (authority : Str) (scheme : Scheme) :
    ExceptT ParseErr Checked (Str × Option UInt16) :=
  if startsWith authority (.lit "[") then
    match splitFirst authority (.lit "]") with
    | none => throw (.invalidIpv6 authority)
    | some (before, after) => do
      let rawIpv6 := dropPrefix before (.lit "[")
      let host ← validateIpv6 rawIpv6
      let port ←
        (if after.isEmpty then return none
        else if startsWith after (.lit ":") then parsePort (dropPrefix after (.lit ":")) scheme
        else throw (.invalidIpv6 authority))
      return (Str.concat (Str.concat (.lit "[") host) (.lit "]"), port)
  else do
    let (rawHost, rawPort) ←
      (do match ← splitLast authority (.lit ":") with
          | some (before, after) => return (before, some after)
          | none => return (authority, none) : Checked (Str × Option Str))
    let host ← validateHost rawHost
    let port ←
      (match rawPort with
      | none => return none
      | some raw => parsePort raw scheme)
    return (host, port)

/-! ### Groups -/

/-- A digit of a group of at most four is in range. -/
theorem hexStep_ok {front : List UInt8} {byte : UInt8} (hlen : front.length < 4)
    (hfront : ∀ digit ∈ front, isHex digit = true) (hbyte : isHex byte = true) :
    hexStep (groupOf front) byte = .ok (Url.hexStep (groupOf front) byte) := by
  have hdigit := hexValue_lt hbyte
  have hlt : (groupOf front).toNat < 4096 := by
    rw [toNat_groupOf (Nat.le_of_lt hlen) hfront]
    calc Ipv6.value front < 16 ^ front.length := Ipv6.value_lt_pow front
      _ ≤ 16 ^ 3 := Nat.pow_le_pow_right (by omega) (by omega)
  have hproduct : (groupOf front * 16).toNat = (groupOf front).toNat * 16 := by
    simp only [UInt16.toNat_mul, UInt16.reduceToNat]
    omega
  have hmul : (groupOf front).toNat * UInt16.toNat 16 < 65536 := by
    simp only [UInt16.reduceToNat]
    omega
  have hadd : (groupOf front * 16).toNat + (Url.hexValue byte).toUInt16.toNat < 65536 := by
    rw [UInt8.toNat_toUInt16, hproduct]
    omega
  rw [hexStep, mulU16, guarded_of hmul, Try.ok_bind, hexValue_ok hbyte, Try.ok_bind, addU16,
    guarded_of hadd]
  rfl

private theorem parseHexGroups_yields (parts : List Str) (out : List UInt16) :
    Yields (parseHexGroups parts out) (Url.parseHexGroups parts out) := by
  induction parts generalizing out with
  | nil => exact .pure _
  | cons first rest ih =>
    rw [parseHexGroups, Url.parseHexGroups]
    refine .ite (fun _ => .throw _) fun hgood => ?_
    have hgroup := isGroup_iff.mpr hgood
    have hhex : ∀ byte ∈ first.bytes, isHex byte = true := fun byte hmem =>
      isHex_iff_digitValue.mpr (hgroup.digits byte hmem)
    refine .lift (foldlM_ok (g := Url.hexStep) fun front byte back hl => ?_) (ih _)
    have hlen : first.bytes.length ≤ 4 := hgroup.length_le
    rw [Str.toUtf8_eq] at hl
    rw [hl] at hhex hlen
    simp only [List.length_append, List.length_cons] at hlen
    exact hexStep_ok (by omega) (fun digit hmem => hhex digit (by simp [hmem]))
      (hhex byte (by simp))

private theorem parseIpv6Side_yields (raw : Str) :
    Yields (parseIpv6Side raw) (Url.parseIpv6Side raw) :=
  .ite (fun _ => .pure _) fun _ => parseHexGroups_yields _ _

private theorem length_of_parseHexGroups {parts : List Str} {out groups : List UInt16}
    (h : Url.parseHexGroups parts out = .ok groups) :
    groups.length = out.length + parts.length := by
  obtain ⟨-, hgroups⟩ := parseHexGroups_iff.mp h
  rw [hgroups, List.length_append, List.length_map]

/-- A side has at most one group more than it has bytes. -/
theorem length_of_parseIpv6Side {raw : Str} {groups : List UInt16}
    (h : Url.parseIpv6Side raw = .ok groups) : groups.length ≤ raw.bytes.length + 1 := by
  unfold Url.parseIpv6Side at h
  split at h
  · cases h
    exact Nat.zero_le _
  · rw [length_of_parseHexGroups h, List.length_nil, Nat.zero_add]
    exact Str.length_splitOn_le (by decide)

private theorem u16ToHexHelp_ok (value : UInt16) (digits : List UInt8) :
    u16ToHexHelp value digits = .ok (Url.u16ToHexHelp value digits) := by
  have hsixteen : (16 : UInt16) ≠ 0 := by decide
  induction value, digits using Url.u16ToHexHelp.induct with
  | case1 value digits next hnext =>
    have hzero : value / 16 = 0 := eq_of_beq hnext
    rw [u16ToHexHelp, Url.u16ToHexHelp, remU16_of hsixteen, Try.ok_bind,
      lowerHexDigitByte_ok (lowDigit_lt value), Try.ok_bind, divU16_of hsixteen]
    simp only [Try.ok_bind, hzero]
    rfl
  | case2 value digits nextDigits next hnext ih =>
    have hne : (value / 16 == 0) = false := by simpa using hnext
    rw [u16ToHexHelp, Url.u16ToHexHelp, remU16_of hsixteen, Try.ok_bind,
      lowerHexDigitByte_ok (lowDigit_lt value), Try.ok_bind, divU16_of hsixteen]
    simp only [Try.ok_bind, hne]
    exact ih

private theorem u16ToHex_ok (value : UInt16) : u16ToHex value = .ok (Url.u16ToHex value) := by
  rw [u16ToHex, Url.u16ToHex]
  by_cases hzero : (value == 0) = true
  · rw [if_pos hzero, if_pos hzero]
    rfl
  · rw [if_neg hzero, if_neg hzero, u16ToHexHelp_ok]

private theorem serializeIpv6_ok (groups : List UInt16) :
    serializeIpv6 groups = .ok (Url.serializeIpv6 groups) := by
  rw [serializeIpv6, mapM_ok fun value _ => u16ToHex_ok value]
  rfl

/-! ### Addresses and authorities -/

/-- The two sides of an elision and the `::` make up the address. -/
theorem length_sides (raw : Str) (htwo : (raw.splitOn (.lit "::")).length = 2) :
    (getOrEmpty (raw.splitOn (.lit "::")) 0).bytes.length +
      (getOrEmpty (raw.splitOn (.lit "::")) 1).bytes.length + 2 = raw.bytes.length := by
  have hlen := Str.length_splitOn raw (.lit "::")
  obtain ⟨left, right, hpieces⟩ := List.length_eq_two.mp htwo
  have hsep : (Str.lit "::").bytes.length = 2 := rfl
  rw [hpieces, hsep] at hlen
  simp only [List.map_cons, List.map_nil, List.flatten_cons, List.flatten_nil, List.length_append,
    List.length_cons, List.length_nil] at hlen
  rw [hpieces, hlen]
  simp only [getOrEmpty, List.getD_cons_zero, List.getD_cons_succ]
  omega

private theorem validateIpv6_yields {raw : Str} (hfits : raw.Fits) :
    Yields (validateIpv6 raw) (Url.validateIpv6 raw) := by
  rw [validateIpv6, Url.validateIpv6]
  refine .ite (fun _ => .throw _) fun htwo => ?_
  refine .ite (fun _ => ?_) fun hone => ?_
  · refine .bind (parseIpv6Side_yields raw) fun groups _ => ?_
    exact .ite (fun _ => .lifted (serializeIpv6_ok groups)) fun _ => .throw _
  · refine .bind (parseIpv6Side_yields _) fun left hleft => ?_
    refine .bind (parseIpv6Side_yields _) fun right hright => ?_
    have hcount : left.length + right.length < limitU64 := by
      have hpos := List.length_pos_iff.mpr (Str.splitOn_ne_nil raw (.lit "::"))
      have hne : (raw.splitOn (.lit "::")).length ≠ 1 := by simpa using hone
      have hsides := length_sides raw (by omega)
      have hleft := length_of_parseIpv6Side hleft
      have hright := length_of_parseIpv6Side hright
      unfold Str.Fits at hfits
      rw [limitU64]
      omega
    refine .lift (guarded_of hcount) (.ite (fun _ => .throw _) fun hfew => ?_)
    refine .lift (guarded_of (Nat.le_of_not_le hfew)) ?_
    exact .lifted (serializeIpv6_ok _)

/-- An authority is read without an overflow. -/
theorem parseAuthority_yields {authority : Str} (hfits : authority.Fits) (scheme : Scheme) :
    Yields (parseAuthority authority scheme) (Url.parseAuthority authority scheme) := by
  rw [parseAuthority, Url.parseAuthority]
  refine .ite (fun _ => ?_) fun _ => ?_
  · cases hcut : splitFirst authority (.lit "]") with
    | none => exact .throw _
    | some parts =>
      obtain ⟨before, after⟩ := parts
      have hbefore := (fits_splitFirst rightBracket_bytes hcut hfits).1
      have hraw : (dropPrefix before (.lit "[")).Fits := fits_dropPrefix (by decide) hbefore
      refine .bind (validateIpv6_yields hraw) fun host _ => ?_
      refine .bind ?_ fun port _ => .pure _
      refine .ite (fun _ => .pure _) fun _ => ?_
      exact .ite (fun _ => parsePort_yields _ _) fun _ => .throw _
  · refine .lift (a := match Url.splitLast authority (.lit ":") with
      | some (before, after) => (before, some after)
      | none => (authority, none)) ?_ ?_
    · rw [splitLast_ok, Try.ok_bind]
      cases Url.splitLast authority (.lit ":") <;> rfl
    · cases Url.splitLast authority (.lit ":") with
      | none => exact .bind (validateHost_yields _) fun host _ => .pure _
      | some parts =>
        refine .bind (validateHost_yields _) fun host _ => ?_
        exact .bind (parsePort_yields _ _) fun port _ => .pure _

end TrantorCli.Url.Arith
