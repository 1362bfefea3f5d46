import TrantorCli.Lib.AsciiCase
import TrantorCli.Url.Ipv6
import TrantorCli.Url.Number

/-!
# Host names and IPv4 addresses

`validate_host` lowercases a DNS name and keeps an IPv4 address. Lowercasing
changes none of its tests, and an accepted address is written back digit for
digit, so whatever it accepts it accepts again unchanged.
-/

open Roc

namespace TrantorCli.Url

/-- Whether a last label reads as a number to other parsers. -/
def isNumberLabel (label : List UInt8) : Bool :=
  match label with
  | [] => false
  | zero :: x :: hex =>
    if zero == 48 && (x == 120 || x == 88) then hex.all isHex else (zero :: x :: hex).all isDigit
  | digits => digits.all isDigit

/-- `ends_in_number` -/
def endsInNumber (host : Str) : Bool :=
  let last :=
    match (host.splitOn (.lit ".")).getLast? with
    | some label => label.toUtf8
    | none => []
  isNumberLabel last

/-- What `validate_dns_name` asks of each label. -/
def isDnsLabel (label : Str) : Bool :=
  let bytes := label.toUtf8
  let len := bytes.length
  decide (len > 0) && decide (len ≤ 63) && isAlphanumeric (firstOrZero bytes) &&
    isAlphanumeric (lastOrZero bytes) && bytes.all fun byte => isAlphanumeric byte || byte == 45

/-- `validate_dns_name` -/
def validateDnsName (rawHost : Str) : Except ParseErr Str :=
  let host := asciiLower rawHost
  let labels := host.splitOn (.lit ".")
  let valid := decide (host.toUtf8.length ≤ 253) && labels.all isDnsLabel
  if valid then .ok host else .error (.invalidHost rawHost)

/-- `parse_ipv4_parts`; `none` is `Err(BadIpv4Part)`. -/
def parseIpv4Parts (parts : List Str) (out : List Nat) : Option (List Nat) :=
  match parts with
  | [] => some out
  | first :: rest =>
    if decide (first.toUtf8.length > 1) && startsWith first (.lit "0") then none
    else
      match parseDecimal first with
      | some value => if value ≤ 255 then parseIpv4Parts rest (out ++ [value]) else none
      | none => none

/-- `validate_ipv4` -/
def validateIpv4 (rawHost : Str) : Except ParseErr Str :=
  let parts := rawHost.splitOn (.lit ".")
  if parts.length ≠ 4 then .error (.invalidIpv4 rawHost)
  else
    match parseIpv4Parts parts [] with
    | none => .error (.invalidIpv4 rawHost)
    | some values => .ok (Str.joinWith (values.map decimalStr) (.lit "."))

/-- `validate_host` -/
def validateHost (rawHost : Str) : Except ParseErr Str :=
  if rawHost.isEmpty then .error .emptyHost
  else if rawHost.toUtf8.any (· > 127) then .error .internationalHostUnsupported
  else if rawHost.toUtf8.all fun byte => isDigit byte || byte == 46 then validateIpv4 rawHost
  else if endsInNumber rawHost then .error (.invalidIpv4 rawHost)
  else validateDnsName rawHost

/-- A byte of a host outside brackets. -/
def isHostByte (byte : UInt8) : Bool := isAlphanumeric byte || byte == 45 || byte == 46

/-! ### IPv4 -/

/-- An accepted part is the number it denotes, written without change. -/
theorem decimalStr_of_part {part : Str} {value : Nat}
    (hzero : ¬(decide (part.bytes.length > 1) && startsWith part (.lit "0")) = true)
    (hvalue : parseDecimal part = some value) (hle : value ≤ 255) : decimalStr value = part := by
  obtain ⟨hne, hdigits, heq | ⟨hcap, -⟩⟩ := parseDecimal_eq_some hvalue
  · ext1
    rw [heq]
    refine Decimal.decimal_value (fun byte hmem => isDigit_iff.mp (hdigits byte hmem)) hne ?_
    intro hlen hhead
    refine hzero (Bool.and_eq_true_iff.mpr ⟨by simpa using hlen, startsWith_iff.mpr ?_⟩)
    obtain ⟨rest, hrest⟩ := List.head?_eq_some_iff.mp hhead
    exact ⟨rest, hrest.symm⟩
  · simp only [decimalCap] at hcap
    omega

/-- Accepted parts are the numbers returned, written without change. -/
theorem map_decimalStr_of_parts {parts : List Str} {out values : List Nat}
    (h : parseIpv4Parts parts out = some values) :
    values.map decimalStr = out.map decimalStr ++ parts := by
  induction parts generalizing out with
  | nil =>
    cases h
    simp
  | cons first rest ih =>
    rw [parseIpv4Parts] at h
    split at h
    · cases h
    · next hzero =>
      cases hvalue : parseDecimal first with
      | none => simp [hvalue] at h
      | some value =>
        simp only [hvalue] at h
        split at h
        · next hle =>
          rw [ih h, List.map_append, List.map_singleton, decimalStr_of_part hzero hvalue hle]
          simp
        · cases h

/-- An accepted IPv4 address is returned as it was. -/
theorem eq_of_validateIpv4 {raw host : Str} (h : validateIpv4 raw = .ok host) : host = raw := by
  simp only [validateIpv4] at h
  split at h
  · cases h
  · split at h
    · cases h
    · next values hvalues =>
      cases h
      rw [map_decimalStr_of_parts hvalues, List.map_nil, List.nil_append, Str.joinWith_splitOn]

/-! ### Lowercasing -/

/-- Lowering a byte changes no class that a host's label is read by. -/
theorem lowerByte_class (byte : UInt8) :
    isDigit (lowerByte byte) = isDigit byte ∧ isHex (lowerByte byte) = isHex byte ∧
      (lowerByte byte == 46) = (byte == 46) ∧ (lowerByte byte == 48) = (byte == 48) ∧
      (lowerByte byte == 120 || lowerByte byte == 88) = (byte == 120 || byte == 88) := by
  refine ⟨?_, ?_, ?_, ?_, ?_⟩ <;> grind

/-- Text is lowercased byte by byte, since bytes beyond ASCII stay. -/
theorem asciiLower_bytes (s : Str) : (asciiLower s).bytes = s.bytes.map lowerByte :=
  AsciiCase.fromUtf8Lossy_lower s

/-- Lowercasing twice is lowercasing once. -/
theorem asciiLower_asciiLower (s : Str) : asciiLower (asciiLower s) = asciiLower s := by
  ext1
  rw [asciiLower_bytes, asciiLower_bytes, List.map_map]
  exact List.map_congr_left fun byte _ => lowerByte_lowerByte byte

/-- A number in either case is one. -/
theorem isNumberLabel_lower (label : List UInt8) :
    isNumberLabel (label.map lowerByte) = isNumberLabel label := by
  have hdigit : isDigit ∘ lowerByte = isDigit := funext fun byte => (lowerByte_class byte).1
  have hhex : isHex ∘ lowerByte = isHex := funext fun byte => (lowerByte_class byte).2.1
  match label with
  | [] => rfl
  | [digit] => simp [isNumberLabel, (lowerByte_class digit).1]
  | zero :: x :: hex =>
    obtain ⟨hzero, -, -, hzero48, -⟩ := lowerByte_class zero
    obtain ⟨hx, -, -, -, hx120⟩ := lowerByte_class x
    simp only [List.map_cons, isNumberLabel, hzero48, hx120, List.all_cons, List.all_map, hdigit,
      hhex, hzero, hx]

/-- The last label of a host, as bytes. -/
theorem endsInNumber_eq (host : Str) :
    endsInNumber host = isNumberLabel ((host.bytes.splitOn 46).getLast?.getD []) := by
  have hmap := Str.splitOn_bytes host (.lit ".")
  rw [dot_bytes, Cut.pieces_singleton] at hmap
  rw [endsInNumber, ← hmap, List.getLast?_map]
  cases (host.splitOn (.lit ".")).getLast? <;> rfl

/-- Case does not change whether a host ends in a number. -/
theorem endsInNumber_lower (host : Str) :
    endsInNumber (asciiLower host) = endsInNumber host := by
  have hsep : ∀ byte ∈ host.bytes, lowerByte byte = 46 ↔ byte = 46 := fun byte _ => by
    have hclass := (lowerByte_class byte).2.2.1
    rw [← beq_iff_eq, hclass, beq_iff_eq]
  rw [endsInNumber_eq, endsInNumber_eq, asciiLower_bytes, SplitOn.splitOn_map hsep,
    List.getLast?_map]
  cases (host.bytes.splitOn 46).getLast? with
  | none => rfl
  | some label => exact isNumberLabel_lower label

/-! ### Accepted hosts -/

/-- A host outside brackets as a `Url` stores it. -/
structure PlainHost (host : Str) : Prop where
  /-- Validation returns the host. -/
  valid : validateHost host = .ok host
  /-- The host is made of letters, digits, hyphens and dots. -/
  bytes : ∀ byte ∈ host.bytes, isHostByte byte = true

/-- The test for bytes beyond ASCII. -/
theorem not_any_iff_ascii {bytes : List UInt8} :
    ¬bytes.any (· > 127) = true ↔ Utf8.Ascii bytes := by
  simp only [List.any_eq_true, decide_eq_true_eq, not_exists, not_and, not_high_iff]
  rfl

end TrantorCli.Url
