import TrantorCli.Url.DnsName

/-!
# Which hosts are accepted

A host outside brackets is accepted when it is four decimal octets or a DNS name
whose last label is not a number. To the URL standard the first kind alone is an
IPv4 address, and the standard reads the same address from it.
-/

open Roc

namespace TrantorCli.Url

/-! ### Dotted-decimal hosts -/

/-- Four decimal octets without leading zeros. -/
def IsDotted (host : List UInt8) : Prop :=
  ∃ a b c d, a ≤ 255 ∧ b ≤ 255 ∧ c ≤ 255 ∧ d ≤ 255 ∧ host = Ipv4.dotted [a, b, c, d]

/-- Digits have no case. -/
theorem lowerByte_of_isDigit {byte : UInt8} (h : Decimal.IsDigit byte) : lowerByte byte = byte := by
  rw [← isDigit_iff] at h
  grind

private theorem parseIpv4Parts_decimalStr {values : List ℕ} (h : ∀ value ∈ values, value ≤ 255)
    (out : List ℕ) : parseIpv4Parts (values.map decimalStr) out = some (out ++ values) := by
  induction values generalizing out with
  | nil => simp [parseIpv4Parts]
  | cons value values ih =>
    have hle := h value (by simp)
    have hzero : ¬(decide ((decimalStr value).bytes.length > 1) &&
        startsWith (decimalStr value) (.lit "0")) = true := by
      intro hlead
      obtain ⟨hlen, hstart⟩ := Bool.and_eq_true_iff.mp hlead
      obtain ⟨rest, hrest⟩ := startsWith_iff.mp hstart
      apply Decimal.head_decimal_of_length (of_decide_eq_true hlen)
      exact (congrArg List.head? hrest).symm
    have hvalue : parseDecimal (decimalStr value) = some value :=
      parseDecimal_decimalStr (by rw [decimalCap]; omega)
    rw [List.map_cons, parseIpv4Parts]
    simp only [Str.toUtf8_eq]
    rw [if_neg hzero, hvalue]
    simp only
    rw [if_pos hle, ih (fun other hmem => h other (by simp [hmem])), List.append_assoc,
      List.singleton_append]

private theorem le_of_parseIpv4Parts {parts : List Str} {out values : List ℕ}
    (h : parseIpv4Parts parts out = some values) (hout : ∀ value ∈ out, value ≤ 255) :
    ∀ value ∈ values, value ≤ 255 := by
  induction parts generalizing out with
  | nil =>
    cases h
    exact hout
  | cons first rest ih =>
    rw [parseIpv4Parts] at h
    split at h
    · cases h
    split at h
    · next value hvalue =>
      split at h
      · next hle =>
        apply ih h
        intro other hmem
        rcases List.mem_append.mp hmem with hmem | hmem
        · exact hout other hmem
        · rwa [List.mem_singleton.mp hmem]
      · cases h
    · cases h

private theorem joinWith_decimalStr (values : List ℕ) :
    (Str.joinWith (values.map decimalStr) (.lit ".")).bytes = Ipv4.dotted values := by
  rw [Str.joinWith_bytes, List.map_map, dot_bytes]
  rfl

/-- The address validation accepts four octets and nothing else. -/
theorem validateIpv4_iff {raw : Str} :
    (∃ host, validateIpv4 raw = .ok host) ↔ IsDotted raw.bytes := by
  constructor
  · rintro ⟨host, h⟩
    simp only [validateIpv4] at h
    split at h
    · cases h
    next hlen =>
    split at h
    · cases h
    next values hvalues =>
    have hparts := map_decimalStr_of_parts hvalues
    rw [List.map_nil, List.nil_append] at hparts
    have hle := le_of_parseIpv4Parts hvalues (by simp)
    have hfour : values.length = 4 := by
      rw [← List.length_map decimalStr, hparts]
      simpa using hlen
    obtain ⟨a, b, c, d, rfl⟩ := List.length_eq_four.mp hfour
    refine ⟨a, b, c, d, hle a (by simp), hle b (by simp), hle c (by simp), hle d (by simp), ?_⟩
    rw [← joinWith_decimalStr, hparts, Str.joinWith_splitOn]
  · rintro ⟨a, b, c, d, ha, hb, hc, hd, hraw⟩
    have hparts : raw.splitOn (.lit ".") = [a, b, c, d].map decimalStr := by
      have heq : raw = Str.joinWith ([a, b, c, d].map decimalStr) (.lit ".") :=
        Str.ext (hraw.trans (joinWith_decimalStr _).symm)
      rw [heq, Str.splitOn_joinWith dot_bytes (by simp)]
      intro part hpart
      obtain ⟨n, -, rfl⟩ := List.mem_map.mp hpart
      exact Ipv4.dot_not_mem_decimal n
    have hle : ∀ value ∈ [a, b, c, d], value ≤ 255 := by simp [ha, hb, hc, hd]
    simp only [validateIpv4, hparts]
    rw [if_neg (by simp), parseIpv4Parts_decimalStr hle]
    exact ⟨_, rfl⟩

/-- Every byte of an address is a digit or a dot. -/
theorem IsDotted.bytes {host : List UInt8} (h : IsDotted host) :
    ∀ byte ∈ host, Decimal.IsDigit byte ∨ byte = 46 := by
  obtain ⟨a, b, c, d, -, -, -, -, rfl⟩ := h
  intro byte hmem
  rcases SplitOn.mem_intercalate hmem with hdot | ⟨part, hpart, hbyte⟩
  · exact .inr (List.mem_singleton.mp hdot)
  · obtain ⟨n, -, rfl⟩ := List.mem_map.mp hpart
    exact .inl (Decimal.isDigit_of_mem_decimal hbyte)

private theorem IsDotted.ascii {host : List UInt8} (h : IsDotted host) : Utf8.Ascii host := by
  intro byte hmem
  rw [UInt8.lt_iff_toNat_lt]
  simp only [UInt8.reduceToNat]
  rcases h.bytes byte hmem with hdigit | rfl
  · exact Nat.lt_of_le_of_lt hdigit.2 (by omega)
  · decide

private theorem IsDotted.ne_nil {host : List UInt8} (h : IsDotted host) : host ≠ [] := by
  obtain ⟨a, b, c, d, -, -, -, -, rfl⟩ := h
  intro hempty
  have hsplit := Ipv4.splitOn_dotted (List.cons_ne_nil a [b, c, d])
  rw [hempty] at hsplit
  simp at hsplit

/-! ### Validation -/

/-- An address is accepted as it stands. -/
theorem IsDotted.validateHost {raw : Str} (h : IsDotted raw.bytes) :
    validateHost raw = .ok raw := by
  obtain ⟨host, hhost⟩ := validateIpv4_iff.mpr h
  have hall : (raw.bytes.all fun byte => isDigit byte || byte == 46) = true := by
    simp only [List.all_eq_true, Bool.or_eq_true, beq_iff_eq, isDigit_iff]
    exact h.bytes
  rw [Url.validateHost, if_neg (mt Str.isEmpty_iff.mp h.ne_nil),
    if_neg (not_any_iff_ascii.mpr h.ascii), if_pos hall, hhost, eq_of_validateIpv4 hhost]

/-- Digits and dots have no case. -/
theorem IsDotted.lower {host : List UInt8} (h : IsDotted host) : host.map lowerByte = host := by
  have hsame : ∀ byte ∈ host, lowerByte byte = id byte := by
    intro byte hmem
    rcases h.bytes byte hmem with hdigit | rfl
    · exact lowerByte_of_isDigit hdigit
    · decide
  rw [List.map_congr_left hsame, List.map_id]

private theorem IsDotted.asciiLower {raw : Str} (h : IsDotted raw.bytes) : asciiLower raw = raw :=
  Str.ext ((asciiLower_bytes raw).trans h.lower)

/-- Validation accepts addresses and names, and lowercases them. -/
theorem validateHost_iff {raw host : Str} :
    validateHost raw = .ok host ↔
      host = asciiLower raw ∧ (IsDotted raw.bytes ∨ IsDnsName raw.bytes) := by
  constructor
  · intro h
    unfold Url.validateHost at h
    split at h
    · cases h
    split at h
    · cases h
    next hany =>
    have hascii : Utf8.Ascii raw.bytes := not_any_iff_ascii.mp hany
    split at h
    · obtain rfl := eq_of_validateIpv4 h
      have hdotted := validateIpv4_iff.mp ⟨_, h⟩
      exact ⟨hdotted.asciiLower.symm, .inl hdotted⟩
    split at h
    · cases h
    next hnumber =>
    obtain ⟨rfl, hlen, hlabels⟩ := validateDnsName_iff.mp h
    refine ⟨rfl, .inr (isDnsName_lower.mp ?_)⟩
    rw [← asciiLower_bytes]
    refine ⟨hlen, hlabels, fun last hlast hlastNumber => hnumber ?_⟩
    rw [← endsInNumber_lower, endsInNumber_iff]
    exact ⟨last, hlast, hlastNumber⟩
  · rintro ⟨rfl, hdotted | hname⟩
    · rw [hdotted.validateHost, hdotted.asciiLower]
    · have hnumber : ¬endsInNumber raw = true := by
        rw [endsInNumber_iff]
        rintro ⟨last, hlast, hnumber⟩
        exact hname.notNumber last hlast hnumber
      have hlower := isDnsName_lower.mpr hname
      rw [← asciiLower_bytes] at hlower
      rw [Url.validateHost, if_neg (mt Str.isEmpty_iff.mp hname.ne_nil),
        if_neg (not_any_iff_ascii.mpr hname.ascii), if_neg hname.not_all_digits, if_neg hnumber]
      exact validateDnsName_iff.mpr ⟨rfl, hlower.length_le, hlower.labels⟩

/-- What validation accepts it accepts again unchanged. -/
theorem validateHost_of_validateHost {raw host : Str} (h : validateHost raw = .ok host) :
    validateHost host = .ok host := by
  obtain ⟨rfl, hform⟩ := validateHost_iff.mp h
  refine validateHost_iff.mpr ⟨(asciiLower_asciiLower raw).symm, ?_⟩
  rcases hform with hdotted | hname
  · rw [hdotted.asciiLower]
    exact .inl hdotted
  · rw [asciiLower_bytes]
    exact .inr (isDnsName_lower.mpr hname)

/-- A valid host has a host's bytes. -/
theorem isHostByte_of_validateHost {raw host : Str} (h : validateHost raw = .ok host) :
    ∀ byte ∈ raw.bytes, isHostByte byte = true := by
  intro byte hmem
  have hclass : IsLetterOrDigit byte ∨ byte = 45 ∨ byte = 46 := by
    rcases (validateHost_iff.mp h).2 with hdotted | hname
    · rcases hdotted.bytes byte hmem with hdigit | hdot
      · exact .inl (.inl hdigit)
      · exact .inr (.inr hdot)
    · rcases hname.bytes byte hmem with (hword | hhyphen) | hdot
      · exact .inl hword
      · exact .inr (.inl hhyphen)
      · exact .inr (.inr hdot)
  rcases hclass with hword | rfl | rfl
  · rw [isHostByte, isAlphanumeric_iff.mpr hword]
    rfl
  · decide
  · decide

/-- A valid host is not empty. -/
theorem ne_nil_of_validateHost {raw host : Str} (h : validateHost raw = .ok host) :
    raw.bytes ≠ [] := by
  rcases (validateHost_iff.mp h).2 with hdotted | hname
  · exact hdotted.ne_nil
  · exact hname.ne_nil

/-- A host that validation returns is stored as it is. -/
theorem plainHost_of_validateHost {raw host : Str} (h : validateHost raw = .ok host) :
    PlainHost host :=
  ⟨validateHost_of_validateHost h, isHostByte_of_validateHost (validateHost_of_validateHost h)⟩

/-- Validation accepts four octets and names that no parser takes for a number, and nothing else;
the standard takes the octets alone for an address, and reads that address. -/
theorem validateHost_grammar (raw : Str) :
    (∀ host, validateHost raw = .ok host →
      host.bytes = raw.bytes.map lowerByte ∧ validateHost host = .ok host ∧
      ((IsDotted host.bytes ∧ host = raw) ∨ IsDnsName host.bytes) ∧
      (Ipv4.endsInNumber host.bytes = true ↔ IsDotted host.bytes) ∧
      ∀ a b c d, a ≤ 255 → b ≤ 255 → c ≤ 255 → d ≤ 255 →
        host.bytes = Ipv4.dotted [a, b, c, d] →
          Ipv4.parse host.bytes = some (a * 2 ^ 24 + b * 2 ^ 16 + c * 2 ^ 8 + d)) ∧
    (IsDotted raw.bytes ∨ IsDnsName raw.bytes → ∃ host, validateHost raw = .ok host) := by
  refine ⟨fun host h => ?_, fun hform => ⟨asciiLower raw, validateHost_iff.mpr ⟨rfl, hform⟩⟩⟩
  obtain ⟨rfl, hform⟩ := validateHost_iff.mp h
  have hbytes := asciiLower_bytes raw
  have hforms : (IsDotted (asciiLower raw).bytes ∧ asciiLower raw = raw) ∨
      IsDnsName (asciiLower raw).bytes := by
    rcases hform with hdotted | hname
    · exact .inl ⟨by rwa [hdotted.asciiLower], hdotted.asciiLower⟩
    · exact .inr (by rwa [hbytes, isDnsName_lower])
  refine ⟨hbytes, validateHost_of_validateHost h, hforms, ⟨fun hends => ?_, ?_⟩, ?_⟩
  · rcases hforms with ⟨hdotted, -⟩ | hname
    · exact hdotted
    · exact absurd hends hname.endsInNumber
  · rintro ⟨a, b, c, d, -, -, -, -, hdotted⟩
    rw [hdotted]
    exact Ipv4.endsInNumber_dotted (List.cons_ne_nil a [b, c, d])
  · intro a b c d ha hb hc hd hdotted
    rw [hdotted]
    exact Ipv4.parse_dotted ha hb hc hd

end TrantorCli.Url
