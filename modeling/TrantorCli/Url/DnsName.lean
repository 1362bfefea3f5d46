import TrantorCli.Lib.Ipv4
import TrantorCli.Url.Host
import TrantorCli.Url.Meaning

/-!
# DNS names

The names that validation accepts, by their labels. A label is made of letters,
digits and inner hyphens, and the last one is no number to the URL standard. Case
plays no part in any of it.
-/

open Roc

namespace TrantorCli.Url

/-- A letter or a digit. -/
def IsLetterOrDigit (byte : UInt8) : Prop :=
  Decimal.IsDigit byte ∨ (65 ≤ byte.toNat ∧ byte.toNat ≤ 90) ∨ (97 ≤ byte.toNat ∧ byte.toNat ≤ 122)

/-- A label of a DNS name. -/
@[mk_iff] structure IsLabel (label : List UInt8) : Prop where
  /-- The label is not empty. -/
  ne_nil : label ≠ []
  /-- The label has at most 63 bytes. -/
  length_le : label.length ≤ 63
  /-- The label is made of letters, digits and hyphens. -/
  bytes : ∀ byte ∈ label, IsLetterOrDigit byte ∨ byte = 45
  /-- The label does not start with a hyphen. -/
  head : label.head? ≠ some 45
  /-- The label does not end with a hyphen. -/
  last : label.getLast? ≠ some 45

/-- A DNS name that no parser takes for a number. -/
@[mk_iff] structure IsDnsName (host : List UInt8) : Prop where
  /-- The name has at most 253 bytes. -/
  length_le : host.length ≤ 253
  /-- The parts between the dots are labels. -/
  labels : ∀ label ∈ host.splitOn 46, IsLabel label
  /-- The last label is neither decimal nor hexadecimal. -/
  notNumber : ∀ last ∈ (host.splitOn 46).getLast?, ¬Ipv4.IsNumber last

/-! ### Labels -/

/-- What the code takes for a letter or a digit is one. -/
theorem isAlphanumeric_iff {byte : UInt8} : isAlphanumeric byte = true ↔ IsLetterOrDigit byte := by
  rw [isAlphanumeric, IsLetterOrDigit, Bool.or_eq_true, Bool.or_eq_true, isDigit_iff]
  simp only [Bool.and_eq_true, decide_eq_true_eq, UInt8.le_iff_toNat_le, UInt8.reduceToNat]
  tauto

/-- A number to the code is a number to the standard. -/
theorem isNumberLabel_iff (label : List UInt8) :
    isNumberLabel label = true ↔ Ipv4.IsNumber label := by
  have hdigits : ∀ digits : List UInt8,
      digits.all isDigit = true ↔ ∀ byte ∈ digits, Decimal.IsDigit byte := by
    intro digits
    simp only [List.all_eq_true, isDigit_iff]
  unfold isNumberLabel Ipv4.IsNumber
  split
  · simp
  · next zero x hex =>
    by_cases hhex : (zero == 48 && (x == 120 || x == 88)) = true
    · rw [if_pos hhex]
      simp only [Bool.and_eq_true, Bool.or_eq_true, beq_iff_eq] at hhex
      obtain ⟨rfl, hx⟩ := hhex
      have hnot : ¬Decimal.IsDigit x := by
        rcases hx with rfl | rfl <;> simp [Decimal.IsDigit]
      simp only [List.all_eq_true, isHex_iff_digitValue]
      constructor
      · exact fun hall => .inr ⟨x, hex, rfl, hx, hall⟩
      · rintro (⟨-, hall⟩ | ⟨x', hex', heq, -, hall⟩)
        · exact absurd (hall x (by simp)) hnot
        · cases heq
          exact hall
    · rw [if_neg hhex, hdigits]
      constructor
      · exact fun hall => .inl ⟨by simp, hall⟩
      · rintro (⟨-, hall⟩ | ⟨x', hex', heq, hx, -⟩)
        · exact hall
        · cases heq
          exact absurd (by simpa using hx) hhex
  · next hempty hlong =>
    rw [hdigits]
    constructor
    · exact fun hall => .inl ⟨hempty, hall⟩
    · rintro (⟨-, hall⟩ | ⟨x, hex, heq, -, -⟩)
      · exact hall
      · exact absurd heq (hlong 48 x hex)

private theorem firstOrZero_eq (bytes : List UInt8) : firstOrZero bytes = bytes.head?.getD 0 := by
  cases bytes <;> rfl

private theorem lastOrZero_eq (bytes : List UInt8) : lastOrZero bytes = bytes.getLast?.getD 0 := by
  rw [lastOrZero, getOrZero]
  cases bytes with
  | nil => rfl
  | cons first rest => rw [if_neg (by simp), List.getLast?_eq_getElem?, List.getD_eq_getElem?_getD]

/-- What the code asks of a label. -/
theorem isDnsLabel_iff (label : Str) : isDnsLabel label = true ↔ IsLabel label.bytes := by
  simp only [isDnsLabel, Str.toUtf8_eq, Bool.and_eq_true, decide_eq_true_eq, List.all_eq_true,
    Bool.or_eq_true, beq_iff_eq, isAlphanumeric_iff, firstOrZero_eq, lastOrZero_eq]
  have hhyphen : ¬IsLetterOrDigit 45 := by simp [IsLetterOrDigit, Decimal.IsDigit]
  constructor
  · rintro ⟨⟨⟨⟨hpos, hlen⟩, hfirst⟩, hlast⟩, hall⟩
    refine ⟨List.length_pos_iff.mp hpos, hlen, hall, fun hhead => hhyphen ?_,
      fun hend => hhyphen ?_⟩
    · rwa [hhead] at hfirst
    · rwa [hend] at hlast
  · intro h
    obtain ⟨first, hfirst⟩ := Option.ne_none_iff_exists'.mp (mt List.head?_eq_none_iff.mp h.ne_nil)
    obtain ⟨last, hlast⟩ :=
      Option.ne_none_iff_exists'.mp (mt List.getLast?_eq_none_iff.mp h.ne_nil)
    refine ⟨⟨⟨⟨List.length_pos_iff.mpr h.ne_nil, h.length_le⟩, ?_⟩, ?_⟩, h.bytes⟩
    · rcases h.bytes first (List.mem_of_head? hfirst) with hfine | rfl
      · rwa [hfirst]
      · exact absurd hfirst h.head
    · rcases h.bytes last (List.mem_of_getLast? hlast) with hfine | rfl
      · rwa [hlast]
      · exact absurd hlast h.last

private theorem isLetterOrDigit_lowerByte {byte : UInt8} :
    (IsLetterOrDigit (lowerByte byte) ↔ IsLetterOrDigit byte) ∧
    (lowerByte byte = 45 ↔ byte = 45) := by
  simp only [← isAlphanumeric_iff]
  grind

private theorem map_lower_eq_some {byte : Option UInt8} :
    byte.map lowerByte = some 45 ↔ byte = some 45 := by
  rw [Option.map_eq_some_iff]
  simp [isLetterOrDigit_lowerByte.2]

/-- Labels have no case. -/
theorem isLabel_lower {label : List UInt8} : IsLabel (label.map lowerByte) ↔ IsLabel label := by
  rw [isLabel_iff, isLabel_iff, ne_eq, ne_eq, ne_eq, ne_eq, ne_eq, ne_eq, List.head?_map,
    List.getLast?_map, map_lower_eq_some, map_lower_eq_some, List.map_eq_nil_iff, List.length_map,
    List.forall_mem_map]
  simp only [isLetterOrDigit_lowerByte]

private theorem isNumber_lower {label : List UInt8} :
    Ipv4.IsNumber (label.map lowerByte) ↔ Ipv4.IsNumber label := by
  rw [← isNumberLabel_iff, isNumberLabel_lower, isNumberLabel_iff]

/-! ### DNS names -/

/-- The labels of a host, as bytes. -/
theorem splitOn_dot_bytes (host : Str) :
    (host.splitOn (.lit ".")).map Str.bytes = host.bytes.splitOn 46 := by
  rw [Str.splitOn_bytes, dot_bytes, Cut.pieces_singleton]

private theorem all_isDnsLabel_iff (host : Str) :
    (host.splitOn (.lit ".")).all isDnsLabel = true ↔
      ∀ label ∈ host.bytes.splitOn 46, IsLabel label := by
  rw [← splitOn_dot_bytes, List.forall_mem_map, List.all_eq_true]
  simp only [isDnsLabel_iff]

/-- The name validation accepts names of at most 253 bytes whose labels are in order. -/
theorem validateDnsName_iff {raw host : Str} :
    validateDnsName raw = .ok host ↔ host = asciiLower raw ∧ host.bytes.length ≤ 253 ∧
      ∀ label ∈ host.bytes.splitOn 46, IsLabel label := by
  simp only [validateDnsName, Str.toUtf8_eq]
  split
  · next hvalid =>
    obtain ⟨hlen, hlabels⟩ := Bool.and_eq_true_iff.mp hvalid
    constructor
    · intro h
      cases h
      exact ⟨rfl, of_decide_eq_true hlen, (all_isDnsLabel_iff _).mp hlabels⟩
    · rintro ⟨rfl, -, -⟩
      rfl
  · next hinvalid =>
    constructor
    · intro h
      cases h
    · rintro ⟨rfl, hlen, hlabels⟩
      exact absurd (Bool.and_eq_true_iff.mpr
        ⟨decide_eq_true hlen, (all_isDnsLabel_iff _).mpr hlabels⟩) hinvalid

private theorem splitOn_lower (host : List UInt8) :
    (host.map lowerByte).splitOn 46 = (host.splitOn 46).map (List.map lowerByte) := by
  apply SplitOn.splitOn_map
  intro byte _
  have hclass := (lowerByte_class byte).2.2.1
  rw [← beq_iff_eq, hclass, beq_iff_eq]

/-- Names have no case. -/
theorem isDnsName_lower {host : List UInt8} : IsDnsName (host.map lowerByte) ↔ IsDnsName host := by
  rw [isDnsName_iff, isDnsName_iff, List.length_map, splitOn_lower, List.forall_mem_map,
    List.getLast?_map]
  simp only [isLabel_lower]
  cases (host.splitOn 46).getLast? with
  | none => simp
  | some last => simp [isNumber_lower]

/-- The last label decides whether a host ends in a number. -/
theorem endsInNumber_iff (host : Str) :
    endsInNumber host = true ↔ ∃ last ∈ (host.bytes.splitOn 46).getLast?, Ipv4.IsNumber last := by
  rw [endsInNumber_eq, isNumberLabel_iff]
  cases hlast : (host.bytes.splitOn 46).getLast? with
  | none => simp [Ipv4.IsNumber]
  | some last => simp

/-- A name is not empty. -/
theorem IsDnsName.ne_nil {host : List UInt8} (h : IsDnsName host) : host ≠ [] := by
  rintro rfl
  exact (h.labels [] (by simp)).ne_nil rfl

/-- Every byte of a name is one of a label or a dot. -/
theorem IsDnsName.bytes {host : List UInt8} (h : IsDnsName host) :
    ∀ byte ∈ host, (IsLetterOrDigit byte ∨ byte = 45) ∨ byte = 46 := by
  intro byte hmem
  have hpieces : host = [46].intercalate (host.splitOn 46) := (List.intercalate_splitOn 46).symm
  rw [hpieces] at hmem
  rcases SplitOn.mem_intercalate hmem with hdot | ⟨label, hlabel, hbyte⟩
  · exact .inr (List.mem_singleton.mp hdot)
  · exact .inl ((h.labels label hlabel).bytes byte hbyte)

/-- A name is ASCII. -/
theorem IsDnsName.ascii {host : List UInt8} (h : IsDnsName host) : Utf8.Ascii host := by
  intro byte hmem
  rw [UInt8.lt_iff_toNat_lt]
  simp only [UInt8.reduceToNat]
  rcases h.bytes byte hmem with (hword | rfl) | rfl
  · simp only [IsLetterOrDigit, Decimal.IsDigit] at hword
    omega
  · decide
  · decide

/-- A name has more in it than digits and dots. -/
theorem IsDnsName.not_all_digits {host : List UInt8} (h : IsDnsName host) :
    ¬(host.all fun byte => isDigit byte || byte == 46) = true := by
  intro hall
  obtain ⟨last, hlast⟩ := Option.ne_none_iff_exists'.mp
    (mt List.getLast?_eq_none_iff.mp (List.splitOn_ne_nil 46 host))
  have hmem := List.mem_of_getLast? hlast
  refine h.notNumber last hlast (.inl ⟨(h.labels last hmem).ne_nil, fun byte hbyte => ?_⟩)
  have hdigit := List.all_eq_true.mp hall byte (SplitOn.mem_of_mem_piece hmem hbyte)
  simp only [Bool.or_eq_true, beq_iff_eq, isDigit_iff] at hdigit
  rcases hdigit with hdigit | rfl
  · exact hdigit
  · exact absurd hbyte (SplitOn.not_mem_of_mem hmem)

/-- To the standard a name does not end in a number. -/
theorem IsDnsName.endsInNumber {host : List UInt8} (h : IsDnsName host) :
    ¬Ipv4.endsInNumber host = true := by
  intro hends
  obtain ⟨last, hlast⟩ := Option.ne_none_iff_exists'.mp
    (mt List.getLast?_eq_none_iff.mp (List.splitOn_ne_nil 46 host))
  have hne := (h.labels last (List.mem_of_getLast? hlast)).ne_nil
  exact h.notNumber last hlast (Ipv4.isNumber_of_endsInNumber hlast hne hends)

end TrantorCli.Url
