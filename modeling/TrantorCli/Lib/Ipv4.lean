import TrantorCli.Lib.Decimal
import TrantorCli.Lib.Percent

/-!
# How WHATWG reads a host as an IPv4 address

The URL standard takes a host for an IPv4 address when its last label is a
number, in decimal, octal or hexadecimal, and then reads one to four numbers
into 32 bits. On four decimal numbers without leading zeros the reading is the
usual one.
-/

namespace Ipv4

/-- The digits of a radix up to 16, in either case. -/
def digitIn (radix : ℕ) (byte : UInt8) : Option ℕ :=
  (Percent.digitValue byte).bind fun value => if value.toNat < radix then some value.toNat else none

/-- The number that digits of a radix denote; `none` if one of them is no digit. -/
def readDigits (radix : ℕ) (digits : List UInt8) : Option ℕ :=
  digits.foldlM (fun acc byte => (digitIn radix byte).map (acc * radix + ·)) 0

/-- The digits and the radix that a prefix announces. -/
def splitRadix (input : List UInt8) : List UInt8 × ℕ :=
  match input with
  | first :: second :: rest =>
    if first = 48 ∧ (second = 120 ∨ second = 88) then (rest, 16)
    else if first = 48 then (second :: rest, 8)
    else (input, 10)
  | _ => (input, 10)

/-- "IPv4 number parser" -/
def parseNumber (input : List UInt8) : Option ℕ :=
  if input = [] then none
  else
    let (digits, radix) := splitRadix input
    if digits = [] then some 0 else readDigits radix digits

/-- The labels of a host, without an empty one after a final dot. -/
def labels (input : List UInt8) : List (List UInt8) :=
  let parts := input.splitOn 46
  if parts.getLast? = some [] ∧ 1 < parts.length then parts.dropLast else parts

/-- "ends in a number checker" -/
def endsInNumber (input : List UInt8) : Bool :=
  match (labels input).getLast? with
  | some last =>
    (last ≠ [] && last.all fun byte => 48 ≤ byte && byte ≤ 57) || (parseNumber last).isSome
  | none => false

/-- "IPv4 parser" -/
def parse (input : List UInt8) : Option ℕ := do
  let parts := labels input
  if 4 < parts.length then none
  let numbers ← parts.mapM parseNumber
  if numbers.dropLast.any (255 < ·) then none
  let last ← numbers.getLast?
  if 256 ^ (5 - numbers.length) ≤ last then none
  return last + (numbers.dropLast.zipIdx.map fun (n, counter) => n * 256 ^ (3 - counter)).sum

/-! ### Decimal numbers -/

private theorem digitIn_ten {byte : UInt8} (h : Decimal.IsDigit byte) :
    digitIn 10 byte = some (byte.toNat - 48) := by
  obtain ⟨hlow, hhigh⟩ := h
  have hrange : 48 ≤ byte ∧ byte ≤ 57 :=
    ⟨UInt8.le_iff_toNat_le.mpr hlow, UInt8.le_iff_toNat_le.mpr hhigh⟩
  have hsub : (byte - 48).toNat = byte.toNat - 48 := UInt8.toNat_sub_of_le _ _ hrange.1
  rw [digitIn, Percent.digitValue, if_pos hrange, Option.bind_some, hsub, if_pos (by omega)]

private theorem readDigits_ten {digits : List UInt8} (h : ∀ byte ∈ digits, Decimal.IsDigit byte) :
    readDigits 10 digits = some (Decimal.value digits) := by
  induction digits using List.reverseRecOn with
  | nil => rfl
  | append_singleton digits last ih =>
    have ih' := ih fun byte hmem => h byte (by simp [hmem])
    rw [readDigits] at ih' ⊢
    rw [List.foldlM_append, ih', Decimal.value_concat]
    simp [digitIn_ten (h last (by simp))]

/-- A decimal number without leading zeros is read as such. -/
theorem parseNumber_decimal (n : ℕ) : parseNumber (Decimal.decimal n) = some n := by
  have hsplit : splitRadix (Decimal.decimal n) = (Decimal.decimal n, 10) := by
    unfold splitRadix
    split
    · next first second rest heq =>
      have hhead := Decimal.head_decimal_of_length (n := n) (by rw [heq]; simp)
      rw [heq, List.head?_cons, ne_eq, Option.some_inj] at hhead
      rw [if_neg (by simp [hhead]), if_neg hhead]
    · rfl
  rw [parseNumber, if_neg (Decimal.decimal_ne_nil n), hsplit]
  simp only
  rw [if_neg (Decimal.decimal_ne_nil n), readDigits_ten fun byte => Decimal.isDigit_of_mem_decimal,
    Decimal.value_decimal]

/-! ### Four decimal numbers -/

/-- Numbers in dotted-decimal form. -/
def dotted (numbers : List ℕ) : List UInt8 := [46].intercalate (numbers.map Decimal.decimal)

/-- A number has no dot. -/
theorem dot_not_mem_decimal (n : ℕ) : 46 ∉ Decimal.decimal n := by
  intro hmem
  have hdigit := (Decimal.isDigit_of_mem_decimal hmem).1
  exact absurd hdigit (by decide)

/-- Dotted numbers fall into their decimals. -/
theorem splitOn_dotted {numbers : List ℕ} (h : numbers ≠ []) :
    (dotted numbers).splitOn 46 = numbers.map Decimal.decimal := by
  refine List.splitOn_intercalate 46 ?_ (by simpa using h)
  intro part hpart
  obtain ⟨n, -, rfl⟩ := List.mem_map.mp hpart
  exact dot_not_mem_decimal n

/-- No label of a dotted-decimal host is empty. -/
theorem labels_dotted {numbers : List ℕ} (h : numbers ≠ []) :
    labels (dotted numbers) = numbers.map Decimal.decimal := by
  have hlast : (numbers.map Decimal.decimal).getLast? ≠ some [] := by
    intro hempty
    obtain ⟨n, -, hn⟩ := List.mem_map.mp (List.mem_of_getLast? hempty)
    exact Decimal.decimal_ne_nil n hn
  simp only [labels, splitOn_dotted h]
  rw [if_neg fun hand => hlast hand.1]

/-- Dotted numbers end in a number. -/
theorem endsInNumber_dotted {numbers : List ℕ} (h : numbers ≠ []) :
    endsInNumber (dotted numbers) = true := by
  rw [endsInNumber, labels_dotted h, List.getLast?_map, List.getLast?_eq_getLast_of_ne_nil h]
  simp [parseNumber_decimal]

private theorem mapM_parseNumber (numbers : List ℕ) :
    (numbers.map Decimal.decimal).mapM parseNumber = some numbers := by
  induction numbers with
  | nil => rfl
  | cons n numbers ih =>
    rw [List.map_cons, List.mapM_cons, parseNumber_decimal, ih]
    rfl

/-- Three numbers with a weight for each position. -/
theorem sum_weighted (weight : ℕ → ℕ) (a b c : ℕ) :
    ([a, b, c].zipIdx.map fun x => x.1 * weight x.2).sum =
      a * weight 0 + (b * weight 1 + (c * weight 2 + 0)) := rfl

/-- Four octets are read as the digits of a number to the base 256. -/
theorem parse_dotted {a b c d : ℕ} (ha : a ≤ 255) (hb : b ≤ 255) (hc : c ≤ 255) (hd : d ≤ 255) :
    parse (dotted [a, b, c, d]) = some (a * 2 ^ 24 + b * 2 ^ 16 + c * 2 ^ 8 + d) := by
  have hsum : d + ([a, b, c].zipIdx.map fun x => x.1 * 256 ^ (3 - x.2)).sum =
      a * 2 ^ 24 + b * 2 ^ 16 + c * 2 ^ 8 + d := by
    rw [sum_weighted fun counter => 256 ^ (3 - counter)]
    omega
  have hlabels : labels (dotted [a, b, c, d]) = [a, b, c, d].map Decimal.decimal :=
    labels_dotted (by simp)
  have hcount : ¬4 < ([a, b, c, d].map Decimal.decimal).length := Nat.lt_irrefl 4
  have hfront : [a, b, c, d].dropLast = [a, b, c] := rfl
  have hsmall : ¬[a, b, c].any (255 < ·) = true := by simp [ha, hb, hc]
  have hlast : [a, b, c, d].getLast? = some d := rfl
  have hfits : ¬256 ^ (5 - [a, b, c, d].length) ≤ d := by
    rw [show 5 - [a, b, c, d].length = 1 from rfl, Nat.pow_one]
    omega
  rw [parse, hlabels]
  simp only [mapM_parseNumber, if_neg hcount, Option.bind_eq_bind, Option.bind_some, hfront,
    if_neg hsmall, hlast, if_neg hfits]
  exact congrArg some hsum

/-! ### Other last labels -/

/-- A label that is a number to the standard: decimal digits, or `0x` and hexadecimal digits. -/
def IsNumber (label : List UInt8) : Prop :=
  (label ≠ [] ∧ ∀ byte ∈ label, Decimal.IsDigit byte) ∨
    ∃ x hex, label = 48 :: x :: hex ∧ (x = 120 ∨ x = 88) ∧
      ∀ byte ∈ hex, Percent.digitValue byte ≠ none

/-- The values of the letters start at 10. -/
theorem ten_le_letter {byte offset : UInt8} (h : offset.toNat + 10 ≤ byte.toNat) :
    10 ≤ (byte - offset).toNat := by
  have hle : offset ≤ byte := UInt8.le_iff_toNat_le.mpr (by omega)
  rw [UInt8.toNat_sub_of_le _ _ hle]
  omega

private theorem isDigit_of_digitIn {radix : ℕ} {byte : UInt8} (hradix : radix ≤ 10)
    (h : digitIn radix byte ≠ none) : Decimal.IsDigit byte := by
  cases hvalue : Percent.digitValue byte with
  | none => simp [digitIn, hvalue] at h
  | some value =>
    have hlt : ¬10 ≤ value.toNat := by
      intro hten
      have hradix' : ¬value.toNat < radix := by omega
      simp [digitIn, hvalue, hradix'] at h
    unfold Percent.digitValue at hvalue
    split at hvalue
    · next hdecimal =>
      exact ⟨UInt8.le_iff_toNat_le.mp hdecimal.1, UInt8.le_iff_toNat_le.mp hdecimal.2⟩
    split at hvalue
    · next hupper =>
      rw [← Option.some.inj hvalue] at hlt
      have hten : 10 ≤ (byte - 55).toNat := ten_le_letter (UInt8.le_iff_toNat_le.mp hupper.1)
      exact absurd hten hlt
    split at hvalue
    · next hlower =>
      rw [← Option.some.inj hvalue] at hlt
      have hten : 10 ≤ (byte - 87).toNat := ten_le_letter (UInt8.le_iff_toNat_le.mp hlower.1)
      exact absurd hten hlt
    · cases hvalue

private theorem digitValue_of_digitIn {radix : ℕ} {byte : UInt8} (h : digitIn radix byte ≠ none) :
    Percent.digitValue byte ≠ none := by
  intro hnone
  simp [digitIn, hnone] at h

/-- Every digit read is one of the radix. -/
theorem digitIn_of_readDigits {radix : ℕ} {digits : List UInt8}
    (h : readDigits radix digits ≠ none) :
    ∀ byte ∈ digits, digitIn radix byte ≠ none := by
  induction digits using List.reverseRecOn with
  | nil => simp
  | append_singleton digits last ih =>
    rw [readDigits, List.foldlM_append] at h
    cases hinit : digits.foldlM (fun acc byte => (digitIn radix byte).map (acc * radix + ·)) 0 with
    | none => simp [hinit] at h
    | some acc =>
      have hlast : digitIn radix last ≠ none := by
        intro hnone
        simp [hinit, hnone] at h
      intro byte hmem
      rcases List.mem_append.mp hmem with hmem | hmem
      · exact ih (by rw [readDigits, hinit]; simp) byte hmem
      · rwa [List.mem_singleton.mp hmem]

/-- The three ways a prefix is read. -/
theorem splitRadix_cases (input : List UInt8) :
    (∃ x hex, input = 48 :: x :: hex ∧ (x = 120 ∨ x = 88) ∧ splitRadix input = (hex, 16)) ∨
      (∃ rest, input = 48 :: rest ∧ splitRadix input = (rest, 8)) ∨
      splitRadix input = (input, 10) := by
  unfold splitRadix
  split
  · next first second rest =>
    by_cases hhex : first = 48 ∧ (second = 120 ∨ second = 88)
    · obtain ⟨rfl, hx⟩ := hhex
      exact .inl ⟨second, rest, rfl, hx, if_pos ⟨rfl, hx⟩⟩
    · rw [if_neg hhex]
      by_cases hzero : first = 48
      · subst hzero
        exact .inr (.inl ⟨second :: rest, rfl, if_pos rfl⟩)
      · exact .inr (.inr (if_neg hzero))
  · exact .inr (.inr rfl)

/-- Every digit behind the prefix is one of the radix. -/
theorem digitIn_of_parseNumber {input : List UInt8} (h : parseNumber input ≠ none) :
    ∀ byte ∈ (splitRadix input).1, digitIn (splitRadix input).2 byte ≠ none := by
  by_cases hdigits : (splitRadix input).1 = []
  · simp [hdigits]
  · apply digitIn_of_readDigits
    intro hnone
    apply h
    rw [parseNumber]
    simp only [if_neg hdigits, hnone, ite_self]

/-- What the number parser reads is a number. -/
theorem isNumber_of_parseNumber {label : List UInt8} (h : parseNumber label ≠ none) :
    IsNumber label := by
  have hne : label ≠ [] := by
    rintro rfl
    simp [parseNumber] at h
  have hread := digitIn_of_parseNumber h
  rcases splitRadix_cases label with ⟨x, hex, rfl, hx, hsplit⟩ | ⟨rest, rfl, hsplit⟩ | hsplit
  · rw [hsplit] at hread
    exact .inr ⟨x, hex, rfl, hx, fun byte hmem => digitValue_of_digitIn (hread byte hmem)⟩
  · rw [hsplit] at hread
    refine .inl ⟨hne, fun byte hmem => ?_⟩
    rcases List.mem_cons.mp hmem with rfl | hmem
    · exact ⟨by decide, by decide⟩
    · exact isDigit_of_digitIn (show 8 ≤ 10 by omega) (hread byte hmem)
  · rw [hsplit] at hread
    exact .inl ⟨hne, fun byte hmem => isDigit_of_digitIn (le_refl _) (hread byte hmem)⟩

/-- A host without an empty last label ends in a number only if its last label is one. -/
theorem isNumber_of_endsInNumber {input last : List UInt8}
    (hlast : (input.splitOn 46).getLast? = some last) (hne : last ≠ [])
    (h : endsInNumber input = true) : IsNumber last := by
  have hlabels : labels input = input.splitOn 46 := by
    rw [labels]
    simp only [hlast]
    rw [if_neg fun hand => hne (Option.some_inj.mp hand.1)]
  rw [endsInNumber, hlabels, hlast] at h
  simp only [Bool.or_eq_true, Bool.and_eq_true, List.all_eq_true, decide_eq_true_eq] at h
  rcases h with ⟨-, hdigits⟩ | hnumber
  · refine .inl ⟨hne, fun byte hmem => ?_⟩
    have hdigit := hdigits byte hmem
    simpa [Decimal.IsDigit, UInt8.le_iff_toNat_le] using hdigit
  · exact isNumber_of_parseNumber (Option.isSome_iff_ne_none.mp hnumber)

end Ipv4
