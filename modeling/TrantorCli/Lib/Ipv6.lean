import Mathlib.Data.Nat.Digits.Lemmas
import TrantorCli.Lib.Percent
import TrantorCli.Lib.SplitOn

/-!
# IPv6 addresses as text

An address is eight groups of 16 bits. Its text has one to four hexadecimal
digits for each group, with colons between them; one run of zero groups may be
left out at a double colon. Groups, addresses and the text without elision
determine each other.
-/

namespace Ipv6

/-- The number that a hexadecimal digit denotes, in either case. -/
def digit (byte : UInt8) : ℕ := ((Percent.digitValue byte).getD 0).toNat

/-- The text of one group. -/
@[mk_iff] structure IsGroup (group : List UInt8) : Prop where
  /-- There is a digit. -/
  ne_nil : group ≠ []
  /-- There are at most four digits. -/
  length_le : group.length ≤ 4
  /-- Every byte is a hexadecimal digit. -/
  digits : ∀ byte ∈ group, Percent.digitValue byte ≠ none

/-- The number that a group denotes. -/
def value (group : List UInt8) : ℕ := Nat.ofDigits 16 (group.reverse.map digit)

/-- Groups with colons between them. -/
def joined (groups : List (List UInt8)) : List UInt8 := [58].intercalate groups

/-- The address that a text denotes, by its eight numbers. -/
inductive Denotes : List UInt8 → List ℕ → Prop
  /-- All groups are written. -/
  | full {groups : List (List UInt8)} (hlen : groups.length = 8)
      (hgroups : ∀ group ∈ groups, IsGroup group) : Denotes (joined groups) (groups.map value)
  /-- The groups between two lists are left out. -/
  | elided {left right : List (List UInt8)} (hlen : left.length + right.length ≤ 7)
      (hleft : ∀ group ∈ left, IsGroup group) (hright : ∀ group ∈ right, IsGroup group) :
      Denotes (joined left ++ [58, 58] ++ joined right)
        (left.map value ++ List.replicate (8 - (left.length + right.length)) 0 ++ right.map value)

/-- A lower-case hexadecimal digit. -/
def lowerDigit (n : ℕ) : UInt8 := UInt8.ofNat (if n < 10 then 48 + n else 87 + n)

/-- A number in hexadecimal, without leading zeros. -/
def hex (n : ℕ) : List UInt8 := if n = 0 then [48] else ((Nat.digits 16 n).map lowerDigit).reverse

/-- An address without elision. -/
def write (values : List ℕ) : List UInt8 := joined (values.map hex)

/-- An address as one number. -/
def address (values : List ℕ) : ℕ := Nat.ofDigits 65536 values.reverse

/-! ### One group -/

/-- No digits stand for zero. -/
@[simp] theorem value_nil : value [] = 0 := rfl

/-- A further digit is worth the rest sixteenfold. -/
@[simp] theorem value_concat (group : List UInt8) (byte : UInt8) :
    value (group ++ [byte]) = value group * 16 + digit byte := by
  rw [value, List.reverse_append, List.reverse_singleton, List.singleton_append, List.map_cons,
    Nat.ofDigits_cons, value]
  omega

/-- A digit is below sixteen. -/
theorem digit_lt (byte : UInt8) : digit byte < 16 := by
  apply Words.forall_uint8 _ byte
  decide +kernel

/-- A group is below its power of sixteen. -/
theorem value_lt_pow (group : List UInt8) : value group < 16 ^ group.length := by
  induction group using List.reverseRecOn with
  | nil => simp
  | append_singleton group byte ih =>
    have hdigit := digit_lt byte
    rw [value_concat, List.length_append, List.length_singleton, Nat.pow_succ]
    omega

/-- A group has 16 bits. -/
theorem IsGroup.value_lt {group : List UInt8} (h : IsGroup group) : value group < 65536 :=
  calc value group < 16 ^ group.length := value_lt_pow group
    _ ≤ 16 ^ 4 := Nat.pow_le_pow_right (by omega) h.length_le

private theorem digit_lowerDigit {n : ℕ} (h : n < 16) : digit (lowerDigit n) = n := by
  revert n
  decide +kernel

private theorem digitValue_lowerDigit {n : ℕ} (h : n < 16) :
    Percent.digitValue (lowerDigit n) ≠ none := by
  revert n
  decide +kernel

/-- Reading inverts writing. -/
theorem value_hex (n : ℕ) : value (hex n) = n := by
  rw [hex]
  split
  · next hzero =>
    rw [hzero]
    decide
  · have hdigits : ((Nat.digits 16 n).map lowerDigit).map digit = Nat.digits 16 n := by
      rw [List.map_map]
      refine (List.map_congr_left fun d hd => ?_).trans (List.map_id _)
      exact digit_lowerDigit (Nat.digits_lt_base (by omega) hd)
    rw [value, List.reverse_reverse, hdigits, Nat.ofDigits_digits]

/-- A group has no colon. -/
theorem IsGroup.colon_not_mem {group : List UInt8} (h : IsGroup group) : 58 ∉ group :=
  fun hmem => h.digits 58 hmem (by decide)

private theorem digits_hex (n : ℕ) : ∀ byte ∈ hex n, Percent.digitValue byte ≠ none := by
  intro byte hmem
  rw [hex] at hmem
  split at hmem
  · rw [List.mem_singleton.mp hmem]
    decide
  · obtain ⟨d, hd, rfl⟩ := List.mem_map.mp (List.mem_reverse.mp hmem)
    exact digitValue_lowerDigit (Nat.digits_lt_base (by omega) hd)

private theorem colon_not_mem_hex (n : ℕ) :
    58 ∉ hex n := fun hmem => digits_hex n 58 hmem (by decide)

/-- A number of 16 bits is written as a group. -/
theorem isGroup_hex {n : ℕ} (h : n < 65536) : IsGroup (hex n) := by
  refine ⟨?_, ?_, digits_hex n⟩
  · rw [hex]
    split
    · simp
    · next hne => simpa [Nat.digits_eq_nil_iff_eq_zero] using hne
  · rw [hex]
    split
    · simp
    · rw [List.length_reverse, List.length_map]
      exact (Nat.digits_length_le_iff (by omega) n).mpr h

/-- Groups leave a text only if there are none. -/
theorem joined_eq_nil {groups : List (List UInt8)} (hgroups : ∀ group ∈ groups, IsGroup group)
    (h : joined groups = []) : groups = [] := by
  rw [joined] at h
  cases groups with
  | nil => rfl
  | cons group groups =>
    have hgroup := hgroups group (by simp)
    obtain ⟨byte, hbyte⟩ := List.exists_mem_of_ne_nil group hgroup.ne_nil
    have hmem : byte ∈ [58].intercalate (group :: groups) :=
      SplitOn.mem_intercalate_of_mem (by simp) hbyte
    simp [h] at hmem

/-! ### Addresses -/

/-- An address has eight groups. -/
theorem Denotes.length {text : List UInt8} {values : List ℕ} (h : Denotes text values) :
    values.length = 8 := by
  cases h with
  | full hlen hgroups => rw [List.length_map, hlen]
  | elided hlen hleft hright =>
    simp only [List.length_append, List.length_map, List.length_replicate]
    omega

/-- What is denoted has a group. -/
theorem Denotes.ne_nil {text : List UInt8} {values : List ℕ} (h : Denotes text values) :
    values ≠ [] := by
  rintro rfl
  exact absurd h.length (by simp)

/-- Every group of an address has 16 bits. -/
theorem Denotes.lt {text : List UInt8} {values : List ℕ} (h : Denotes text values) :
    ∀ n ∈ values, n < 65536 := by
  have hvalues : ∀ groups : List (List UInt8), (∀ group ∈ groups, IsGroup group) →
      ∀ n ∈ groups.map value, n < 65536 := by
    intro groups hgroups n hn
    obtain ⟨group, hgroup, rfl⟩ := List.mem_map.mp hn
    exact (hgroups group hgroup).value_lt
  cases h with
  | full hlen hgroups => exact hvalues _ hgroups
  | elided hlen hleft hright =>
    intro n hn
    rcases List.mem_append.mp hn with hn | hn
    · rcases List.mem_append.mp hn with hn | hn
      · exact hvalues _ hleft n hn
      · rw [List.eq_of_mem_replicate hn]
        omega
    · exact hvalues _ hright n hn

/-- The text of an address is made of digits and colons. -/
theorem Denotes.bytes {text : List UInt8} {values : List ℕ} (h : Denotes text values) :
    ∀ byte ∈ text, byte = 58 ∨ Percent.digitValue byte ≠ none := by
  have hjoined : ∀ groups : List (List UInt8), (∀ group ∈ groups, IsGroup group) →
      ∀ byte ∈ joined groups, byte = 58 ∨ Percent.digitValue byte ≠ none := by
    intro groups hgroups byte hmem
    rcases SplitOn.mem_intercalate hmem with hcolon | ⟨group, hgroup, hbyte⟩
    · exact .inl (List.mem_singleton.mp hcolon)
    · exact .inr ((hgroups group hgroup).digits byte hbyte)
  cases h with
  | full hlen hgroups => exact hjoined _ hgroups
  | elided hlen hleft hright =>
    intro byte hmem
    rcases List.mem_append.mp hmem with hmem | hmem
    · rcases List.mem_append.mp hmem with hmem | hcolons
      · exact hjoined _ hleft byte hmem
      · exact .inl (by simpa using hcolons)
    · exact hjoined _ hright byte hmem

/-- An address has 128 bits. -/
theorem Denotes.address_lt {text : List UInt8} {values : List ℕ} (h : Denotes text values) :
    address values < 2 ^ 128 := by
  have hlt := Nat.ofDigits_lt_base_pow_length (b := 65536) (by omega)
    fun n hn => h.lt n (List.mem_reverse.mp hn)
  rw [List.length_reverse, h.length] at hlt
  exact hlt

/-- The groups of an address are determined by its number. -/
theorem Denotes.eq_iff {text other : List UInt8} {values others : List ℕ} (h : Denotes text values)
    (hother : Denotes other others) : values = others ↔ address values = address others := by
  constructor
  · rintro rfl
    rfl
  · intro heq
    refine List.reverse_injective (Nat.ofDigits_inj_of_len_eq (b := 65536) (by omega) ?_ ?_ ?_ heq)
    · rw [List.length_reverse, List.length_reverse, h.length, hother.length]
    · exact fun n hn => h.lt n (List.mem_reverse.mp hn)
    · exact fun n hn => hother.lt n (List.mem_reverse.mp hn)

/-- A written address denotes its numbers. -/
theorem denotes_write {values : List ℕ} (hlen : values.length = 8) (h : ∀ n ∈ values, n < 65536) :
    Denotes (write values) values := by
  have hvalues : (values.map hex).map value = values := by
    rw [List.map_map]
    exact (List.map_congr_left fun n _ => value_hex n).trans (List.map_id _)
  have hfull : Denotes (write values) ((values.map hex).map value) := by
    refine .full (by rw [List.length_map, hlen]) fun group hmem => ?_
    obtain ⟨n, hn, rfl⟩ := List.mem_map.mp hmem
    exact isGroup_hex (h n hn)
  rwa [hvalues] at hfull

/-- The text without elision determines the groups. -/
theorem write_injective {values others : List ℕ} (hvalues : values ≠ []) (hothers : others ≠ [])
    (h : write values = write others) : values = others := by
  have hsplit : ∀ ns : List ℕ, ns ≠ [] → (write ns).splitOn 58 = ns.map hex := by
    intro ns hne
    refine List.splitOn_intercalate 58 ?_ (by simpa using hne)
    intro group hgroup
    obtain ⟨n, -, rfl⟩ := List.mem_map.mp hgroup
    exact colon_not_mem_hex n
  have hhex : values.map hex = others.map hex := by
    rw [← hsplit values hvalues, ← hsplit others hothers, h]
  have hinjective : Function.Injective hex := fun n m heq => by
    rw [← value_hex n, heq, value_hex]
  exact List.map_injective_iff.mpr hinjective hhex

/-! ### Changes of the text -/

section Change

variable {f : UInt8 → UInt8}

/-- A change of bytes under which every digit denotes what it did. -/
def KeepsDigits (f : UInt8 → UInt8) : Prop :=
  ∀ byte, Percent.digitValue (f byte) = Percent.digitValue byte ∧ (f byte = 58 ↔ byte = 58)

private theorem KeepsDigits.isGroup (hf : KeepsDigits f) {group : List UInt8} :
    IsGroup (group.map f) ↔ IsGroup group := by
  rw [isGroup_iff, isGroup_iff, ne_eq, ne_eq, List.map_eq_nil_iff, List.length_map,
    List.forall_mem_map]
  simp only [(hf _).1]

private theorem KeepsDigits.value (hf : KeepsDigits f) (group : List UInt8) :
    value (group.map f) = value group := by
  rw [Ipv6.value, Ipv6.value, ← List.map_reverse, List.map_map]
  refine congrArg _ (List.map_congr_left fun byte _ => ?_)
  rw [Function.comp_apply, digit, digit, (hf byte).1]

private theorem KeepsDigits.map_value (hf : KeepsDigits f) (groups : List (List UInt8)) :
    (groups.map (List.map f)).map Ipv6.value = groups.map Ipv6.value := by
  rw [List.map_map]
  exact List.map_congr_left fun group _ => hf.value group

/-- Groups of the changed text are changed groups. -/
theorem KeepsDigits.exists_joined (hf : KeepsDigits f) {text : List UInt8}
    {groups : List (List UInt8)} (hgroups : ∀ group ∈ groups, IsGroup group)
    (h : text.map f = joined groups) :
    ∃ originals, text = joined originals ∧ groups = originals.map (List.map f) ∧
      ∀ group ∈ originals, IsGroup group := by
  by_cases hne : groups = []
  · subst hne
    exact ⟨[], List.map_eq_nil_iff.mp h, rfl, by simp⟩
  · have hsplit : groups = (text.splitOn 58).map (List.map f) := by
      rw [← SplitOn.splitOn_map fun byte _ => (hf byte).2, h, joined]
      exact (List.splitOn_intercalate 58 (fun group hmem => (hgroups group hmem).colon_not_mem)
        hne).symm
    refine ⟨text.splitOn 58, (List.intercalate_splitOn 58).symm, hsplit, fun group hmem => ?_⟩
    apply hf.isGroup.mp
    rw [hsplit] at hgroups
    exact hgroups _ (List.mem_map_of_mem hmem)

private theorem KeepsDigits.joined (hf : KeepsDigits f) (groups : List (List UInt8)) :
    (joined groups).map f = joined (groups.map (List.map f)) := by
  have hcolon : [58].map f = [58] := by rw [List.map_singleton, (hf 58).2.mpr rfl]
  rw [Ipv6.joined, SplitOn.map_intercalate, hcolon]
  rfl

/-- A text and the changed text denote one address. -/
theorem KeepsDigits.denotes_iff (hf : KeepsDigits f) {text : List UInt8} {values : List ℕ} :
    Denotes (text.map f) values ↔ Denotes text values := by
  have hkeep : ∀ groups : List (List UInt8), (∀ group ∈ groups, IsGroup group) →
      ∀ group ∈ groups.map (List.map f), IsGroup group := by
    intro groups hgroups
    rw [List.forall_mem_map]
    exact fun group hmem => hf.isGroup.mpr (hgroups group hmem)
  constructor
  · intro h
    generalize hmap : text.map f = changed at h
    cases h with
    | full hlen hgroups =>
      obtain ⟨originals, rfl, rfl, horiginals⟩ := hf.exists_joined hgroups hmap
      rw [hf.map_value]
      exact .full (by simpa using hlen) horiginals
    | elided hlen hleft hright =>
      obtain ⟨front, right, rfl, hfront, hafter⟩ := List.map_eq_append_iff.mp hmap
      obtain ⟨left, colons, rfl, hbefore, hcolons⟩ := List.map_eq_append_iff.mp hfront
      obtain ⟨lefts, rfl, rfl, hlefts⟩ := hf.exists_joined hleft hbefore
      obtain ⟨rights, rfl, rfl, hrights⟩ := hf.exists_joined hright hafter
      have htwo : colons.length = 2 := by
        rw [← List.length_map f, hcolons]
        rfl
      obtain ⟨a, b, rfl⟩ := List.length_eq_two.mp htwo
      simp only [List.map_cons, List.map_nil, List.cons.injEq, and_true, (hf _).2] at hcolons
      obtain ⟨rfl, rfl⟩ := hcolons
      rw [hf.map_value, hf.map_value, List.length_map, List.length_map]
      exact .elided (by simpa using hlen) hlefts hrights
  · intro h
    cases h with
    | full hlen hgroups =>
      rw [hf.joined, ← hf.map_value]
      exact .full (by simpa using hlen) (hkeep _ hgroups)
    | @elided left right hlen hleft hright =>
      have hcolons : [58, 58].map f = [58, 58] := by simp [(hf 58).2]
      have hlen' : (left.map (List.map f)).length + (right.map (List.map f)).length ≤ 7 := by
        simpa using hlen
      have helided := Denotes.elided hlen' (hkeep _ hleft) (hkeep _ hright)
      rw [hf.map_value, hf.map_value, List.length_map, List.length_map] at helided
      rwa [List.map_append, List.map_append, hf.joined, hf.joined, hcolons]

end Change

end Ipv6
