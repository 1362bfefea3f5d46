import Mathlib.Data.List.Basic
import Mathlib.Data.UInt
import TrantorCli.Lib.Utf8

/-!
# Numbers in decimal

`decimal` writes a number and `value` reads digits. Reading inverts writing, and
writing inverts reading on the digits that have no superfluous leading zero.
-/

namespace Decimal

/-- A byte from `0` to `9`. -/
def IsDigit (byte : UInt8) : Prop := 48 ≤ byte.toNat ∧ byte.toNat ≤ 57

/-- The number that digits denote. -/
def value (bytes : List UInt8) : Nat := bytes.foldl (fun acc byte => acc * 10 + (byte.toNat - 48)) 0

/-- The digit byte of a number below ten. -/
def digit (n : Nat) : UInt8 := UInt8.ofNat (48 + n)

/-- A number without leading zeros. -/
def decimal (n : Nat) : List UInt8 :=
  if n < 10 then [digit n] else decimal (n / 10) ++ [digit (n % 10)]

/-- The value of a digit's byte. -/
theorem toNat_digit {n : Nat} (h : n < 10) : (digit n).toNat = 48 + n := by
  rw [digit, UInt8.toNat_ofNat']
  omega

/-- A digit is one. -/
theorem isDigit_digit {n : Nat} (h : n < 10) : IsDigit (digit n) := by
  rw [IsDigit, toNat_digit h]
  omega

/-- No digits stand for zero. -/
@[simp] theorem value_nil : value [] = 0 := rfl

/-- A further digit is worth the rest tenfold. -/
@[simp] theorem value_concat (bytes : List UInt8) (byte : UInt8) :
    value (bytes ++ [byte]) = value bytes * 10 + (byte.toNat - 48) := by
  simp [value]

/-- Leading zeros do not count. -/
theorem value_zeros (zeros : ℕ) (bytes : List UInt8) :
    value (List.replicate zeros 48 ++ bytes) = value bytes := by
  induction zeros with
  | zero => rfl
  | succ zeros ih =>
    rw [List.replicate_succ, List.cons_append, ← ih, value, value, List.foldl_cons]
    rfl

/-- One digit stands for a number below ten. -/
theorem decimal_of_lt {n : Nat} (h : n < 10) : decimal n = [digit n] := by
  rw [decimal, if_pos h]

/-- A larger number has its last digit behind the others. -/
theorem decimal_of_ge {n : Nat} (h : 10 ≤ n) :
    decimal n = decimal (n / 10) ++ [digit (n % 10)] := by
  rw [decimal, if_neg (by omega)]

/-- Every number has a digit. -/
theorem decimal_ne_nil (n : Nat) : decimal n ≠ [] := by
  rw [decimal]
  split <;> simp

/-- A number has only digits. -/
theorem isDigit_of_mem_decimal {n : Nat} {byte : UInt8} (h : byte ∈ decimal n) : IsDigit byte := by
  induction n using Nat.strongRecOn with
  | ind n ih =>
    by_cases hlt : n < 10
    · rw [decimal_of_lt hlt, List.mem_singleton] at h
      exact h ▸ isDigit_digit hlt
    · rw [decimal_of_ge (by omega), List.mem_append, List.mem_singleton] at h
      rcases h with hinit | rfl
      · exact ih (n / 10) (by omega) hinit
      · exact isDigit_digit (by omega)

/-- What is written is ASCII. -/
theorem ascii_decimal (n : Nat) : Utf8.Ascii (decimal n) := by
  intro byte hbyte
  have hdigit := isDigit_of_mem_decimal hbyte
  rw [UInt8.lt_iff_toNat_lt]
  exact Nat.lt_of_le_of_lt hdigit.2 (by decide)

/-- A number from ten on starts with the digit that its tenth starts with. -/
theorem head_decimal {n : ℕ} (h : 10 ≤ n) : (decimal n).head? = (decimal (n / 10)).head? := by
  rw [decimal_of_ge h, List.head?_append_of_ne_nil _ (decimal_ne_nil _)]

/-- Only zero starts with a zero. -/
theorem head_decimal_ne_zero {n : ℕ} (h : 0 < n) : (decimal n).head? ≠ some 48 := by
  induction n using Nat.strongRecOn with
  | ind n ih =>
    by_cases hlt : n < 10
    · have hdigit := toNat_digit hlt
      rw [decimal_of_lt hlt, List.head?_cons]
      intro heq
      rw [Option.some_inj.mp heq] at hdigit
      simp only [UInt8.reduceToNat] at hdigit
      omega
    · rw [head_decimal (by omega)]
      exact ih (n / 10) (by omega) (by omega)

/-- A written number has no superfluous leading zero. -/
theorem head_decimal_of_length {n : ℕ} (h : 1 < (decimal n).length) :
    (decimal n).head? ≠ some 48 := by
  apply head_decimal_ne_zero
  by_contra hzero
  rw [decimal_of_lt (by omega), List.length_singleton] at h
  omega

/-- Reading inverts writing. -/
theorem value_decimal (n : Nat) : value (decimal n) = n := by
  induction n using Nat.strongRecOn with
  | ind n ih =>
    by_cases hlt : n < 10
    · rw [decimal_of_lt hlt, ← List.nil_append [digit n], value_concat, toNat_digit hlt]
      simp
    · rw [decimal_of_ge (by omega), value_concat, ih (n / 10) (by omega), toNat_digit (by omega)]
      omega

/-- Digits with a non-zero first digit denote a positive number. -/
theorem value_pos {bytes : List UInt8} (hdigits : ∀ byte ∈ bytes, IsDigit byte) (hne : bytes ≠ [])
    (hhead : bytes.head? ≠ some 48) : 0 < value bytes := by
  induction bytes using List.reverseRecOn with
  | nil => exact absurd rfl hne
  | append_singleton init last ih =>
    rw [value_concat]
    by_cases hinit : init = []
    · subst hinit
      have hlast := hdigits last (by simp)
      have hnot : last.toNat ≠ 48 := fun h => hhead (by simp [← UInt8.toNat_inj, h])
      have := hlast.1
      omega
    · have hpos := ih (fun byte hmem => hdigits byte (by simp [hmem])) hinit
        (by rwa [List.head?_append_of_ne_nil _ hinit] at hhead)
      omega

/-- Writing inverts reading where there is no superfluous leading zero. -/
theorem decimal_value {bytes : List UInt8} (hdigits : ∀ byte ∈ bytes, IsDigit byte)
    (hne : bytes ≠ []) (hlead : 1 < bytes.length → bytes.head? ≠ some 48) :
    decimal (value bytes) = bytes := by
  induction bytes using List.reverseRecOn with
  | nil => exact absurd rfl hne
  | append_singleton init last ih =>
    obtain ⟨hlo, hhi⟩ := hdigits last (by simp)
    rw [value_concat]
    by_cases hinit : init = []
    · subst hinit
      rw [value_nil, Nat.zero_mul, Nat.zero_add, decimal_of_lt (by omega), digit,
        Nat.add_sub_cancel' hlo, UInt8.ofNat_toNat]
      rfl
    · have hlen := List.length_pos_iff.mpr hinit
      have hhead : init.head? ≠ some 48 := by
        have := hlead (by rw [List.length_append, List.length_singleton]; omega)
        rwa [List.head?_append_of_ne_nil _ hinit] at this
      have hdig : ∀ byte ∈ init, IsDigit byte := fun byte hmem => hdigits byte (by simp [hmem])
      have hpos := value_pos hdig hinit hhead
      have hdiv : (value init * 10 + (last.toNat - 48)) / 10 = value init := by omega
      have hmod : (value init * 10 + (last.toNat - 48)) % 10 = last.toNat - 48 := by omega
      rw [decimal_of_ge (by omega), hdiv, hmod, ih hdig hinit fun _ => hhead, digit,
        Nat.add_sub_cancel' hlo, UInt8.ofNat_toNat]

end Decimal
