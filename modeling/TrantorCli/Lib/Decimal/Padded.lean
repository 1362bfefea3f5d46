import TrantorCli.Lib.Decimal

/-!
# Decimals of a fixed width

With zeros in front, the numbers below a power of ten are written with as many
digits, and what is written sorts as the numbers do, also when it goes on behind
them.
-/

namespace Decimal

/-- A number with so many digits. -/
def padded : Nat → Nat → List UInt8
  | 0, _ => []
  | width + 1, n => padded width (n / 10) ++ [digit (n % 10)]

/-- Padding makes the width. -/
@[simp] theorem length_padded (width n : Nat) : (padded width n).length = width := by
  induction width generalizing n with
  | zero => rfl
  | succ width ih => rw [padded, List.length_append, ih, List.length_singleton]

/-- A number that is written with fewer digits gets a zero in front. -/
theorem padded_of_lt {width n : Nat} (h : n < 10 ^ width) :
    padded (width + 1) n = 48 :: padded width n := by
  induction width generalizing n with
  | zero =>
    obtain rfl : n = 0 := by simpa using h
    rfl
  | succ width ih =>
    have hdiv : n / 10 < 10 ^ width := by
      rw [Nat.pow_succ] at h
      omega
    rw [padded, ih hdiv, padded]
    rfl

/-- One digit needs no padding. -/
theorem decimal_of_lt_ten {n : Nat} (h : n < 10) : decimal n = padded 1 n := by
  rw [decimal_of_lt h, padded, padded, Nat.mod_eq_of_lt h]
  rfl

/-- A number that needs all of the digits is written as it is. -/
theorem decimal_eq_padded {width n : Nat} (hlo : 10 ^ width ≤ n) (hhi : n < 10 ^ (width + 1)) :
    decimal n = padded (width + 1) n := by
  induction width generalizing n with
  | zero =>
    have hlt : n < 10 := by simpa using hhi
    rw [decimal_of_lt hlt, padded, padded, Nat.mod_eq_of_lt hlt]
    rfl
  | succ width ih =>
    rw [Nat.pow_succ] at hlo hhi
    have hpos : 0 < 10 ^ width := Nat.pow_pos (by decide)
    rw [decimal_of_ge (by omega), padded, ih (by omega) (by omega)]

/-- Digits sort as their numbers. -/
theorem digit_lt_digit {m n : Nat} (hm : m < 10) (hn : n < 10) : digit m < digit n ↔ m < n := by
  rw [UInt8.lt_iff_toNat_lt, toNat_digit hm, toNat_digit hn]
  omega

/-! ### The order of what is written -/

/-- A first difference in the front decides. -/
theorem append_lt_append_of_lt {a b c d : List UInt8} (hlength : a.length = b.length) (h : a < b) :
    a ++ c < b ++ d := by
  induction a generalizing b with
  | nil =>
    obtain rfl : b = [] := List.length_eq_zero_iff.mp hlength.symm
    exact absurd h (List.lt_irrefl [])
  | cons x a ih =>
    cases b with
    | nil => cases hlength
    | cons y b =>
      rw [List.cons_append, List.cons_append, List.cons_lt_cons_iff]
      obtain hlt | ⟨rfl, hlt⟩ := List.cons_lt_cons_iff.mp h
      · exact .inl hlt
      · exact .inr ⟨rfl, ih (Nat.succ.inj hlength) hlt⟩

/-- Numbers of one width sort as they are written. -/
theorem padded_lt_padded {width m n : Nat} (hn : n < 10 ^ width) (h : m < n) :
    padded width m < padded width n := by
  induction width generalizing m n with
  | zero =>
    rw [Nat.pow_zero] at hn
    omega
  | succ width ih =>
    rw [Nat.pow_succ] at hn
    rw [padded, padded]
    by_cases hdiv : m / 10 < n / 10
    · exact append_lt_append_of_lt (by simp) (ih (by omega) hdiv)
    · have heq : m / 10 = n / 10 := by omega
      rw [heq]
      refine List.append_left_lt ?_
      rw [List.cons_lt_cons_iff]
      exact .inl ((digit_lt_digit (by omega) (by omega)).mpr (by omega))

/-- Numbers of one width sort first, and what is behind them after that. -/
theorem padded_append_lt {width m n : Nat} {c : UInt8} {a b : List UInt8} (hn : n < 10 ^ width)
    (h : m < n ∨ m = n ∧ a < b) : padded width m ++ c :: a < padded width n ++ c :: b := by
  obtain hlt | ⟨rfl, hlt⟩ := h
  · exact append_lt_append_of_lt (by simp) (padded_lt_padded hn hlt)
  · refine List.append_left_lt ?_
    rw [List.cons_lt_cons_iff]
    exact .inr ⟨rfl, hlt⟩

end Decimal
