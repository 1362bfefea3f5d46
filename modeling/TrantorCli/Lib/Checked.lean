import Mathlib.Algebra.Group.Nat.Defs

/-!
# Results and computations that may abort

Roc's `Try` is `Except`. Its arithmetic ends the program when a result does not
fit its type, and `crash` ends it with a message; a computation that may do
either returns its value in `Checked`, and that it never does is then the
equation `… = .ok value`.
-/

namespace Roc

namespace Try

variable {ε α β : Type}

/-- What follows a result is given it. -/
@[simp] theorem ok_bind (a : α) (f : α → Except ε β) : ((.ok a : Except ε α) >>= f) = f a := rfl

/-- Nothing follows an error. -/
@[simp] theorem error_bind (e : ε) (f : α → Except ε β) :
    ((.error e : Except ε α) >>= f) = .error e := rfl

/-- A result is what succeeds. -/
@[simp] theorem pure_eq (a : α) : (pure a : Except ε α) = .ok a := rfl

/-- A sequence that succeeded had no step that failed. -/
theorem bind_eq_ok {x : Except ε α} {f : α → Except ε β} {b : β} :
    x >>= f = .ok b ↔ ∃ a, x = .ok a ∧ f a = .ok b := by
  cases x with
  | error e => simp
  | ok a => simp

end Try

/-- Why a program was aborted. -/
inductive Abort where
  /-- A `crash` expression was reached. -/
  | crash (message : String)
  /-- An arithmetic result left the range of its type. -/
  | overflow
  deriving DecidableEq, Repr

/-- A result, or the abort that took its place. -/
abbrev Checked (α : Type) := Except Abort α

/-- Subtraction of `U32` values. -/
def Checked.subU32 (a b : UInt32) : Checked UInt32 :=
  if b ≤ a then .ok (a - b) else .error .overflow

/-- Subtraction of lengths, which are `U64` values. -/
def Checked.subLength (a b : Nat) : Checked Nat :=
  if b ≤ a then .ok (a - b) else .error .overflow

/-- `U128` -/
abbrev U128 := BitVec 128

/-- Addition of `U128` values. -/
def Checked.addU128 (a b : U128) : Checked U128 :=
  if a.uaddOverflow b then .error .overflow else .ok (a + b)

/-- Subtraction of `U128` values. -/
def Checked.subU128 (a b : U128) : Checked U128 :=
  if a.usubOverflow b then .error .overflow else .ok (a - b)

namespace Checked

/-- What addition returns is the sum. -/
theorem addU128_eq_ok {a b c : U128} : addU128 a b = .ok c ↔ a.toNat + b.toNat = c.toNat := by
  have hc := c.isLt
  unfold addU128 BitVec.uaddOverflow
  by_cases h : a.toNat + b.toNat < 2 ^ 128
  · rw [if_neg (by simpa using h), Except.ok.injEq, ← BitVec.toNat_inj, BitVec.toNat_add,
      Nat.mod_eq_of_lt h]
  · rw [if_pos (by simpa using h)]
    simp only [reduceCtorEq, false_iff]
    omega

/-- What subtraction returns is the difference. -/
theorem subU128_eq_ok {a b c : U128} : subU128 a b = .ok c ↔ a.toNat = b.toNat + c.toNat := by
  unfold subU128 BitVec.usubOverflow
  by_cases h : b.toNat ≤ a.toNat
  · rw [if_neg (by simpa using h), Except.ok.injEq, ← BitVec.toNat_inj,
      BitVec.toNat_sub_of_le (BitVec.le_def.mpr h)]
    omega
  · rw [if_pos (by simpa using h)]
    simp only [reduceCtorEq, false_iff]
    omega

/-- A sum in range is returned. -/
theorem addU128_of_lt {a b : U128} (h : a.toNat + b.toNat < 2 ^ 128) :
    ∃ c, addU128 a b = .ok c ∧ c.toNat = a.toNat + b.toNat := by
  have hsum : (BitVec.ofNat 128 (a.toNat + b.toNat)).toNat = a.toNat + b.toNat := by
    rw [BitVec.toNat_ofNat, Nat.mod_eq_of_lt h]
  exact ⟨_, addU128_eq_ok.mpr hsum.symm, hsum⟩

/-- A difference in range is returned. -/
theorem subU128_of_le {a b : U128} (h : b.toNat ≤ a.toNat) :
    ∃ c, subU128 a b = .ok c ∧ c.toNat = a.toNat - b.toNat := by
  have hdiff : (BitVec.ofNat 128 (a.toNat - b.toNat)).toNat = a.toNat - b.toNat := by
    have ha := a.isLt
    rw [BitVec.toNat_ofNat, Nat.mod_eq_of_lt (by omega)]
  exact ⟨_, subU128_eq_ok.mpr (by omega), hdiff⟩

end Checked

end Roc
