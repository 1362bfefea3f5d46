import TrantorCli.Lib.Checked

/-!
# Arithmetic that stays in range

Each operation of Roc's unsigned integers returns its result or aborts. A program
does not abort when every operation in it is applied within its range; the rules
at the end carry that through sequences, folds and maps.
-/

namespace Roc

namespace Checked

variable {α β ε : Type}

/-- A result that is in the range of its type under a condition. -/
def guarded (inRange : Prop) [Decidable inRange] (result : α) : Checked α :=
  if inRange then .ok result else .error .overflow

/-- What division by zero ends the program with. -/
def divisionByZero : Abort := .crash "Integer division by 0!"

/-- `+` on `U8` -/
def addU8 (a b : UInt8) : Checked UInt8 := guarded (a.toNat + b.toNat < 256) (a + b)

/-- `-` on `U8` -/
def subU8 (a b : UInt8) : Checked UInt8 := guarded (b.toNat ≤ a.toNat) (a - b)

/-- `*` on `U8` -/
def mulU8 (a b : UInt8) : Checked UInt8 := guarded (a.toNat * b.toNat < 256) (a * b)

/-- `//` on `U8` -/
def divU8 (a b : UInt8) : Checked UInt8 := if b = 0 then .error divisionByZero else .ok (a / b)

/-- `%` on `U8` -/
def remU8 (a b : UInt8) : Checked UInt8 := if b = 0 then .error divisionByZero else .ok (a % b)

/-- `+` on `U16` -/
def addU16 (a b : UInt16) : Checked UInt16 := guarded (a.toNat + b.toNat < 65536) (a + b)

/-- `*` on `U16` -/
def mulU16 (a b : UInt16) : Checked UInt16 := guarded (a.toNat * b.toNat < 65536) (a * b)

/-- `//` on `U16`, with the quotient it returns -/
def divU16 (a b : UInt16) : Checked {c : UInt16 // c = a / b} :=
  if b = 0 then .error divisionByZero else .ok ⟨a / b, rfl⟩

/-- `%` on `U16` -/
def remU16 (a b : UInt16) : Checked UInt16 := if b = 0 then .error divisionByZero else .ok (a % b)

/-- The values of `U64` are the numbers below this one; lengths and indices are among them. -/
def limitU64 : ℕ := 18446744073709551616

/-- `+` on `U64`, with the sum it returns -/
def addU64 (a b : ℕ) : Checked {c : ℕ // c = a + b} := guarded (a + b < limitU64) ⟨a + b, rfl⟩

/-- `*` on `U64` -/
def mulU64 (a b : ℕ) : Checked ℕ := guarded (a * b < limitU64) (a * b)

/-- `-` on `U64` -/
def subU64 (a b : ℕ) : Checked ℕ := guarded (b ≤ a) (a - b)

/-! ### Operations in range -/

/-- In range the result is the one without the guard. -/
theorem guarded_of {inRange : Prop} [Decidable inRange] {result : α} (h : inRange) :
    guarded inRange result = .ok result := if_pos h

/-- Division is defined by what is not zero. -/
theorem divU8_of {a b : UInt8} (h : b ≠ 0) : divU8 a b = .ok (a / b) := if_neg h

/-- So is the remainder. -/
theorem remU8_of {a b : UInt8} (h : b ≠ 0) : remU8 a b = .ok (a % b) := if_neg h

/-- Division of `U16` is defined by what is not zero. -/
theorem divU16_of {a b : UInt16} (h : b ≠ 0) : divU16 a b = .ok ⟨a / b, rfl⟩ := if_neg h

/-- So is its remainder. -/
theorem remU16_of {a b : UInt16} (h : b ≠ 0) : remU16 a b = .ok (a % b) := if_neg h

/-! ### Loops -/

/-- Where no element aborts, mapping does not. -/
theorem mapM_ok {f : α → Checked β} {g : α → β} {l : List α} (h : ∀ a ∈ l, f a = .ok (g a)) :
    l.mapM f = .ok (l.map g) := by
  induction l with
  | nil => rfl
  | cons a l ih =>
    rw [List.mapM_cons, h a (by simp), Try.ok_bind, ih fun b hmem => h b (by simp [hmem])]
    rfl

/-- Where no element aborts, asking of all does not. -/
theorem allM_ok {f : α → Checked Bool} {g : α → Bool} {l : List α} (h : ∀ a ∈ l, f a = .ok (g a)) :
    l.allM f = .ok (l.all g) := by
  induction l with
  | nil => rfl
  | cons a l ih =>
    rw [List.allM, h a (by simp), Try.ok_bind, List.all_cons]
    cases g a with
    | false => rfl
    | true => exact ih fun b hmem => h b (by simp [hmem])

/-- A fold stays in range if each step does after the elements before it. -/
theorem foldlM_ok {f : β → α → Checked β} {g : β → α → β} {l : List α} {b : β}
    (h : ∀ front a back, l = front ++ a :: back →
      f (front.foldl g b) a = .ok (g (front.foldl g b) a)) :
    l.foldlM f b = .ok (l.foldl g b) := by
  induction l generalizing b with
  | nil => rfl
  | cons a l ih =>
    have hfirst : f b a = .ok (g b a) := h [] a l rfl
    rw [List.foldlM_cons, hfirst, Try.ok_bind, List.foldl_cons]
    exact ih fun front a' back hl => h (a :: front) a' back (by rw [hl, List.cons_append])

/-! ### Results that may be errors -/

/-- The computation does not abort, and ends with the answer. -/
def Yields (x : ExceptT ε Checked α) (answer : Except ε α) : Prop := x.run = .ok answer

namespace Yields

/-- A result is its own answer. -/
theorem pure (a : α) : Yields (Pure.pure a : ExceptT ε Checked α) (.ok a) := rfl

/-- An error is its own answer. -/
theorem throw (e : ε) : Yields (MonadExcept.throw e : ExceptT ε Checked α) (.error e) := rfl

/-- Answers follow one another as the programs do. -/
theorem bind {x : ExceptT ε Checked α} {f : α → ExceptT ε Checked β} {answer : Except ε α}
    {g : α → Except ε β} (hx : Yields x answer) (hf : ∀ a, answer = .ok a → Yields (f a) (g a)) :
    Yields (x >>= f) (answer >>= g) := by
  unfold Yields at hx ⊢
  rw [ExceptT.run_bind, hx, Try.ok_bind]
  cases answer with
  | error e => rfl
  | ok a => exact hf a rfl

/-- A step without errors of its own. -/
theorem lift {x : Checked α} {f : α → ExceptT ε Checked β} {a : α} {answer : Except ε β}
    (hx : x = .ok a) (hf : Yields (f a) answer) : Yields (liftM x >>= f) answer := by
  subst hx
  exact hf

/-- A last step without errors of its own. -/
theorem lifted {x : Checked α} {a : α} (hx : x = .ok a) :
    Yields (liftM x : ExceptT ε Checked α) (.ok a) := by
  subst hx
  rfl

/-- The answer is that of the branch that is taken. -/
theorem ite {c : Prop} [Decidable c] {x y : ExceptT ε Checked α} {answer answer' : Except ε α}
    (hx : c → Yields x answer) (hy : ¬c → Yields y answer') :
    Yields (if c then x else y) (if c then answer else answer') := by
  by_cases h : c
  · rw [if_pos h, if_pos h]
    exact hx h
  · rw [if_neg h, if_neg h]
    exact hy h

end Yields

end Checked

end Roc
