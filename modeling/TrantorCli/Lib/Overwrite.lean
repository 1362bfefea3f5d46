import Mathlib.Data.List.Basic

/-!
# Writing into a list of bytes

What is written at a position takes the place of what was there, and what lies
between the end and the position is filled. Writing on where a write ended is
writing both parts at once.
-/

namespace List

variable {α : Type}

/-- `data` written at `pos`, behind zeros when that is beyond the end. Writing nothing fills
nothing. -/
def overwrite (zero : α) (l : List α) (pos : Nat) (data : List α) : List α :=
  if data.isEmpty then l
  else (l ++ replicate (pos - l.length) zero).take pos ++ data ++ l.drop (pos + data.length)

/-- Nothing changes when nothing is written. -/
@[simp] theorem overwrite_nil (zero : α) (l : List α) (pos : Nat) :
    overwrite zero l pos [] = l := rfl

private theorem overwrite_of_ne (zero : α) (l : List α) (pos : Nat) {data : List α}
    (h : data ≠ []) :
    overwrite zero l pos data =
      (l ++ replicate (pos - l.length) zero).take pos ++ data ++ l.drop (pos + data.length) :=
  if_neg (by simpa using h)

private theorem length_take_fill (zero : α) (l : List α) (pos : Nat) :
    ((l ++ replicate (pos - l.length) zero).take pos).length = pos := by
  simp only [length_take, length_append, length_replicate]
  omega

/-- At the end it is appended. -/
theorem overwrite_length (zero : α) (l data : List α) :
    overwrite zero l l.length data = l ++ data := by
  by_cases h : data = []
  · simp [h]
  · simp [overwrite_of_ne zero l _ h]

/-- Writing on where a write ended. -/
theorem overwrite_append (zero : α) (l : List α) (pos : Nat) (a b : List α) :
    overwrite zero (overwrite zero l pos a) (pos + a.length) b = overwrite zero l pos (a ++ b) := by
  by_cases ha : a = []
  · subst ha
    simp
  by_cases hb : b = []
  · subst hb
    simp
  have hab : a ++ b ≠ [] := by simp [ha]
  have hfront := length_take_fill zero l pos
  rw [overwrite_of_ne zero _ _ hb, overwrite_of_ne zero l pos hab, overwrite_of_ne zero l pos ha]
  generalize (l ++ replicate (pos - l.length) zero).take pos = front at hfront ⊢
  have hfill : pos + a.length - (front ++ a ++ l.drop (pos + a.length)).length = 0 := by
    simp only [length_append, length_drop]
    omega
  have htake : (front ++ a ++ l.drop (pos + a.length)).take (pos + a.length) = front ++ a :=
    take_left' (by rw [length_append, hfront])
  have hdrop : (front ++ a ++ l.drop (pos + a.length)).drop (pos + a.length + b.length) =
      l.drop (pos + (a ++ b).length) := by
    rw [← drop_drop, drop_left' (by rw [length_append, hfront]), drop_drop, length_append]
    congr 1
    omega
  rw [hfill, replicate_zero, append_nil, htake, hdrop, append_assoc front a b]

end List
