import Mathlib.Data.UInt
import TrantorCli.Lib.Utf8

/-!
# Well-formed UTF-16

A scalar value below 0x10000 is one unit and the others are a high and a low
surrogate. A unit list is well formed when it encodes scalar values, as a byte
list is in `Utf8`.
-/

namespace Utf16


/-- The units of one scalar value. -/
def units (c : Char) : List UInt16 :=
  let v := c.val.toNat
  if v < 0x10000 then [UInt16.ofNat v]
  else
    [UInt16.ofNat (0xD800 + (v - 0x10000) / 0x400),
      UInt16.ofNat (0xDC00 + (v - 0x10000) % 0x400)]

/-- The units of a list of scalar values. -/
def encode (chars : List Char) : List UInt16 := chars.flatMap units

/-- No characters, no units. -/
@[simp] theorem encode_nil : encode [] = [] := rfl

/-- The units of the first character come first. -/
@[simp] theorem encode_cons (c : Char) (cs : List Char) : encode (c :: cs) = units c ++ encode cs :=
  rfl

/-- Scalar values leave out the surrogates and end at 0x10FFFF. -/
theorem val_ranges (c : Char) :
    c.val.toNat < 0xD800 ∨ 0xDFFF < c.val.toNat ∧ c.val.toNat < 0x110000 := by
  rcases c.valid with h | ⟨h, h'⟩
  · exact .inl h
  · exact .inr ⟨h, h'⟩

/-- The scalar value with a given number. -/
theorem exists_char (v : Nat) (h : v < 0xD800 ∨ 0xDFFF < v ∧ v < 0x110000) :
    ∃ c : Char, c.val.toNat = v := by
  have hv : v.isValidChar := h
  refine ⟨Char.ofNat v, ?_⟩
  rw [Char.ofNat, dif_pos hv]
  rfl

end Utf16
