import Mathlib.Data.Nat.Bitwise
import Mathlib.Data.UInt

/-!
# Machine words as numbers

Masking, shifting and merging bit fields, read as remainder, multiplication and
addition. Text codecs are written with the left-hand sides and proved with the
right-hand ones, where linear arithmetic applies.
-/

namespace Words

/-- Masking with `2 ^ k - 1` keeps the remainder. -/
theorem uint8_and_mask (a m : UInt8) (k : Nat) (hm : m.toNat = 2 ^ k - 1) :
    (a &&& m).toNat = a.toNat % 2 ^ k := by
  rw [UInt8.toNat_and, hm, Nat.and_two_pow_sub_one_eq_mod]

/-- Masking with `2 ^ k - 1` keeps the remainder. -/
theorem uint32_and_mask (a m : UInt32) (k : Nat) (hm : m.toNat = 2 ^ k - 1) :
    (a &&& m).toNat = a.toNat % 2 ^ k := by
  rw [UInt32.toNat_and, hm, Nat.and_two_pow_sub_one_eq_mod]

/-- A shift to the left multiplies as long as nothing falls off. -/
theorem uint32_shiftLeft (a s : UInt32) (k : Nat) (hs : s.toNat = k) (hk : k < 32)
    (h : a.toNat * 2 ^ k < 2 ^ 32) : (a <<< s).toNat = a.toNat * 2 ^ k := by
  rw [UInt32.toNat_shiftLeft, hs, Nat.mod_eq_of_lt hk, Nat.shiftLeft_eq, Nat.mod_eq_of_lt h]

/-- A shift to the right divides. -/
theorem uint32_shiftRight (a s : UInt32) (k : Nat) (hs : s.toNat = k) (hk : k < 32) :
    (a >>> s).toNat = a.toNat / 2 ^ k := by
  rw [UInt32.toNat_shiftRight, hs, Nat.mod_eq_of_lt hk, Nat.shiftRight_eq_div_pow]

/-- Merging a value into bits that are clear adds it. -/
theorem uint32_or (a b : UInt32) (k : Nat) (ha : 2 ^ k ∣ a.toNat) (hb : b.toNat < 2 ^ k) :
    (a ||| b).toNat = a.toNat + b.toNat := by
  obtain ⟨q, hq⟩ := ha
  rw [UInt32.toNat_or, hq, Nat.mul_comm, ← Nat.shiftLeft_eq, Nat.shiftLeft_add_eq_or_of_lt hb]

/-- The low bits of a byte, moved up. -/
theorem uint8_field (byte mask : UInt8) (shift : UInt32) (k s : Nat)
    (hmask : mask.toNat = 2 ^ k - 1)
    (hshift : shift.toNat = s) (hks : k + s < 32) :
    ((byte &&& mask).toUInt32 <<< shift).toNat = byte.toNat % 2 ^ k * 2 ^ s := by
  have hlow : (byte &&& mask).toUInt32.toNat = byte.toNat % 2 ^ k := by
    rw [UInt8.toNat_toUInt32, uint8_and_mask _ _ k hmask]
  have hlt : byte.toNat % 2 ^ k < 2 ^ k := Nat.mod_lt _ (Nat.two_pow_pos k)
  have hfits : byte.toNat % 2 ^ k * 2 ^ s < 2 ^ 32 :=
    calc byte.toNat % 2 ^ k * 2 ^ s
      _ < 2 ^ k * 2 ^ s := Nat.mul_lt_mul_of_pos_right hlt (Nat.two_pow_pos s)
      _ = 2 ^ (k + s) := (Nat.pow_add 2 k s).symm
      _ ≤ 2 ^ 32 := Nat.pow_le_pow_right (by decide) (by omega)
  rw [uint32_shiftLeft _ _ s hshift (by omega) (by rwa [hlow]), hlow]

/-- Masking distributes over merging. -/
theorem uint32_or_and (a b m : UInt32) : (a ||| b) &&& m = (a &&& m) ||| (b &&& m) := by
  apply UInt32.toBitVec_inj.mp
  ext i
  simp [Bool.and_or_distrib_right]

/-- Masking again with a mask already applied changes nothing. -/
theorem uint32_and_again (a b : UInt32) : a &&& b &&& a = a &&& b := by
  rw [UInt32.and_comm, ← UInt32.and_assoc, UInt32.and_self]

/-- Bits that are merged in stay when masked with something that holds them. -/
theorem uint32_and_or_self (a b c : UInt32) : a &&& b &&& (c ||| a) = a &&& b := by
  rw [UInt32.and_comm, uint32_or_and, ← UInt32.and_assoc a, UInt32.and_self]
  apply UInt32.toBitVec_inj.mp
  ext i
  simp only [UInt32.toBitVec_or, UInt32.toBitVec_and, BitVec.getElem_or, BitVec.getElem_and]
  cases a.toBitVec[i] <;> cases b.toBitVec[i] <;> cases c.toBitVec[i] <;> rfl

/-- Cutting to sixteen bits. -/
theorem toUInt16_eq_ofNat (a : UInt32) : a.toUInt16 = UInt16.ofNat a.toNat := by
  apply UInt16.toNat_inj.mp
  simp [UInt32.toNat_toUInt16]

/-- Cutting to eight bits. -/
theorem toUInt8_eq_ofNat (a : UInt32) : a.toUInt8 = UInt8.ofNat a.toNat := by
  apply UInt8.toNat_inj.mp
  simp [UInt32.toNat_toUInt8]

/-- A fact about every byte holds when it holds of all 256 of them. -/
theorem forall_uint8 {p : UInt8 → Prop} (h : ∀ n : Fin 256, p (UInt8.ofNat n)) (byte : UInt8) :
    p byte := by
  have hbyte := h ⟨byte.toNat, byte.toNat_lt⟩
  rwa [UInt8.ofNat_toNat] at hbyte

end Words
