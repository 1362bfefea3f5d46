import TrantorCli.Utf16.Codec

/-!
# Encoding text never aborts

The encoder's bit fields are read as sums, so that a well-formed sequence is seen
to give the number of its scalar value. By induction on the scalar values, the
encoder then reaches neither `crash` nor an underflow.
-/

open Roc

namespace TrantorCli

/-- The six payload bits of a continuation byte. -/
theorem continuation_toNat (byte : UInt8) :
    (byte &&& 0x3F).toUInt32.toNat = byte.toNat % 64 := by
  rw [UInt8.toNat_toUInt32, Words.uint8_and_mask _ _ 6 rfl]
  rfl

private theorem codePoint2_toNat (byte1 byte2 : UInt8) :
    ((byte1 &&& 0x1F).toUInt32 <<< 6 ||| (byte2 &&& 0x3F).toUInt32).toNat =
      byte1.toNat % 32 * 64 + byte2.toNat % 64 := by
  have h1 := Words.uint8_field byte1 0x1F 6 5 6 rfl rfl (by decide)
  have h2 := continuation_toNat byte2
  have hor := Words.uint32_or ((byte1 &&& 0x1F).toUInt32 <<< 6) (byte2 &&& 0x3F).toUInt32 6
    (by omega) (by omega)
  omega

private theorem codePoint3_toNat (byte1 byte2 byte3 : UInt8) :
    ((byte1 &&& 0x0F).toUInt32 <<< 12 ||| (byte2 &&& 0x3F).toUInt32 <<< 6 |||
      (byte3 &&& 0x3F).toUInt32).toNat =
      byte1.toNat % 16 * 4096 + byte2.toNat % 64 * 64 + byte3.toNat % 64 := by
  have h1 := Words.uint8_field byte1 0x0F 12 4 12 rfl rfl (by decide)
  have h2 := Words.uint8_field byte2 0x3F 6 6 6 rfl rfl (by decide)
  have h3 := continuation_toNat byte3
  have hor := Words.uint32_or ((byte1 &&& 0x0F).toUInt32 <<< 12)
    ((byte2 &&& 0x3F).toUInt32 <<< 6) 12 (by omega) (by omega)
  have hor' := Words.uint32_or
    ((byte1 &&& 0x0F).toUInt32 <<< 12 ||| (byte2 &&& 0x3F).toUInt32 <<< 6)
    (byte3 &&& 0x3F).toUInt32 6 (by omega) (by omega)
  omega

private theorem codePoint4_toNat (byte1 byte2 byte3 byte4 : UInt8) :
    ((byte1 &&& 0x07).toUInt32 <<< 18 ||| (byte2 &&& 0x3F).toUInt32 <<< 12 |||
      (byte3 &&& 0x3F).toUInt32 <<< 6 ||| (byte4 &&& 0x3F).toUInt32).toNat =
      byte1.toNat % 8 * 262144 + byte2.toNat % 64 * 4096 + byte3.toNat % 64 * 64 +
        byte4.toNat % 64 := by
  have h1 := Words.uint8_field byte1 0x07 18 3 18 rfl rfl (by decide)
  have h2 := Words.uint8_field byte2 0x3F 12 6 12 rfl rfl (by decide)
  have h3 := Words.uint8_field byte3 0x3F 6 6 6 rfl rfl (by decide)
  have h4 := continuation_toNat byte4
  have hor := Words.uint32_or ((byte1 &&& 0x07).toUInt32 <<< 18)
    ((byte2 &&& 0x3F).toUInt32 <<< 12) 18 (by omega) (by omega)
  have hor' := Words.uint32_or
    ((byte1 &&& 0x07).toUInt32 <<< 18 ||| (byte2 &&& 0x3F).toUInt32 <<< 12)
    ((byte3 &&& 0x3F).toUInt32 <<< 6) 12 (by omega) (by omega)
  have hor'' := Words.uint32_or ((byte1 &&& 0x07).toUInt32 <<< 18 |||
    (byte2 &&& 0x3F).toUInt32 <<< 12 ||| (byte3 &&& 0x3F).toUInt32 <<< 6)
    (byte4 &&& 0x3F).toUInt32 6 (by omega) (by omega)
  omega

/-- The payload of a byte is the digit that was put into it beside its tag. -/
theorem payload {width tag : Nat} (digit : Nat) (htag : width ∣ tag) (hwidth : width ∣ 2 ^ 8) :
    (digit % width + tag) % 2 ^ 8 % width = digit % width := by
  obtain ⟨k, rfl⟩ := htag
  rw [Nat.mod_mod_of_dvd _ hwidth, Nat.add_mul_mod_self_left, Nat.mod_mod]

/-- A number of 11 bits is put together from its two digits. -/
theorem digits2_sum {v : Nat} (hv : v < 2048) : v / 64 % 32 * 64 + v % 64 = v := by
  have hfirst := Nat.div_add_mod v 64
  rw [Nat.mod_eq_of_lt (by omega : v / 64 < 32)]
  omega

/-- A number of 16 bits is put together from its three digits. -/
theorem digits3_sum {v : Nat} (hv : v < 65536) :
    v / 4096 % 16 * 4096 + v / 64 % 64 * 64 + v % 64 = v := by
  have hfirst := Nat.div_add_mod v 64
  have hsecond := Nat.div_add_mod (v / 64) 64
  rw [show v / 4096 = v / 64 / 64 by simp only [Nat.div_div_eq_div_mul],
    Nat.mod_eq_of_lt (by omega : v / 64 / 64 < 16)]
  omega

/-- A number of 21 bits is put together from its four digits. -/
theorem digits4_sum {v : Nat} (hv : v < 2097152) :
    v / 262144 % 8 * 262144 + v / 4096 % 64 * 4096 + v / 64 % 64 * 64 + v % 64 = v := by
  have hfirst := Nat.div_add_mod v 64
  have hsecond := Nat.div_add_mod (v / 64) 64
  have hthird := Nat.div_add_mod (v / 64 / 64) 64
  rw [show v / 262144 = v / 64 / 64 / 64 by simp only [Nat.div_div_eq_div_mul],
    show v / 4096 = v / 64 / 64 by simp only [Nat.div_div_eq_div_mul],
    Nat.mod_eq_of_lt (by omega : v / 64 / 64 / 64 < 8)]
  omega

/-- The subtraction past the basic plane, and what its halves become. -/
theorem surrogates_of_codePoint {codePoint : UInt32} {v : Nat} (hv : codePoint.toNat = v)
    (hlo : 0x10000 ≤ v) (hhi : v < 0x110000) :
    ∃ offset shifted : UInt32, Checked.subU32 codePoint 0x10000 = .ok offset ∧
      offset >>> 10 = shifted ∧
      UInt32.toUInt16 (0xD800 + shifted) = UInt16.ofNat (0xD800 + (v - 0x10000) / 0x400) ∧
      UInt32.toUInt16 (0xDC00 + (offset &&& 0x3FF)) =
        UInt16.ofNat (0xDC00 + (v - 0x10000) % 0x400) := by
  have hplane : (0x10000 : UInt32).toNat = 0x10000 := rfl
  have hle : (0x10000 : UInt32) ≤ codePoint :=
    UInt32.le_iff_toNat_le.mpr (by omega)
  have hsub : (codePoint - 0x10000).toNat = v - 0x10000 := by
    rw [UInt32.toNat_sub_of_le _ _ hle, hv]; rfl
  refine ⟨codePoint - 0x10000, _, if_pos hle, rfl, ?_, ?_⟩
  · rw [Words.toUInt16_eq_ofNat, UInt32.toNat_add,
      Words.uint32_shiftRight _ _ 10 rfl (by decide), hsub]
    refine congrArg UInt16.ofNat ?_
    simp only [UInt32.reduceToNat]
    omega
  · rw [Words.toUInt16_eq_ofNat, UInt32.toNat_add, Words.uint32_and_mask _ _ 10 rfl, hsub]
    refine congrArg UInt16.ofNat ?_
    simp only [UInt32.reduceToNat]
    omega

/-! ### One scalar value, by the length of its sequence -/

section Sequences

variable {v : Nat} (rest : List UInt8) (out : List UInt16)

private theorem utf8ToUtf16_one (hv : v < 0x80) :
    utf8ToUtf16 (UInt8.ofNat v :: rest) out = utf8ToUtf16 rest (out ++ [UInt16.ofNat v]) := by
  have hlt : UInt8.ofNat v < 0x80 := by
    simp only [UInt8.lt_iff_toNat_lt, UInt8.toNat_ofNat', UInt8.reduceToNat]; omega
  have hunit : (UInt8.ofNat v).toUInt16 = UInt16.ofNat v := by
    apply UInt16.toNat_inj.mp
    simp only [UInt8.toNat_toUInt16, UInt8.toNat_ofNat', UInt16.toNat_ofNat']
    omega
  conv_lhs => unfold utf8ToUtf16
  simp only [hlt, if_true, hunit]

private theorem utf8ToUtf16_two (hv : v < 0x800) :
    utf8ToUtf16 (UInt8.ofNat (v / 64 % 32 + 192) :: UInt8.ofNat (v % 64 + 128) :: rest) out =
      utf8ToUtf16 rest (out ++ [UInt16.ofNat v]) := by
  have h80 : ¬ UInt8.ofNat (v / 64 % 32 + 192) < 0x80 := by
    simp only [UInt8.lt_iff_toNat_lt, UInt8.toNat_ofNat', UInt8.reduceToNat]; omega
  have hE0 : UInt8.ofNat (v / 64 % 32 + 192) < 0xE0 := by
    simp only [UInt8.lt_iff_toNat_lt, UInt8.toNat_ofNat', UInt8.reduceToNat]; omega
  have hcode := codePoint2_toNat (UInt8.ofNat (v / 64 % 32 + 192)) (UInt8.ofNat (v % 64 + 128))
  simp only [UInt8.toNat_ofNat'] at hcode
  have hsum : (v / 64 % 32 + 192) % 2 ^ 8 % 32 * 64 + (v % 64 + 128) % 2 ^ 8 % 64 = v := by
    rw [payload _ (by decide) (by decide), payload _ (by decide) (by decide), digits2_sum hv]
  conv_lhs => unfold utf8ToUtf16
  simp only [h80, hE0, if_true, if_false, Words.toUInt16_eq_ofNat, hcode, hsum]

private theorem utf8ToUtf16_three (hv : v < 0x10000) :
    utf8ToUtf16 (UInt8.ofNat (v / 4096 % 16 + 224) :: UInt8.ofNat (v / 64 % 64 + 128) ::
        UInt8.ofNat (v % 64 + 128) :: rest) out =
      utf8ToUtf16 rest (out ++ [UInt16.ofNat v]) := by
  have h80 : ¬ UInt8.ofNat (v / 4096 % 16 + 224) < 0x80 := by
    simp only [UInt8.lt_iff_toNat_lt, UInt8.toNat_ofNat', UInt8.reduceToNat]; omega
  have hE0 : ¬ UInt8.ofNat (v / 4096 % 16 + 224) < 0xE0 := by
    simp only [UInt8.lt_iff_toNat_lt, UInt8.toNat_ofNat', UInt8.reduceToNat]; omega
  have hF0 : UInt8.ofNat (v / 4096 % 16 + 224) < 0xF0 := by
    simp only [UInt8.lt_iff_toNat_lt, UInt8.toNat_ofNat', UInt8.reduceToNat]; omega
  have hcode := codePoint3_toNat (UInt8.ofNat (v / 4096 % 16 + 224))
    (UInt8.ofNat (v / 64 % 64 + 128)) (UInt8.ofNat (v % 64 + 128))
  simp only [UInt8.toNat_ofNat'] at hcode
  have hsum : (v / 4096 % 16 + 224) % 2 ^ 8 % 16 * 4096 +
      (v / 64 % 64 + 128) % 2 ^ 8 % 64 * 64 + (v % 64 + 128) % 2 ^ 8 % 64 = v := by
    rw [payload _ (by decide) (by decide), payload _ (by decide) (by decide),
      payload _ (by decide) (by decide), digits3_sum hv]
  conv_lhs => unfold utf8ToUtf16
  simp only [h80, hE0, hF0, if_true, if_false, Words.toUInt16_eq_ofNat, hcode, hsum]

/-- Past the basic plane the subtraction does not go below zero. -/
theorem utf8ToUtf16_four (hlo : 0x10000 ≤ v) (hhi : v < 0x110000) :
    utf8ToUtf16 (UInt8.ofNat (v / 262144 % 8 + 240) :: UInt8.ofNat (v / 4096 % 64 + 128) ::
        UInt8.ofNat (v / 64 % 64 + 128) :: UInt8.ofNat (v % 64 + 128) :: rest) out =
      utf8ToUtf16 rest (out ++ [UInt16.ofNat (0xD800 + (v - 0x10000) / 0x400),
        UInt16.ofNat (0xDC00 + (v - 0x10000) % 0x400)]) := by
  have h80 : ¬ UInt8.ofNat (v / 262144 % 8 + 240) < 0x80 := by
    simp only [UInt8.lt_iff_toNat_lt, UInt8.toNat_ofNat', UInt8.reduceToNat]; omega
  have hE0 : ¬ UInt8.ofNat (v / 262144 % 8 + 240) < 0xE0 := by
    simp only [UInt8.lt_iff_toNat_lt, UInt8.toNat_ofNat', UInt8.reduceToNat]; omega
  have hF0 : ¬ UInt8.ofNat (v / 262144 % 8 + 240) < 0xF0 := by
    simp only [UInt8.lt_iff_toNat_lt, UInt8.toNat_ofNat', UInt8.reduceToNat]; omega
  have hcode := codePoint4_toNat (UInt8.ofNat (v / 262144 % 8 + 240))
    (UInt8.ofNat (v / 4096 % 64 + 128)) (UInt8.ofNat (v / 64 % 64 + 128))
    (UInt8.ofNat (v % 64 + 128))
  simp only [UInt8.toNat_ofNat'] at hcode
  have hsum : (v / 262144 % 8 + 240) % 2 ^ 8 % 8 * 262144 +
      (v / 4096 % 64 + 128) % 2 ^ 8 % 64 * 4096 + (v / 64 % 64 + 128) % 2 ^ 8 % 64 * 64 +
        (v % 64 + 128) % 2 ^ 8 % 64 = v := by
    rw [payload _ (by decide) (by decide), payload _ (by decide) (by decide),
      payload _ (by decide) (by decide), payload _ (by decide) (by decide),
      digits4_sum (Nat.lt_of_lt_of_le hhi (by decide))]
  obtain ⟨offset, shifted, hoffset, hshifted, hhigh, hlow⟩ :=
    surrogates_of_codePoint (hcode.trans hsum) hlo hhi
  conv_lhs => unfold utf8ToUtf16
  simp only [h80, hE0, hF0, if_false, hoffset, Try.ok_bind, hshifted, hhigh, hlow,
    List.append_assoc, List.cons_append, List.nil_append]

end Sequences

/-- One scalar value of text becomes its units. -/
theorem utf8ToUtf16_encodeChar (c : Char) (rest : List UInt8) (out : List UInt16) :
    utf8ToUtf16 (String.utf8EncodeChar c ++ rest) out =
      utf8ToUtf16 rest (out ++ Utf16.units c) := by
  have hrange := Utf16.val_ranges c
  unfold String.utf8EncodeChar Utf16.units
  generalize c.val.toNat = v at hrange ⊢
  simp only []
  split
  · rw [if_pos (by omega)]
    exact utf8ToUtf16_one rest out (by omega)
  split
  · rw [if_pos (by omega)]
    exact utf8ToUtf16_two rest out (by omega)
  split
  · rw [if_pos (by omega)]
    exact utf8ToUtf16_three rest out (by omega)
  · rw [if_neg (by omega)]
    exact utf8ToUtf16_four rest out (by omega) (by omega)

/-- Text becomes the units of its scalar values: no byte of it reaches `crash`. -/
theorem utf8ToUtf16_encode (chars : List Char) (out : List UInt16) :
    utf8ToUtf16 (Utf8.encode chars) out = .ok (out ++ Utf16.encode chars) := by
  induction chars generalizing out with
  | nil => simp [utf8ToUtf16]
  | cons c chars ih =>
    rw [Utf8.encode_cons, utf8ToUtf16_encodeChar, ih, Utf16.encode_cons, List.append_assoc]

end TrantorCli
