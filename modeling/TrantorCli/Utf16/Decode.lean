import TrantorCli.Utf16.Encode

/-!
# Decoding inverts encoding

The decoder reads a unit list in exactly the two shapes that the units of a
scalar value have. Hence it accepts the encodings of text and nothing else.
-/

open Roc

namespace TrantorCli

/-- A scalar value is appended as its UTF-8 encoding. -/
theorem appendCodePointUtf8_val (c : Char) (out : List UInt8) :
    appendCodePointUtf8 out c.val = out ++ String.utf8EncodeChar c := by
  have hrange := Utf16.val_ranges c
  unfold appendCodePointUtf8 String.utf8EncodeChar
  generalize c.val = codePoint at hrange ⊢
  have h6 := Words.uint32_shiftRight codePoint 6 6 rfl (by decide)
  have h12 := Words.uint32_shiftRight codePoint 12 12 rfl (by decide)
  have h18 := Words.uint32_shiftRight codePoint 18 18 rfl (by decide)
  have hmask := fun a => Words.uint32_and_mask a 0x3F 6 rfl
  simp only [UInt32.lt_iff_toNat_lt, Words.toUInt8_eq_ofNat, UInt32.toNat_add, hmask, h6, h12, h18,
    UInt32.reduceToNat]
  clear h6 h12 h18 hmask
  generalize codePoint.toNat = v at hrange ⊢
  have hlast : (128 + v % 2 ^ 6) % 2 ^ 32 = v % 64 + 128 := by omega
  have hmid6 : (128 + v / 2 ^ 6 % 2 ^ 6) % 2 ^ 32 = v / 64 % 64 + 128 := by omega
  have hmid12 : (128 + v / 2 ^ 12 % 2 ^ 6) % 2 ^ 32 = v / 4096 % 64 + 128 := by omega
  by_cases h7 : v < 128
  · rw [if_pos h7, if_pos (by omega)]
  rw [if_neg h7, if_neg (show ¬v ≤ 127 by omega)]
  by_cases h11 : v < 2048
  · have hlead : (192 + v / 2 ^ 6) % 2 ^ 32 = v / 64 % 32 + 192 := by omega
    rw [if_pos h11, if_pos (by omega), hlead, hlast]
    simp only [List.append_assoc, List.cons_append, List.nil_append]
  rw [if_neg h11, if_neg (show ¬v ≤ 2047 by omega)]
  by_cases h16 : v < 65536
  · have hlead : (224 + v / 2 ^ 12) % 2 ^ 32 = v / 4096 % 16 + 224 := by omega
    rw [if_pos h16, if_pos (by omega), hlead, hmid6, hlast]
    simp only [List.append_assoc, List.cons_append, List.nil_append]
  · have hlead : (240 + v / 2 ^ 18) % 2 ^ 32 = v / 262144 % 8 + 240 := by omega
    rw [if_neg h16, if_neg (by omega), hlead, hmid12, hmid6, hlast]
    simp only [List.append_assoc, List.cons_append, List.nil_append]

/-- The units that are no characters. -/
theorem isSurrogate_iff {unit : UInt16} :
    isSurrogate unit = true ↔ 0xD800 ≤ unit.toNat ∧ unit.toNat ≤ 0xDFFF := by
  simp [isSurrogate, UInt16.le_iff_toNat_le]

/-- The units that begin a pair. -/
theorem isHighSurrogate_iff {unit : UInt16} :
    isHighSurrogate unit = true ↔ 0xD800 ≤ unit.toNat ∧ unit.toNat ≤ 0xDBFF := by
  simp [isHighSurrogate, UInt16.le_iff_toNat_le]

/-- The units that end a pair. -/
theorem isLowSurrogate_iff {unit : UInt16} :
    isLowSurrogate unit = true ↔ 0xDC00 ≤ unit.toNat ∧ unit.toNat ≤ 0xDFFF := by
  simp [isLowSurrogate, UInt16.le_iff_toNat_le]

/-- The number a surrogate pair stands for. -/
theorem pairCodePoint_toNat {high low : UInt16} (hhigh : isHighSurrogate high = true)
    (hlow : isLowSurrogate low = true) :
    ∃ codePoint, pairCodePoint high low = .ok codePoint ∧
      codePoint.toNat = 0x10000 + (high.toNat - 0xD800) * 0x400 + (low.toNat - 0xDC00) := by
  rw [isHighSurrogate_iff] at hhigh
  rw [isLowSurrogate_iff] at hlow
  have hD800 : (0xD800 : UInt32).toNat = 0xD800 := rfl
  have hDC00 : (0xDC00 : UInt32).toNat = 0xDC00 := rfl
  have hle : (0xD800 : UInt32) ≤ high.toUInt32 := by
    rw [UInt32.le_iff_toNat_le, UInt16.toNat_toUInt32]; omega
  have hle' : (0xDC00 : UInt32) ≤ low.toUInt32 := by
    rw [UInt32.le_iff_toNat_le, UInt16.toNat_toUInt32]; omega
  have hhighBits : (high.toUInt32 - 0xD800).toNat = high.toNat - 0xD800 := by
    rw [UInt32.toNat_sub_of_le _ _ hle, UInt16.toNat_toUInt32, hD800]
  have hlowBits : (low.toUInt32 - 0xDC00).toNat = low.toNat - 0xDC00 := by
    rw [UInt32.toNat_sub_of_le _ _ hle', UInt16.toNat_toUInt32, hDC00]
  have hshift := Words.uint32_shiftLeft (high.toUInt32 - 0xD800) 10 10 rfl (by decide) (by omega)
  refine ⟨(0x10000 : UInt32) + ((high.toUInt32 - 0xD800) <<< (10 : UInt32)) +
    (low.toUInt32 - 0xDC00), ?_, ?_⟩
  · rw [pairCodePoint, Checked.subU32, if_pos hle, Try.ok_bind, Checked.subU32, if_pos hle',
      Try.ok_bind]
    rfl
  · rw [UInt32.toNat_add, UInt32.toNat_add, hshift, hhighBits, hlowBits]
    have h10000 : (0x10000 : UInt32).toNat = 0x10000 := rfl
    omega

/-- A surrogate pair is the units of the scalar value it stands for. -/
theorem exists_char_of_pair {high low : UInt16} (hhigh : isHighSurrogate high = true)
    (hlow : isLowSurrogate low = true) :
    ∃ c : Char, pairCodePoint high low = .ok c.val ∧ Utf16.units c = [high, low] := by
  obtain ⟨codePoint, hpair, hval⟩ := pairCodePoint_toNat hhigh hlow
  rw [isHighSurrogate_iff] at hhigh
  rw [isLowSurrogate_iff] at hlow
  obtain ⟨c, hc⟩ := Utf16.exists_char codePoint.toNat (by omega)
  have hcval : c.val = codePoint := UInt32.toNat_inj.mp hc
  refine ⟨c, hcval ▸ hpair, ?_⟩
  have hunit : ∀ (unit : UInt16) (n : Nat), unit.toNat = n → UInt16.ofNat n = unit := by
    rintro unit n rfl
    exact UInt16.ofNat_toNat
  unfold Utf16.units
  simp only [hc]
  rw [if_neg (by omega), hunit high _ (by omega), hunit low _ (by omega)]

/-- A unit that is no surrogate is the unit of the scalar value of its number. -/
theorem exists_char_of_unit {unit : UInt16} (h : isSurrogate unit = false) :
    ∃ c : Char, unit.toUInt32 = c.val ∧ Utf16.units c = [unit] := by
  have hnot : ¬(0xD800 ≤ unit.toNat ∧ unit.toNat ≤ 0xDFFF) := by
    rw [← isSurrogate_iff, h]
    decide
  have hlt := unit.toNat_lt
  obtain ⟨c, hc⟩ := Utf16.exists_char unit.toNat (by omega)
  refine ⟨c, UInt32.toNat_inj.mp (by rw [UInt16.toNat_toUInt32, hc]), ?_⟩
  unfold Utf16.units
  simp only [hc]
  rw [if_pos (by omega), UInt16.ofNat_toNat]

/-- The units of a scalar value are one of the two shapes the decoder reads. -/
theorem units_shape (c : Char) :
    (∃ unit, Utf16.units c = [unit] ∧ isSurrogate unit = false ∧ unit.toUInt32 = c.val) ∨
      ∃ high low, Utf16.units c = [high, low] ∧ isHighSurrogate high = true ∧
        isLowSurrogate low = true ∧ pairCodePoint high low = .ok c.val := by
  have hrange := Utf16.val_ranges c
  unfold Utf16.units
  generalize hv : c.val.toNat = v at hrange
  by_cases hplane : v < 0x10000
  · refine .inl ⟨UInt16.ofNat v, by rw [if_pos hplane], ?_, ?_⟩
    · rw [← Bool.not_eq_true, isSurrogate_iff, UInt16.toNat_ofNat']
      omega
    · apply UInt32.toNat_inj.mp
      rw [UInt16.toNat_toUInt32, UInt16.toNat_ofNat', hv]
      omega
  · have hhigh : isHighSurrogate (UInt16.ofNat (0xD800 + (v - 0x10000) / 0x400)) = true := by
      rw [isHighSurrogate_iff, UInt16.toNat_ofNat']
      omega
    have hlow : isLowSurrogate (UInt16.ofNat (0xDC00 + (v - 0x10000) % 0x400)) = true := by
      rw [isLowSurrogate_iff, UInt16.toNat_ofNat']
      omega
    refine .inr ⟨_, _, by rw [if_neg hplane], hhigh, hlow, ?_⟩
    obtain ⟨codePoint, hpair, hval⟩ := pairCodePoint_toNat hhigh hlow
    rw [hpair]
    refine congrArg _ (UInt32.toNat_inj.mp ?_)
    rw [hval, hv, UInt16.toNat_ofNat', UInt16.toNat_ofNat']
    omega

/-- A unit that is no surrogate is decoded on its own. -/
theorem utf16ToUtf8_unit {unit : UInt16} (h : isSurrogate unit = false) (rest : List UInt16)
    (out : List UInt8) (index : Nat) :
    utf16ToUtf8 (unit :: rest) out index =
      utf16ToUtf8 rest (appendCodePointUtf8 out unit.toUInt32) (index + 1) := by
  have hhigh : isHighSurrogate unit = false := by
    rw [← Bool.not_eq_true, isSurrogate_iff] at h
    rw [← Bool.not_eq_true, isHighSurrogate_iff]
    omega
  cases rest with
  | nil =>
    conv_lhs => rw [utf16ToUtf8, h]
    rfl
  | cons low rest => rw [utf16ToUtf8, hhigh, h]; rfl

/-- A surrogate pair is decoded as one code point. -/
theorem utf16ToUtf8_pair {high low : UInt16} (hhigh : isHighSurrogate high = true)
    (hlow : isLowSurrogate low = true) (rest : List UInt16) (out : List UInt8) (index : Nat) :
    utf16ToUtf8 (high :: low :: rest) out index =
      (pairCodePoint high low >>= fun codePoint =>
        utf16ToUtf8 rest (appendCodePointUtf8 out codePoint) (index + 2)) := by
  rw [utf16ToUtf8, hhigh, hlow]
  rfl

/-- The units of a scalar value are decoded to its bytes. -/
theorem utf16ToUtf8_units (c : Char) (rest : List UInt16) (out : List UInt8) (index : Nat) :
    utf16ToUtf8 (Utf16.units c ++ rest) out index =
      utf16ToUtf8 rest (out ++ String.utf8EncodeChar c) (index + (Utf16.units c).length) := by
  rcases units_shape c with ⟨unit, hunits, hnot, hval⟩ | ⟨high, low, hunits, hhigh, hlow, hpair⟩
  · rw [hunits, List.singleton_append, utf16ToUtf8_unit hnot, hval, appendCodePointUtf8_val]
    rfl
  · rw [hunits, List.cons_append, List.singleton_append, utf16ToUtf8_pair hhigh hlow, hpair,
      Try.ok_bind, appendCodePointUtf8_val]
    rfl

/-- Well-formed units are decoded to the bytes of their scalar values. -/
theorem utf16ToUtf8_encode (chars : List Char) (out : List UInt8) (index : Nat) :
    utf16ToUtf8 (Utf16.encode chars) out index = .ok (.ok (out ++ Utf8.encode chars)) := by
  induction chars generalizing out index with
  | nil => simp [utf16ToUtf8]
  | cons c chars ih =>
    rw [Utf16.encode_cons, utf16ToUtf8_units, ih, Utf8.encode_cons, List.append_assoc]

/-- One more character is encoded in both forms. -/
theorem encode_extend {c : Char} {units rest : List UInt16} {out bytes : List UInt8}
    (hunits : Utf16.units c = units)
    (h : ∃ chars, rest = Utf16.encode chars ∧
      bytes = out ++ String.utf8EncodeChar c ++ Utf8.encode chars) :
    ∃ chars, units ++ rest = Utf16.encode chars ∧ bytes = out ++ Utf8.encode chars := by
  obtain ⟨chars, rfl, rfl⟩ := h
  exact ⟨c :: chars, by rw [Utf16.encode_cons, hunits], by simp⟩

/-- Only well-formed units are decoded. -/
theorem eq_encode_of_utf16ToUtf8 {remaining : List UInt16} {out bytes : List UInt8} {index : Nat}
    (h : utf16ToUtf8 remaining out index = .ok (.ok bytes)) :
    ∃ chars, remaining = Utf16.encode chars ∧ bytes = out ++ Utf8.encode chars := by
  induction remaining, out, index using utf16ToUtf8.induct with
  | case1 out index =>
    rw [utf16ToUtf8] at h
    cases h
    exact ⟨[], rfl, by simp⟩
  | case2 out index unit hs =>
    rw [utf16ToUtf8, if_pos hs] at h
    cases h
  | case3 out index unit hs ih =>
    have hnot : isSurrogate unit = false := by simpa using hs
    rw [utf16ToUtf8_unit hnot] at h
    obtain ⟨c, hval, hunits⟩ := exists_char_of_unit hnot
    rw [hval, appendCodePointUtf8_val] at ih h
    exact encode_extend hunits (ih h)
  | case4 out index high low rest hp ih =>
    obtain ⟨hhigh, hlow⟩ := Bool.and_eq_true_iff.mp hp
    rw [utf16ToUtf8_pair hhigh hlow] at h
    obtain ⟨c, hpair, hunits⟩ := exists_char_of_pair hhigh hlow
    have ihc := ih c.val
    rw [appendCodePointUtf8_val] at ihc
    rw [hpair, Try.ok_bind, appendCodePointUtf8_val] at h
    exact encode_extend hunits (ihc h)
  | case5 out index high low rest hp hs =>
    rw [utf16ToUtf8, if_neg hp, if_pos hs] at h
    cases h
  | case6 out index high low rest hp hs ih =>
    have hnot : isSurrogate high = false := by simpa using hs
    rw [utf16ToUtf8_unit hnot] at h
    obtain ⟨c, hval, hunits⟩ := exists_char_of_unit hnot
    rw [hval, appendCodePointUtf8_val] at ih h
    exact encode_extend hunits (ih h)

/-- Text survives the codec. -/
theorem utf16ToStr_strToUtf16 (s : Str) :
    ∃ u16s, strToUtf16 s = .ok u16s ∧ utf16ToStr u16s = .ok (.ok s) := by
  obtain ⟨chars, hchars⟩ := s.valid
  refine ⟨Utf16.encode chars, ?_, ?_⟩
  · rw [strToUtf16, Str.toUtf8_eq, hchars, utf8ToUtf16_encode]
    rfl
  · rw [utf16ToStr, utf16ToUtf8_encode, Try.ok_bind, List.nil_append, ← hchars]
    simp

/-- Units that are text are the encoding of that text. -/
theorem strToUtf16_of_utf16ToStr {u16s : List UInt16} {s : Str}
    (h : utf16ToStr u16s = .ok (.ok s)) : strToUtf16 s = .ok u16s := by
  obtain ⟨decoded, hdecoded, hs⟩ := Try.bind_eq_ok.mp h
  cases decoded with
  | error index => cases hs
  | ok bytes =>
    obtain ⟨chars, rfl, hbytes⟩ := eq_encode_of_utf16ToUtf8 hdecoded
    have hfrom : Str.fromUtf8 bytes = .ok s := by
      simpa using hs
    rw [strToUtf16, Str.toUtf8_eq, Str.bytes_of_fromUtf8 hfrom, hbytes, List.nil_append,
      utf8ToUtf16_encode]
    rfl
end TrantorCli
