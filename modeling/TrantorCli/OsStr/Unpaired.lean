import TrantorCli.OsStr

/-!
# Unpaired surrogates

A high surrogate directly followed by a low one is a pair, and a surrogate in no
pair is unpaired. Which units are unpaired is said of positions alone. The strict
decoder stops at the first of them, and the lossy one reads the units with each of
them replaced.
-/

open Roc

namespace TrantorCli

/-- There is a high surrogate at `i`. -/
def highAt (w : List UInt16) (i : Nat) : Bool := w[i]?.any isHighSurrogate

/-- There is a low surrogate at `i`. -/
def lowAt (w : List UInt16) (i : Nat) : Bool := w[i]?.any isLowSurrogate

/-- The unit at `i` is a high surrogate with no low one behind it, or a low one with no high one
before it. -/
def unpairedAt (w : List UInt16) : Nat → Bool
  | 0 => highAt w 0 && !lowAt w 1 || lowAt w 0
  | i + 1 => highAt w (i + 1) && !lowAt w (i + 2) || lowAt w (i + 1) && !highAt w i

/-- The first unpaired surrogate is at `i`. -/
structure FirstUnpaired (w : List UInt16) (i : Nat) : Prop where
  unpaired : unpairedAt w i = true
  first : ∀ j < i, unpairedAt w j = false

/-- Each unpaired surrogate is replaced by the unit of U+FFFD. -/
def replaceUnpaired (w : List UInt16) : List UInt16 :=
  w.mapIdx fun i unit => if unpairedAt w i then 0xFFFD else unit

/-! ### Positions -/

/-- A surrogate is a high or a low one. -/
theorem isSurrogate_eq (unit : UInt16) :
    isSurrogate unit = (isHighSurrogate unit || isLowSurrogate unit) := by
  rw [Bool.eq_iff_iff, Bool.or_eq_true, isSurrogate_iff, isHighSurrogate_iff, isLowSurrogate_iff]
  omega

/-- No unit is both. -/
theorem isHighSurrogate_of_low {unit : UInt16} (h : isLowSurrogate unit = true) :
    isHighSurrogate unit = false := by
  rw [isLowSurrogate_iff] at h
  rw [← Bool.not_eq_true, isHighSurrogate_iff]
  omega

/-- The first unit is looked at. -/
@[simp] theorem highAt_zero (unit : UInt16) (rest : List UInt16) :
    highAt (unit :: rest) 0 = isHighSurrogate unit := rfl

/-- The first unit is looked at. -/
@[simp] theorem lowAt_zero (unit : UInt16) (rest : List UInt16) :
    lowAt (unit :: rest) 0 = isLowSurrogate unit := rfl

/-- A later unit is looked at in the rest. -/
@[simp] theorem highAt_succ (unit : UInt16) (rest : List UInt16) (i : Nat) :
    highAt (unit :: rest) (i + 1) = highAt rest i := rfl

/-- A later unit is looked at in the rest. -/
@[simp] theorem lowAt_succ (unit : UInt16) (rest : List UInt16) (i : Nat) :
    lowAt (unit :: rest) (i + 1) = lowAt rest i := rfl

/-- A unit that starts no pair is out of the way of what follows. -/
theorem unpairedAt_succ {unit : UInt16} {rest : List UInt16}
    (h : (isHighSurrogate unit && lowAt rest 0) = false) (i : Nat) :
    unpairedAt (unit :: rest) (i + 1) = unpairedAt rest i := by
  cases i with
  | zero =>
    rw [unpairedAt, unpairedAt, highAt_succ, lowAt_succ, lowAt_succ, highAt_zero]
    cases hhigh : isHighSurrogate unit with
    | false => simp
    | true =>
      have hlow : lowAt rest 0 = false := by simpa [hhigh] using h
      simp [hlow]
  | succ i => rfl

/-- A pair is out of the way of what follows. -/
theorem unpairedAt_pair {high low : UInt16} (hlow : isLowSurrogate low = true)
    (rest : List UInt16) (i : Nat) :
    unpairedAt (high :: low :: rest) (i + 2) = unpairedAt rest i := by
  cases i with
  | zero => simp [unpairedAt, isHighSurrogate_of_low hlow]
  | succ i => rfl

/-- The first unpaired surrogate behind units that are not. -/
theorem FirstUnpaired.shift {w rest : List UInt16} {i n : Nat} (h : FirstUnpaired rest i)
    (hbefore : ∀ j < n, unpairedAt w j = false)
    (hrest : ∀ j, unpairedAt w (j + n) = unpairedAt rest j) : FirstUnpaired w (i + n) := by
  refine ⟨(hrest i).trans h.unpaired, fun j hj => ?_⟩
  by_cases hjn : j < n
  · exact hbefore j hjn
  · obtain ⟨k, rfl⟩ := Nat.exists_eq_add_of_le' (Nat.le_of_not_lt hjn)
    rw [hrest]
    exact h.first k (by omega)

/-- No unit is unpaired when neither those before nor those behind are. -/
theorem none_unpaired_shift {w rest : List UInt16} {n : Nat}
    (h : ∀ j, unpairedAt rest j = false) (hbefore : ∀ j < n, unpairedAt w j = false)
    (hrest : ∀ j, unpairedAt w (j + n) = unpairedAt rest j) (j : Nat) : unpairedAt w j = false := by
  by_cases hjn : j < n
  · exact hbefore j hjn
  · obtain ⟨k, rfl⟩ := Nat.exists_eq_add_of_le' (Nat.le_of_not_lt hjn)
    rw [hrest]
    exact h k

private theorem unpairedAt_unit {unit : UInt16} (h : isSurrogate unit = false)
    (rest : List UInt16) :
    unpairedAt (unit :: rest) 0 = false ∧
      ∀ i, unpairedAt (unit :: rest) (i + 1) = unpairedAt rest i := by
  rw [isSurrogate_eq, Bool.or_eq_false_iff] at h
  refine ⟨by simp [unpairedAt, h.1, h.2], unpairedAt_succ (by rw [h.1, Bool.false_and])⟩

private theorem unpairedAt_pair_before {high low : UInt16} (hhigh : isHighSurrogate high = true)
    (hlow : isLowSurrogate low = true) (rest : List UInt16) :
    ∀ j < 2, unpairedAt (high :: low :: rest) j = false := by
  have hnot : isLowSurrogate high = false := by
    rw [← Bool.not_eq_true]
    exact fun h => by simp [isHighSurrogate_of_low h] at hhigh
  intro j hj
  obtain rfl | rfl : j = 0 ∨ j = 1 := by omega
  · simp [unpairedAt, hlow, hnot]
  · simp [unpairedAt, hhigh, isHighSurrogate_of_low hlow]

/-- A surrogate that starts no pair is unpaired at the start. -/
theorem unpairedAt_surrogate {unit : UInt16} {rest : List UInt16} (hs : isSurrogate unit = true)
    (h : (isHighSurrogate unit && lowAt rest 0) = false) : unpairedAt (unit :: rest) 0 = true := by
  rw [isSurrogate_eq] at hs
  cases hhigh : isHighSurrogate unit with
  | false => simpa [unpairedAt, hhigh] using hs
  | true =>
    have hlow : lowAt rest 0 = false := by simpa [hhigh] using h
    simp [unpairedAt, hhigh, hlow]

/-! ### The strict decoder -/

/-- A decoding stops at the first unpaired surrogate, or goes to the end where there is none. -/
def StopsAtFirst (w : List UInt16) (index : Nat) (result : Checked (Except Nat (List UInt8))) :
    Prop :=
  (∃ i, FirstUnpaired w i ∧ result = .ok (.error (index + i))) ∨
    ((∀ i, unpairedAt w i = false) ∧ ∃ bytes, result = .ok (.ok bytes))

/-- What stops at the first of the rest stops at the first of it all. -/
theorem StopsAtFirst.shift {w rest : List UInt16} {index n : Nat}
    {result : Checked (Except Nat (List UInt8))} (h : StopsAtFirst rest (index + n) result)
    (hbefore : ∀ j < n, unpairedAt w j = false)
    (hrest : ∀ j, unpairedAt w (j + n) = unpairedAt rest j) : StopsAtFirst w index result := by
  obtain ⟨i, hi, hresult⟩ | ⟨hnone, hdecodes⟩ := h
  · refine .inl ⟨i + n, hi.shift hbefore hrest, ?_⟩
    rw [hresult]
    congr 2
    omega
  · exact .inr ⟨none_unpaired_shift hnone hbefore hrest, hdecodes⟩

private theorem stopsAtFirst_unit {unit : UInt16} {rest : List UInt16} {index : Nat}
    {result : Checked (Except Nat (List UInt8))} (hs : isSurrogate unit = false)
    (h : StopsAtFirst rest (index + 1) result) : StopsAtFirst (unit :: rest) index result := by
  obtain ⟨hzero, hsucc⟩ := unpairedAt_unit hs rest
  refine h.shift (fun j hj => ?_) hsucc
  obtain rfl : j = 0 := by omega
  exact hzero

private theorem stopsAtFirst_surrogate {unit : UInt16} {rest : List UInt16} {index : Nat}
    (hs : isSurrogate unit = true) (h : (isHighSurrogate unit && lowAt rest 0) = false) :
    StopsAtFirst (unit :: rest) index (.ok (.error index)) :=
  .inl ⟨0, ⟨unpairedAt_surrogate hs h, fun j hj => absurd hj (Nat.not_lt_zero j)⟩, rfl⟩

private theorem utf16ToUtf8_stops (w : List UInt16) (out : List UInt8) (index : Nat) :
    StopsAtFirst w index (utf16ToUtf8 w out index) := by
  induction w, out, index using utf16ToUtf8.induct with
  | case1 out index => exact .inr ⟨fun i => by cases i <;> rfl, out, by rw [utf16ToUtf8]⟩
  | case2 out index unit hs =>
    rw [utf16ToUtf8, if_pos hs]
    exact stopsAtFirst_surrogate hs (Bool.and_false _)
  | case3 out index unit hs ih =>
    have hnot : isSurrogate unit = false := by simpa using hs
    rw [utf16ToUtf8_unit hnot]
    exact stopsAtFirst_unit hnot ih
  | case4 out index high low rest hp ih =>
    obtain ⟨hhigh, hlow⟩ := Bool.and_eq_true_iff.mp hp
    obtain ⟨c, hpair, -⟩ := exists_char_of_pair hhigh hlow
    rw [utf16ToUtf8_pair hhigh hlow, hpair, Try.ok_bind]
    exact (ih c.val).shift (unpairedAt_pair_before hhigh hlow rest) (unpairedAt_pair hlow rest)
  | case5 out index high low rest hp hs =>
    rw [utf16ToUtf8, if_neg hp, if_pos hs]
    exact stopsAtFirst_surrogate hs (by simpa using hp)
  | case6 out index high low rest hp hs ih =>
    have hnot : isSurrogate high = false := by simpa using hs
    rw [utf16ToUtf8_unit hnot]
    exact stopsAtFirst_unit hnot ih

/-- What is decoded is text, so the error of reading it as text is never given. -/
theorem fromUtf8_of_utf16ToUtf8 {w : List UInt16} {bytes : List UInt8}
    (h : utf16ToUtf8 w [] 0 = .ok (.ok bytes)) : ∃ s, Str.fromUtf8 bytes = .ok s := by
  obtain ⟨chars, -, rfl⟩ := eq_encode_of_utf16ToUtf8 h
  rw [List.nil_append]
  exact ⟨⟨Utf8.encode chars, .encode chars⟩, Str.fromUtf8_bytes ⟨Utf8.encode chars, .encode chars⟩⟩

/-- Units read as text, or the first unpaired surrogate is reported. -/
theorem utf16ToStr_cases (w : List UInt16) :
    (∃ i, FirstUnpaired w i ∧ utf16ToStr w = .ok (.error i)) ∨
    ((∀ i, unpairedAt w i = false) ∧ ∃ s, utf16ToStr w = .ok (.ok s)) := by
  obtain ⟨i, hi, hdecode⟩ | ⟨hnone, bytes, hdecode⟩ := utf16ToUtf8_stops w [] 0
  · refine .inl ⟨i, hi, ?_⟩
    rw [utf16ToStr, hdecode, Try.ok_bind, Nat.zero_add]
    rfl
  · obtain ⟨s, hs⟩ := fromUtf8_of_utf16ToUtf8 hdecode
    refine .inr ⟨hnone, s, ?_⟩
    rw [utf16ToStr, hdecode, Try.ok_bind]
    exact congrArg Except.ok hs

/-- The error is the first unpaired surrogate. -/
theorem utf16ToStr_error_iff (w : List UInt16) (i : Nat) :
    utf16ToStr w = .ok (.error i) ↔ FirstUnpaired w i := by
  obtain ⟨k, hk, hresult⟩ | ⟨hnone, s, hresult⟩ := utf16ToStr_cases w
  · rw [hresult]
    constructor
    · intro h
      obtain rfl : k = i := Except.error.inj (Except.ok.inj h)
      exact hk
    · intro h
      obtain hlt | rfl | hgt := Nat.lt_trichotomy k i
      · exact absurd (h.first k hlt) (by simp [hk.unpaired])
      · rfl
      · exact absurd (hk.first i hgt) (by simp [h.unpaired])
  · refine iff_of_false (by simp [hresult]) fun h => ?_
    exact absurd (hnone i) (by simp [h.unpaired])

/-! ### The lossy decoder -/

private theorem replaceUnpaired_cons {unit : UInt16} {rest : List UInt16}
    (h : (isHighSurrogate unit && lowAt rest 0) = false) :
    replaceUnpaired (unit :: rest) =
      (if unpairedAt (unit :: rest) 0 then 0xFFFD else unit) :: replaceUnpaired rest := by
  rw [replaceUnpaired, List.mapIdx_cons]
  simp only [unpairedAt_succ h]
  rfl

private theorem replaceUnpaired_pair {high low : UInt16} (hhigh : isHighSurrogate high = true)
    (hlow : isLowSurrogate low = true) (rest : List UInt16) :
    replaceUnpaired (high :: low :: rest) = high :: low :: replaceUnpaired rest := by
  have hbefore := unpairedAt_pair_before hhigh hlow rest
  rw [replaceUnpaired, List.mapIdx_cons, List.mapIdx_cons, hbefore 0 (by omega),
    hbefore 1 (by omega)]
  simp only [Nat.add_assoc, unpairedAt_pair hlow]
  rfl

private theorem pairCodePoint_eq {high low : UInt16} {codePoint : UInt32}
    (h : pairCodePoint high low = .ok codePoint) :
    (0x10000 : UInt32) + ((high.toUInt32 - 0xD800) <<< (10 : UInt32)) + (low.toUInt32 - 0xDC00) =
      codePoint := by
  rw [pairCodePoint, Checked.subU32] at h
  split at h
  · rw [Try.ok_bind, Checked.subU32] at h
    split at h
    · exact Except.ok.inj h
    · cases h
  · cases h

/-- The character that stands for what is no text. -/
theorem exists_replacement : ∃ c : Char, c.val = 0xFFFD ∧ Utf16.units c = [0xFFFD] :=
  ⟨Char.ofNat 0xFFFD, rfl, rfl⟩

/-- The lossy decoder decodes the units with each unpaired surrogate replaced. -/
theorem utf16ToUtf8LossyHelp_eq (w : List UInt16) (out : List UInt8) :
    ∃ chars, replaceUnpaired w = Utf16.encode chars ∧
      utf16ToUtf8LossyHelp w out = out ++ Utf8.encode chars := by
  obtain ⟨r, hr, hunits⟩ := exists_replacement
  have hreplace {unit : UInt16} {rest : List UInt16} (hs : isSurrogate unit = true)
      (h : (isHighSurrogate unit && lowAt rest 0) = false) :
      replaceUnpaired (unit :: rest) = 0xFFFD :: replaceUnpaired rest := by
    rw [replaceUnpaired_cons h, if_pos (unpairedAt_surrogate hs h)]
  have hkeep {unit : UInt16} (rest : List UInt16) (hs : isSurrogate unit = false) :
      replaceUnpaired (unit :: rest) = unit :: replaceUnpaired rest := by
    have hhigh : isHighSurrogate unit = false := by
      rw [isSurrogate_eq, Bool.or_eq_false_iff] at hs
      exact hs.1
    rw [replaceUnpaired_cons (by rw [hhigh, Bool.false_and]), (unpairedAt_unit hs rest).1]
    rfl
  induction w, out using utf16ToUtf8LossyHelp.induct with
  | case1 out => exact ⟨[], rfl, by rw [utf16ToUtf8LossyHelp]; simp⟩
  | case2 out unit hs =>
    rw [utf16ToUtf8LossyHelp, if_pos hs, ← hr, appendCodePointUtf8_val,
      hreplace hs (Bool.and_false _)]
    exact encode_extend hunits ⟨[], rfl, by simp⟩
  | case3 out unit hs =>
    have hnot : isSurrogate unit = false := by simpa using hs
    obtain ⟨c, hval, hc⟩ := exists_char_of_unit hnot
    rw [utf16ToUtf8LossyHelp, if_neg hs, hval, appendCodePointUtf8_val, hkeep [] hnot]
    exact encode_extend hc ⟨[], rfl, by simp⟩
  | case4 out high low rest hp highBits lowBits codePoint ih =>
    obtain ⟨hhigh, hlow⟩ := Bool.and_eq_true_iff.mp hp
    obtain ⟨c, hpair, hc⟩ := exists_char_of_pair hhigh hlow
    have hcode : codePoint = c.val := pairCodePoint_eq hpair
    rw [hcode, appendCodePointUtf8_val] at ih
    rw [utf16ToUtf8LossyHelp, if_pos hp, replaceUnpaired_pair hhigh hlow]
    change ∃ chars, _ ∧ utf16ToUtf8LossyHelp rest (appendCodePointUtf8 out codePoint) = _
    rw [hcode, appendCodePointUtf8_val]
    exact encode_extend hc ih
  | case5 out high low rest hp hs ih =>
    rw [← hr, appendCodePointUtf8_val] at ih
    rw [utf16ToUtf8LossyHelp, if_neg hp, if_pos hs, ← hr, appendCodePointUtf8_val,
      hreplace hs (by simpa using hp)]
    exact encode_extend hunits ih
  | case6 out high low rest hp hs ih =>
    have hnot : isSurrogate high = false := by simpa using hs
    obtain ⟨c, hval, hc⟩ := exists_char_of_unit hnot
    rw [hval, appendCodePointUtf8_val] at ih
    rw [utf16ToUtf8LossyHelp, if_neg hp, if_neg hs, hval, appendCodePointUtf8_val,
      hkeep (low :: rest) hnot]
    exact encode_extend hc ih

/-- What is displayed is the strict decoding of the units with each unpaired surrogate replaced. -/
theorem utf16ToStr_replaceUnpaired (w : List UInt16) :
    utf16ToStr (replaceUnpaired w) = .ok (.ok (Str.fromUtf8Lossy (utf16ToUtf8Lossy w))) := by
  obtain ⟨chars, hchars, hlossy⟩ := utf16ToUtf8LossyHelp_eq w []
  have htext : Str.fromUtf8Lossy (Utf8.encode chars) = ⟨Utf8.encode chars, .encode chars⟩ :=
    Str.ext (Str.fromUtf8Lossy_bytes (.encode chars))
  rw [utf16ToUtf8Lossy, hlossy, hchars, utf16ToStr, utf16ToUtf8_encode, Try.ok_bind,
    List.nil_append,
    htext]
  exact congrArg Except.ok (Str.fromUtf8_bytes ⟨Utf8.encode chars, .encode chars⟩)

/-- Where nothing is unpaired, nothing is replaced. -/
theorem replaceUnpaired_of_none {w : List UInt16} (h : ∀ i, unpairedAt w i = false) :
    replaceUnpaired w = w := by
  rw [replaceUnpaired]
  simp only [h]
  exact List.ext_getElem (by simp) fun i _ _ => by simp

/-- Reading a Windows value as text never aborts. It fails exactly where a surrogate is unpaired,
with the index of the first one, and never because what was decoded is not UTF-8. What is displayed
is the strict decoding with U+FFFD in the place of each unpaired surrogate, so it is the text
whenever there is one. -/
theorem windows_unpaired (w : List UInt16) :
    (∃ result, (Path.windows w).toStr = .ok result ∧ (OsStr.windowsU16s w).toStrTry = .ok result) ∧
    ((∃ i, (Path.windows w).toStr = .ok (.error i)) ↔ ∃ i, unpairedAt w i = true) ∧
    (∀ i, (Path.windows w).toStr = .ok (.error i) ↔ FirstUnpaired w i) ∧
    (∀ i, (OsStr.windowsU16s w).toStrTry = .ok (.error i) ↔ FirstUnpaired w i) ∧
    (∀ bytes, utf16ToUtf8 w [] 0 = .ok (.ok bytes) → ∃ s, Str.fromUtf8 bytes = .ok s) ∧
    (Path.windows (replaceUnpaired w)).toStr = .ok (.ok (Path.windows w).display) ∧
    (OsStr.windowsU16s (replaceUnpaired w)).toStrTry =
      .ok (.ok (OsStr.windowsU16s w).display) ∧
    (∀ s, (Path.windows w).toStr = .ok (.ok s) → (Path.windows w).display = s) ∧
    (∀ s, (OsStr.windowsU16s w).toStrTry = .ok (.ok s) → (OsStr.windowsU16s w).display = s) := by
  have hdisplay (s : Str) (hs : utf16ToStr w = .ok (.ok s)) :
      Str.fromUtf8Lossy (utf16ToUtf8Lossy w) = s := by
    have hreplaced := utf16ToStr_replaceUnpaired w
    obtain ⟨i, hi, hresult⟩ | ⟨hnone, -⟩ := utf16ToStr_cases w
    · rw [hresult] at hs
      cases hs
    · rw [replaceUnpaired_of_none hnone, hs] at hreplaced
      exact (Except.ok.inj (Except.ok.inj hreplaced)).symm
  refine ⟨?_, ?_, utf16ToStr_error_iff w, utf16ToStr_error_iff w,
    fun bytes hbytes => fromUtf8_of_utf16ToUtf8 hbytes, utf16ToStr_replaceUnpaired w,
    utf16ToStr_replaceUnpaired w, hdisplay, hdisplay⟩
  · obtain ⟨i, -, hresult⟩ | ⟨-, s, hresult⟩ := utf16ToStr_cases w
    · exact ⟨_, hresult, hresult⟩
    · exact ⟨_, hresult, hresult⟩
  · constructor
    · rintro ⟨i, hi⟩
      exact ⟨i, ((utf16ToStr_error_iff w i).mp hi).unpaired⟩
    · rintro ⟨i, hi⟩
      obtain ⟨k, -, hresult⟩ | ⟨hnone, -⟩ := utf16ToStr_cases w
      · exact ⟨k, hresult⟩
      · exact absurd (hnone i) (by simp [hi])

/-- A high surrogate before a letter. -/
theorem windows_unpaired_high : (Path.windows [0x61, 0xD83D, 0x62]).toStr = .ok (.error 1) := by
  obtain ⟨-, -, hfirst, -⟩ := windows_unpaired [0x61, 0xD83D, 0x62]
  refine (hfirst 1).mpr ⟨rfl, fun j hj => ?_⟩
  obtain rfl : j = 0 := by omega
  rfl

end TrantorCli
