import TrantorCli.Path.Cutting

/-!
# The representations agree

In UTF-8 and in UTF-16 the separators, the dot and the backslash are marks, so each
of the three copies of `filename` and `ext` cuts the characters, and what is cut off
a text is text.
-/

open Roc Marked

namespace TrantorCli.Path

/-! ### UTF-8 and UTF-16 -/

/-- An ASCII byte is in the encoding of its own character only. -/
theorem val_of_mem_utf8 {byte : UInt8} {d : Char} (hbyte : byte.toNat < 128)
    (h : byte ∈ String.utf8EncodeChar d) : d.val.toNat = byte.toNat := by
  have hmax := Utf16.val_ranges d
  unfold String.utf8EncodeChar at h
  generalize d.val.toNat = v at h hmax ⊢
  simp only at h
  split at h
  · have hv := congrArg UInt8.toNat (List.mem_singleton.mp h)
    simp at hv
    omega
  -- Every byte of a longer encoding has its top bit.
  split at h
  · simp [← UInt8.toNat_inj] at h
    omega
  split at h
  · simp [← UInt8.toNat_inj] at h
    omega
  · simp [← UInt8.toNat_inj] at h
    omega

/-- A unit of a scalar value below the surrogates is in the encoding of its own character only. -/
theorem val_of_mem_units {unit : UInt16} {d : Char} (hunit : unit.toNat < 0xD800)
    (h : unit ∈ Utf16.units d) : d.val.toNat = unit.toNat := by
  have hmax := Utf16.val_ranges d
  unfold Utf16.units at h
  generalize d.val.toNat = v at h hmax ⊢
  simp only at h
  split at h
  · have hv := congrArg UInt16.toNat (List.mem_singleton.mp h)
    rw [UInt16.toNat_ofNat'] at hv
    omega
  · -- Both units of a pair are surrogates.
    simp [← UInt16.toNat_inj] at h
    omega

private theorem utf8EncodeChar_ne_nil (d : Char) : String.utf8EncodeChar d ≠ [] := by
  obtain ⟨first, rest, hshape, -⟩ := Utf8.utf8EncodeChar_shape d
  rw [hshape]
  exact List.cons_ne_nil first rest

private theorem units_ne_nil (d : Char) : Utf16.units d ≠ [] := by
  unfold Utf16.units
  simp only
  split <;> exact List.cons_ne_nil _ _

private theorem char_eq_of_val {c d : Char} (h : d.val.toNat = c.val.toNat) : d = c :=
  Char.ext (UInt32.toNat_inj.mp h)

private theorem mark_utf8_slash : Mark String.utf8EncodeChar '/' 47 :=
  ⟨rfl, fun _ h => char_eq_of_val (val_of_mem_utf8 (by decide) h)⟩

private theorem mark_utf8_dot : Mark String.utf8EncodeChar '.' 46 :=
  ⟨rfl, fun _ h => char_eq_of_val (val_of_mem_utf8 (by decide) h)⟩

private theorem mark_utf8_backslash : Mark String.utf8EncodeChar '\\' 92 :=
  ⟨rfl, fun _ h => char_eq_of_val (val_of_mem_utf8 (by decide) h)⟩

private theorem mark_units_slash : Mark Utf16.units '/' 47 :=
  ⟨rfl, fun _ h => char_eq_of_val (val_of_mem_units (by decide) h)⟩

private theorem mark_units_dot : Mark Utf16.units '.' 46 :=
  ⟨rfl, fun _ h => char_eq_of_val (val_of_mem_units (by decide) h)⟩

private theorem mark_units_backslash : Mark Utf16.units '\\' 92 :=
  ⟨rfl, fun _ h => char_eq_of_val (val_of_mem_units (by decide) h)⟩

/-! ### The operations -/

/-- Text made of characters. -/
def strOf (cs : List Char) : Str := ⟨Utf8.encode cs, .encode cs⟩

private theorem strFromValidUtf8_encode (cs : List Char) :
    strFromValidUtf8 (cs.flatMap String.utf8EncodeChar) = .ok (strOf cs) := by
  have hfrom : Str.fromUtf8 (cs.flatMap String.utf8EncodeChar) = .ok (strOf cs) :=
    Str.fromUtf8_bytes (strOf cs)
  rw [strFromValidUtf8, hfrom]

private theorem fromWindows_strOf (cs : List Char) :
    fromWindows (strOf cs) = .ok (.windows (Utf16.encode cs)) := by
  have hbytes : (strOf cs).toUtf8 = Utf8.encode cs := rfl
  rw [fromWindows, strToUtf16, hbytes, utf8ToUtf16_encode]
  rfl

/-- What the tests and the search of `filename` find in encoded characters. -/
theorem nameOf_cases {α : Type} [DecidableEq α] {f : Char → List α} {slash dot : α}
    {isSep : α → Bool} (hslash : Mark f '/' slash) (hdot : Mark f '.' dot) (hf : ∀ d, f d ≠ [])
    (cs : List Char) (hsep : ∀ a ∈ cs.flatMap f, isSep a = decide (a = slash)) :
    (endsWith (cs.flatMap f) slash = true ∧ nameOf cs = .error .isDirPath) ∨
    endsWith (cs.flatMap f) slash = false ∧
      ((endsWithTwo (cs.flatMap f) dot dot = true ∧ nameOf cs = .error .endsInDots) ∨
      endsWithTwo (cs.flatMap f) dot dot = false ∧
        ((∃ i name, findLastIndex isSep (cs.flatMap f) = some i ∧
          afterIndex (cs.flatMap f) i = .ok (name.flatMap f) ∧ nameOf cs = .ok name) ∨
        (findLastIndex isSep (cs.flatMap f) = none ∧ nameOf cs = .ok cs))) := by
  rw [← Bool.not_eq_true, ← Bool.not_eq_true, endsWith_flatMap hslash hf cs,
    endsWithTwo_flatMap hdot hf cs, nameOf]
  by_cases hdir : cs.getLast? = some '/'
  · exact .inl ⟨hdir, by rw [if_pos hdir]⟩
  refine .inr ⟨hdir, ?_⟩
  rw [if_neg hdir]
  by_cases hdots : cs.getLast? = some '.' ∧ cs.dropLast.getLast? = some '.'
  · exact .inl ⟨hdots, by rw [if_pos hdots]⟩
  refine .inr ⟨hdots, ?_⟩
  rw [if_neg hdots]
  obtain ⟨i, hi, hafter⟩ | ⟨hi, hnone⟩ := findLastIndex_cases hsep
  · exact .inl ⟨i, afterLast '/' cs, hi, by rw [hafter, afterLast_flatMap hslash cs], rfl⟩
  · have hmem : '/' ∉ cs := fun h => hnone (hslash.mem_flatMap_iff.mpr h)
    exact .inr ⟨hi, by rw [afterLast_of_notMem hmem]⟩

private theorem filename_utf8 (cs : List Char) :
    filename (.utf8 (strOf cs)) = .ok ((nameOf cs).map fun name => .utf8 (strOf name)) := by
  have hbytes : (strOf cs).toUtf8 = cs.flatMap String.utf8EncodeChar := rfl
  rw [filename, hbytes, endsWithU8, endsWithTwoU8, afterIndexU8]
  have hsep : ∀ a ∈ cs.flatMap String.utf8EncodeChar, (a == 47) = decide (a = 47) := fun _ _ => rfl
  obtain ⟨hdir, hname⟩ | ⟨hdir, ⟨hdots, hname⟩ | ⟨hdots, ⟨i, name, hi, hafter, hname⟩ |
    ⟨hi, hname⟩⟩⟩ := nameOf_cases mark_utf8_slash mark_utf8_dot utf8EncodeChar_ne_nil cs hsep
  · simp only [hdir, hname]
    rfl
  · simp only [hdir, hdots, hname]
    rfl
  · simp only [hdir, hdots, hi, hafter, hname, Try.ok_bind, strFromValidUtf8_encode]
    rfl
  · simp only [hdir, hdots, hi, hname]
    rfl

private theorem filename_unix (cs : List Char) :
    filename (.unix (Utf8.encode cs)) =
      .ok ((nameOf cs).map fun name => .unix (Utf8.encode name)) := by
  rw [filename, Utf8.encode, endsWithU8, endsWithTwoU8, afterIndexU8]
  have hsep : ∀ a ∈ cs.flatMap String.utf8EncodeChar, (a == 47) = decide (a = 47) := fun _ _ => rfl
  obtain ⟨hdir, hname⟩ | ⟨hdir, ⟨hdots, hname⟩ | ⟨hdots, ⟨i, name, hi, hafter, hname⟩ |
    ⟨hi, hname⟩⟩⟩ := nameOf_cases mark_utf8_slash mark_utf8_dot utf8EncodeChar_ne_nil cs hsep
  · simp only [hdir, hname]
    rfl
  · simp only [hdir, hdots, hname]
    rfl
  · simp only [hdir, hdots, hi, hafter, hname]
    rfl
  · simp only [hdir, hdots, hi, hname]
    rfl

private theorem filename_windows {cs : List Char} (hcs : '\\' ∉ cs) :
    filename (.windows (Utf16.encode cs)) =
      .ok ((nameOf cs).map fun name => .windows (Utf16.encode name)) := by
  have hback : 92 ∉ cs.flatMap Utf16.units :=
    fun h => hcs (mark_units_backslash.mem_flatMap_iff.mp h)
  have hend : endsWith (cs.flatMap Utf16.units) 92 = false := by
    rw [← Bool.not_eq_true, endsWith_iff]
    exact fun h => hback (List.mem_of_getLast? h)
  -- Where there is no backslash, the search for either separator is one for the slash.
  have hsep : ∀ a ∈ cs.flatMap Utf16.units, (a == 47 || a == 92) = decide (a = 47) := by
    intro a ha
    have hne : a ≠ 92 := fun h => hback (h ▸ ha)
    rw [beq_eq_false_iff_ne.mpr hne, Bool.or_false]
    rfl
  rw [filename, Utf16.encode, endsWithU16, endsWithTwoU16, afterIndexU16]
  obtain ⟨hdir, hname⟩ | ⟨hdir, ⟨hdots, hname⟩ | ⟨hdots, ⟨i, name, hi, hafter, hname⟩ |
    ⟨hi, hname⟩⟩⟩ := nameOf_cases mark_units_slash mark_units_dot units_ne_nil cs hsep
  · simp only [hdir, hname]
    rfl
  · simp only [hdir, hend, hdots, hname]
    rfl
  · simp only [hdir, hend, hdots, hi, hafter, hname]
    rfl
  · simp only [hdir, hend, hdots, hi, hname]
    rfl

private theorem ext_utf8 (cs : List Char) :
    ext (.utf8 (strOf cs)) = .ok ((nameOf cs).map fun name => .utf8 (strOf (extOf name))) := by
  rw [ext, filename_utf8, Try.ok_bind]
  cases nameOf cs with
  | error err => rfl
  | ok name =>
    have hext := afterFirst_drop_flatMap mark_utf8_dot utf8EncodeChar_ne_nil name
    have hbytes : (strOf name).toUtf8 = name.flatMap String.utf8EncodeChar := rfl
    simp only [Except.map]
    rw [extUnitsU8, hbytes, extUnits_eq, hext, Try.ok_bind, strFromValidUtf8_encode]
    rfl

private theorem ext_unix (cs : List Char) :
    ext (.unix (Utf8.encode cs)) =
      .ok ((nameOf cs).map fun name => .unix (Utf8.encode (extOf name))) := by
  rw [ext, filename_unix, Try.ok_bind]
  cases nameOf cs with
  | error err => rfl
  | ok name =>
    have hext := afterFirst_drop_flatMap mark_utf8_dot utf8EncodeChar_ne_nil name
    simp only [Except.map]
    rw [extUnitsU8, Utf8.encode, extUnits_eq, hext]
    rfl

private theorem ext_windows {cs : List Char} (hcs : '\\' ∉ cs) :
    ext (.windows (Utf16.encode cs)) =
      .ok ((nameOf cs).map fun name => .windows (Utf16.encode (extOf name))) := by
  rw [ext, filename_windows hcs, Try.ok_bind]
  cases nameOf cs with
  | error err => rfl
  | ok name =>
    have hext := afterFirst_drop_flatMap mark_units_dot units_ne_nil name
    simp only [Except.map]
    rw [extUnitsU16, Utf16.encode, extUnits_eq, hext]
    rfl

/-- The same error, or the path that `make` makes of the same text. -/
def SameText (make : Str → Checked Path) : Except FilenameErr Str →
    Checked (Except FilenameErr Path) → Prop
  | .error err, result => result = .ok (.error err)
  | .ok text, result => ∃ path, make text = .ok path ∧ result = .ok (.ok path)

/-- An operation that gives the same in every representation of a text, and so never aborts. -/
def Agrees (op : Path → Checked (Except FilenameErr Path)) (s : Str) : Prop :=
  ∃ text, SameText (fun t => .ok (.utf8 t)) text (op (.utf8 s)) ∧
    SameText (fun t => .ok (fromUnix t)) text (op (fromUnix s)) ∧
    (92 ∉ s.bytes → ∃ path, fromWindows s = .ok path ∧ SameText fromWindows text (op path))

private theorem agrees_of_chars {op : Path → Checked (Except FilenameErr Path)}
    {g : List Char → Except FilenameErr (List Char)}
    (hutf8 : ∀ cs, op (.utf8 (strOf cs)) = .ok ((g cs).map fun t => .utf8 (strOf t)))
    (hunix : ∀ cs, op (.unix (Utf8.encode cs)) = .ok ((g cs).map fun t => .unix (Utf8.encode t)))
    (hwindows : ∀ cs, '\\' ∉ cs →
      op (.windows (Utf16.encode cs)) = .ok ((g cs).map fun t => .windows (Utf16.encode t)))
    (s : Str) : Agrees op s := by
  obtain ⟨cs, hcs⟩ := s.valid
  obtain rfl : s = strOf cs := Str.ext hcs
  refine ⟨(g cs).map strOf, ?_, ?_, fun hback => ?_⟩
  · rw [hutf8]
    cases g cs with
    | error err => exact rfl
    | ok text => exact ⟨_, rfl, rfl⟩
  · have hfrom : fromUnix (strOf cs) = .unix (Utf8.encode cs) := rfl
    rw [hfrom, hunix]
    cases g cs with
    | error err => exact rfl
    | ok text => exact ⟨_, rfl, rfl⟩
  · have hnot : '\\' ∉ cs := fun h => hback (mark_utf8_backslash.mem_flatMap_iff.mpr h)
    refine ⟨_, fromWindows_strOf cs, ?_⟩
    rw [hwindows cs hnot]
    cases g cs with
    | error err => exact rfl
    | ok text => exact ⟨_, fromWindows_strOf text, rfl⟩

/-- The file name and the extension of a path do not depend on its representation, and slicing text
at a separator or a dot never ends the program. -/
theorem filename_ext_agree (s : Str) : Agrees filename s ∧ Agrees ext s := by
  refine ⟨agrees_of_chars filename_utf8 filename_unix (fun cs h => filename_windows h) s, ?_⟩
  refine agrees_of_chars (g := fun cs => (nameOf cs).map extOf) (fun cs => ?_) (fun cs => ?_)
    (fun cs h => ?_) s
  · rw [ext_utf8]
    cases nameOf cs <;> rfl
  · rw [ext_unix]
    cases nameOf cs <;> rfl
  · rw [ext_windows h]
    cases nameOf cs <;> rfl

end TrantorCli.Path
