import TrantorCli.Locale

/-!
# The grammar of locales

Which tags are accepted, in terms of their subtags and not of the order in which
the parser looks at them. The extension check walks past subtags that are single
characters and stops at `x`; what remains of it is a condition on the last subtag
and on whether an `x` comes before it.
-/

open Roc AsciiCase

namespace TrantorCli.Locale

/-- An ASCII letter. -/
def IsLetter (byte : UInt8) : Prop := 65 ≤ byte ∧ byte ≤ 90 ∨ 97 ≤ byte ∧ byte ≤ 122

/-- An ASCII letter or digit. -/
def IsLetterOrDigit (byte : UInt8) : Prop := IsLetter byte ∨ 48 ≤ byte ∧ byte ≤ 57

/-- One to eight ASCII letters and digits. -/
def IsSubtag (subtag : List UInt8) : Prop :=
  1 ≤ subtag.length ∧ subtag.length ≤ 8 ∧ ∀ byte ∈ subtag, IsLetterOrDigit byte

/-- `x` in either case. -/
def IsPrivateUse (subtag : List UInt8) : Prop := subtag = [120] ∨ subtag = [88]

/-- `i` in either case. -/
def IsGrandfathered (subtag : List UInt8) : Prop := subtag = [105] ∨ subtag = [73]

/-- The last of some subtags is longer than one character, or an `x` comes before it. -/
def Ends (subtags : List (List UInt8)) : Prop :=
  (∃ subtag ∈ subtags.dropLast, IsPrivateUse subtag) ∨
    ∀ last ∈ subtags.getLast?, 1 < last.length

/-- The grammar of tags, on the subtags of one. -/
structure WellFormed (first : List UInt8) (rest : List (List UInt8)) : Prop where
  /-- Every subtag is well formed by itself. -/
  subtags : ∀ subtag ∈ first :: rest, IsSubtag subtag
  /-- The tag starts with a language, or with an `x` or `i` that something follows. -/
  language : (2 ≤ first.length ∧ first.length ≤ 8 ∧ ∀ byte ∈ first, IsLetter byte) ∨
    ((IsPrivateUse first ∨ IsGrandfathered first) ∧ rest ≠ [])
  /-- Only private use ends in a single character. -/
  ends : Ends (first :: rest)

/-- A tag: well-formed subtags with hyphens between them. -/
def IsTag (tag : List UInt8) : Prop :=
  ∃ first rest, tag = [45].intercalate (first :: rest) ∧ WellFormed first rest

/-! ### Bytes and subtags -/

private theorem hyphen_bytes : (Str.lit "-").bytes = [45] := by decide

private theorem isAsciiAlpha_iff {byte : UInt8} : isAsciiAlpha byte = true ↔ IsLetter byte := by
  grind [isAsciiAlpha, IsLetter]

private theorem isAsciiAlphanumeric_iff {byte : UInt8} :
    isAsciiAlphanumeric byte = true ↔ IsLetterOrDigit byte := by
  grind [isAsciiAlphanumeric, isAsciiAlpha, isAsciiDigit, IsLetterOrDigit, IsLetter]

private theorem hasInvalidCharacter_iff {subtag : Str} :
    hasInvalidCharacter subtag = false ↔ ∀ byte ∈ subtag.bytes, IsLetterOrDigit byte := by
  simp only [hasInvalidCharacter, Bool.not_eq_false', List.all_eq_true, Str.toUtf8_eq,
    isAsciiAlphanumeric_iff]

/-- A test against a lower-case letter accepts it in either case. -/
theorem asciiByteEq_iff {bytes : List UInt8} {expected : UInt8} :
    asciiByteEq bytes expected = true ↔ bytes = [expected] ∨ bytes = [expected - 32] := by
  unfold asciiByteEq
  split
  · next byte => simp
  · next h =>
    simp only [Bool.false_eq_true, false_iff, not_or]
    exact ⟨h expected, h (expected - 32)⟩

private theorem isPrivateUse_iff {bytes : List UInt8} :
    asciiByteEq bytes 120 = true ↔ IsPrivateUse bytes :=
  asciiByteEq_iff

private theorem isGrandfathered_iff {bytes : List UInt8} :
    asciiByteEq bytes 105 = true ↔ IsGrandfathered bytes :=
  asciiByteEq_iff

private theorem IsPrivateUse.length {subtag : List UInt8} (h : IsPrivateUse subtag) :
    subtag.length = 1 := by
  obtain rfl | rfl := h <;> rfl

private theorem IsGrandfathered.length {subtag : List UInt8} (h : IsGrandfathered subtag) :
    subtag.length = 1 := by
  obtain rfl | rfl := h <;> rfl

private theorem ends_nil : Ends [] := .inr (by simp)

private theorem ends_singleton {subtag : List UInt8} : Ends [subtag] ↔ 1 < subtag.length := by
  simp [Ends]

/-- The last subtag stays the last one behind another. -/
theorem ends_cons {subtag : List UInt8} {rest : List (List UInt8)} (h : rest ≠ []) :
    Ends (subtag :: rest) ↔ IsPrivateUse subtag ∨ Ends rest := by
  obtain ⟨next, rest, rfl⟩ := List.exists_cons_of_ne_nil h
  rw [Ends, Ends, List.dropLast_cons_cons, List.getLast?_cons_cons, List.exists_mem_cons_iff,
    or_assoc]

/-! ### Validation -/

/-- The walk over the extensions decides how a tag ends. -/
theorem validateExtensions_iff {subtags : List Str} (h : ∀ subtag ∈ subtags, subtag.bytes ≠ []) :
    validateExtensions subtags = .ok () ↔ Ends (subtags.map Str.bytes) := by
  induction subtags with
  | nil => exact iff_of_true rfl ends_nil
  | cons subtag rest ih =>
    have hrest := ih fun next hnext => h next (List.mem_cons_of_mem _ hnext)
    have hpos := List.length_pos_iff.mpr (h subtag List.mem_cons_self)
    rw [validateExtensions]
    simp only [Str.toUtf8_eq, List.isEmpty_iff]
    by_cases hempty : rest = []
    · subst hempty
      rw [if_pos rfl, List.map_singleton, ends_singleton]
      split
      · next hlen => simp [hlen]
      · next hlen => exact iff_of_true rfl (by omega)
    · rw [if_neg hempty, List.map_cons, ends_cons (by simpa using hempty), ← isPrivateUse_iff]
      by_cases hprivate : asciiByteEq subtag.bytes 120 = true
      · rw [if_pos (isPrivateUse_iff.mp hprivate).length, if_pos hprivate]
        exact iff_of_true rfl (.inl hprivate)
      · rw [if_neg hprivate, ite_self, hrest, or_iff_right hprivate]

/-- After an `x` or `i` something has to follow, and after `i` it is checked. -/
theorem validateStructure_marker {first : Str} {rest : List Str}
    (h : IsPrivateUse first.bytes ∨ IsGrandfathered first.bytes) :
    validateStructure (first :: rest) = .ok () ↔
      rest ≠ [] ∧ (IsPrivateUse first.bytes ∨ validateExtensions rest = .ok ()) := by
  have hlen : first.bytes.length = 1 := h.elim IsPrivateUse.length IsGrandfathered.length
  rw [← isPrivateUse_iff, ← isGrandfathered_iff] at h
  rw [validateStructure, ← isPrivateUse_iff]
  simp only [Str.toUtf8_eq, hlen, beq_self_eq_true, Bool.true_and, Bool.or_eq_true, if_pos h,
    List.isEmpty_iff]
  by_cases hempty : rest = []
  · simp [hempty]
  · rw [if_neg hempty]
    split
    · next hprivate => simp [hempty, hprivate]
    · next hprivate => simp [hempty, hprivate]

/-- Every other first subtag has to be a language. -/
theorem validateStructure_language {first : Str} {rest : List Str}
    (h : ¬(IsPrivateUse first.bytes ∨ IsGrandfathered first.bytes)) :
    validateStructure (first :: rest) = .ok () ↔
      (2 ≤ first.bytes.length ∧ ∀ byte ∈ first.bytes, IsLetter byte) ∧
        validateExtensions rest = .ok () := by
  rw [← isPrivateUse_iff, ← isGrandfathered_iff, ← Bool.or_eq_true, Bool.not_eq_true] at h
  have hletters : first.bytes.all isAsciiAlpha = true ↔ ∀ byte ∈ first.bytes, IsLetter byte := by
    simp only [List.all_eq_true, isAsciiAlpha_iff]
  rw [validateStructure, ← hletters]
  simp only [Str.toUtf8_eq, h, Bool.and_false, Bool.false_eq_true, if_false]
  split
  · next hbad =>
    simp only [Bool.or_eq_true, decide_eq_true_eq, Bool.not_eq_true'] at hbad
    refine iff_of_false (by simp) ?_
    rintro ⟨⟨hlen, hall⟩, -⟩
    rw [hall] at hbad
    rcases hbad with hshort | hfalse
    · omega
    · cases hfalse
  · next hgood =>
    simp only [Bool.or_eq_true, decide_eq_true_eq, Bool.not_eq_true', not_or,
      Bool.not_eq_false] at hgood
    exact (and_iff_right ⟨by omega, hgood.2⟩).symm

/-- The checks on the first subtag and on the extensions, for subtags that are well formed. -/
theorem validateStructure_iff {first : Str} {rest : List Str}
    (h : ∀ subtag ∈ first :: rest, IsSubtag subtag.bytes) :
    validateStructure (first :: rest) = .ok () ↔
      WellFormed first.bytes (rest.map Str.bytes) := by
  have hsubtags : ∀ subtag ∈ first.bytes :: rest.map Str.bytes, IsSubtag subtag := by
    rw [← List.map_cons, List.forall_mem_map]
    exact h
  have hextensions : validateExtensions rest = .ok () ↔ Ends (rest.map Str.bytes) := by
    refine validateExtensions_iff fun subtag hmem => ?_
    exact List.length_pos_iff.mp (h subtag (List.mem_cons_of_mem _ hmem)).1
  by_cases hmarker : IsPrivateUse first.bytes ∨ IsGrandfathered first.bytes
  · have hlen : first.bytes.length = 1 := hmarker.elim IsPrivateUse.length IsGrandfathered.length
    rw [validateStructure_marker hmarker, hextensions]
    constructor
    · rintro ⟨hne, hrest⟩
      have hne' : rest.map Str.bytes ≠ [] := by simpa using hne
      exact ⟨hsubtags, .inr ⟨hmarker, hne'⟩, (ends_cons hne').mpr hrest⟩
    · rintro ⟨-, ⟨hlong, -⟩ | ⟨-, hne⟩, hends⟩
      · omega
      · exact ⟨by simpa using hne, (ends_cons hne).mp hends⟩
  · rw [validateStructure_language hmarker, hextensions]
    constructor
    · rintro ⟨⟨hlong, hletters⟩, hrest⟩
      refine ⟨hsubtags, .inl ⟨hlong, (h first List.mem_cons_self).2.1, hletters⟩, ?_⟩
      by_cases hempty : rest.map Str.bytes = []
      · rw [hempty]
        exact ends_singleton.mpr hlong
      · exact (ends_cons hempty).mpr (.inr hrest)
    · rintro ⟨-, ⟨hlong, -, hletters⟩ | ⟨hspecial, -⟩, hends⟩
      · refine ⟨⟨hlong, hletters⟩, ?_⟩
        by_cases hempty : rest.map Str.bytes = []
        · rw [hempty]
          exact ends_nil
        · exact ((ends_cons hempty).mp hends).resolve_left fun hx => hmarker (.inl hx)
      · exact absurd hspecial hmarker

/-- The subtags of a tag, as bytes. -/
theorem splitOn_hyphen_bytes (input : Str) :
    (input.splitOn (.lit "-")).map Str.bytes = input.bytes.splitOn 45 := by
  rw [Str.splitOn_bytes, hyphen_bytes, Cut.pieces_singleton]

/-- The empty string has an empty subtag. -/
theorem not_isEmpty_of_subtags {input : Str}
    (h : ∀ subtag ∈ input.splitOn (.lit "-"), IsSubtag subtag.bytes) : ¬input.isEmpty = true := by
  intro hempty
  have hsubtags : ∀ subtag ∈ input.bytes.splitOn 45, IsSubtag subtag := by
    rw [← splitOn_hyphen_bytes, List.forall_mem_map]
    exact h
  rw [Str.isEmpty_iff.mp hempty] at hsubtags
  exact absurd (hsubtags [] (by simp)).1 (by simp)

/-- The three checks on single subtags ask for letters and digits, one to eight of them. -/
theorem isSubtag_iff {subtag : Str} :
    IsSubtag subtag.bytes ↔ ¬subtag.isEmpty = true ∧ ¬hasInvalidCharacter subtag = true ∧
      ¬subtag.toUtf8.length > 8 := by
  rw [IsSubtag, Str.isEmpty_iff, Bool.not_eq_true, hasInvalidCharacter_iff, ← ne_eq,
    ← List.length_pos_iff, gt_iff_lt, Nat.not_lt]
  exact and_congr_right fun _ => and_comm

/-- Validation checks each subtag first, and then the structure of them all. -/
theorem validate_eq_ok_iff {input : Str} :
    validate input = .ok () ↔ (∀ subtag ∈ input.splitOn (.lit "-"), IsSubtag subtag.bytes) ∧
      validateStructure (input.splitOn (.lit "-")) = .ok () := by
  have hfailed {p : Str → Bool} (h : (input.splitOn (.lit "-")).any p = true)
      (hp : ∀ subtag : Str, p subtag = true → ¬IsSubtag subtag.bytes) :
      ¬∀ subtag ∈ input.splitOn (.lit "-"), IsSubtag subtag.bytes := by
    obtain ⟨subtag, hmem, hbad⟩ := List.any_eq_true.mp h
    exact fun hall => hp subtag hbad (hall subtag hmem)
  simp only [validate]
  split
  · next hempty =>
    exact iff_of_false (by simp) fun h => not_isEmpty_of_subtags h.1 hempty
  split
  · next hany =>
    exact iff_of_false (by simp) fun h =>
      hfailed hany (fun subtag hbad hok => (isSubtag_iff.mp hok).1 hbad) h.1
  split
  · next hany =>
    exact iff_of_false (by simp) fun h =>
      hfailed hany (fun subtag hbad hok => (isSubtag_iff.mp hok).2.1 hbad) h.1
  split
  · next hany =>
    exact iff_of_false (by simp) fun h =>
      hfailed hany (fun subtag hbad hok => (isSubtag_iff.mp hok).2.2 (of_decide_eq_true hbad)) h.1
  · next hempty hinvalid hlong =>
    refine (and_iff_right fun subtag hmem => isSubtag_iff.mpr ⟨?_, ?_, ?_⟩).symm
    · exact fun h => hempty (List.any_eq_true.mpr ⟨subtag, hmem, h⟩)
    · exact fun h => hinvalid (List.any_eq_true.mpr ⟨subtag, hmem, h⟩)
    · exact fun h => hlong (List.any_eq_true.mpr ⟨subtag, hmem, decide_eq_true h⟩)

/-- The grammar read on the subtags that splitting finds. -/
theorem isTag_iff {tag : List UInt8} :
    IsTag tag ↔ ∃ first rest, tag.splitOn 45 = first :: rest ∧ WellFormed first rest := by
  refine exists₂_congr fun first rest => ⟨fun ⟨htag, h⟩ => ⟨?_, h⟩, fun ⟨htag, h⟩ => ⟨?_, h⟩⟩
  · rw [htag]
    refine List.splitOn_intercalate 45 (fun subtag hmem hhyphen => ?_) (by simp)
    rcases (h.subtags subtag hmem).2.2 45 hhyphen with (hletter | hletter) | hdigit
    · exact absurd hletter.1 (by decide)
    · exact absurd hletter.1 (by decide)
    · exact absurd hdigit.1 (by decide)
  · rw [← htag, List.intercalate_splitOn]

/-- Validation accepts the strings of the grammar. -/
theorem validate_iff {input : Str} : validate input = .ok () ↔ IsTag input.bytes := by
  rw [validate_eq_ok_iff, isTag_iff, ← splitOn_hyphen_bytes]
  obtain ⟨first, rest, hsplit⟩ :=
    List.exists_cons_of_ne_nil (Str.splitOn_ne_nil input (.lit "-"))
  rw [hsplit, List.map_cons]
  constructor
  · rintro ⟨hsubtags, hstructure⟩
    exact ⟨_, _, rfl, (validateStructure_iff hsubtags).mp hstructure⟩
  · rintro ⟨first', rest', heq, h⟩
    obtain ⟨rfl, rfl⟩ := List.cons.inj heq
    have hsubtags : ∀ subtag ∈ first :: rest, IsSubtag subtag.bytes := by
      have hbytes := h.subtags
      rwa [← List.map_cons, List.forall_mem_map] at hbytes
    exact ⟨hsubtags, (validateStructure_iff hsubtags).mpr h⟩

end TrantorCli.Locale
