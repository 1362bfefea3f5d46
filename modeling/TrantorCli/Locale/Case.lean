import TrantorCli.Locale.Grammar

/-!
# The case of locales

Lowering a tag lowers each of its subtags, and no test that validation makes of a
subtag looks at the case of its letters. So strings that differ only in case have
one outcome, and the spelling that is kept does not enter equality.
-/

open Roc AsciiCase

namespace TrantorCli.Locale

/-- No byte class of the validator depends on case. -/
theorem lower_class (byte : UInt8) :
    isAsciiAlpha (lower byte) = isAsciiAlpha byte ∧
      isAsciiAlphanumeric (lower byte) = isAsciiAlphanumeric byte ∧
      (lower byte = 45 ↔ byte = 45) := by
  refine ⟨?_, ?_, ?_⟩ <;> grind [lower, isAsciiAlpha, isAsciiAlphanumeric, isAsciiDigit]

/-- The test for a lower-case letter does not depend on case. -/
theorem asciiByteEq_lower {subtag : Str} {expected : UInt8}
    (h : 97 ≤ expected ∧ expected ≤ 122) :
    asciiByteEq (asciiLower subtag).bytes expected = asciiByteEq subtag.bytes expected := by
  rw [asciiLower_bytes]
  match subtag.bytes with
  | [] => rfl
  | [byte] =>
    rw [List.map_singleton, asciiByteEq, asciiByteEq, Bool.eq_iff_iff]
    simp only [Bool.or_eq_true, beq_iff_eq]
    grind [lower]
  | _ :: _ :: _ => rfl

/-- The two letters that validation tests for. -/
theorem isMarker_lower (subtag : Str) :
    asciiByteEq (asciiLower subtag).bytes 120 = asciiByteEq subtag.bytes 120 ∧
      asciiByteEq (asciiLower subtag).bytes 105 = asciiByteEq subtag.bytes 105 :=
  ⟨asciiByteEq_lower (by decide), asciiByteEq_lower (by decide)⟩

private theorem hasInvalidCharacter_lower (subtag : Str) :
    hasInvalidCharacter (asciiLower subtag) = hasInvalidCharacter subtag := by
  have hclass : isAsciiAlphanumeric ∘ lower = isAsciiAlphanumeric :=
    funext fun byte => (lower_class byte).2.1
  rw [hasInvalidCharacter, hasInvalidCharacter, Str.toUtf8_eq, asciiLower_bytes, List.all_map,
    hclass]

private theorem all_isAsciiAlpha_lower (subtag : Str) :
    (asciiLower subtag).bytes.all isAsciiAlpha = subtag.bytes.all isAsciiAlpha := by
  have hclass : isAsciiAlpha ∘ lower = isAsciiAlpha := funext fun byte => (lower_class byte).1
  rw [asciiLower_bytes, List.all_map, hclass]

private theorem length_lower (subtag : Str) :
    (asciiLower subtag).bytes.length = subtag.bytes.length := by
  rw [asciiLower_bytes, List.length_map]

private theorem isEmpty_lower (subtag : Str) : (asciiLower subtag).isEmpty = subtag.isEmpty := by
  rw [Str.isEmpty, asciiLower_bytes, List.isEmpty_map, Str.isEmpty]

/-- The subtags of a lowered tag are the lowered subtags. -/
theorem splitOn_lower (input : Str) :
    (asciiLower input).splitOn (.lit "-") = (input.splitOn (.lit "-")).map asciiLower := by
  apply List.map_injective_iff.mpr Str.bytes_injective
  rw [splitOn_hyphen_bytes, asciiLower_bytes,
    SplitOn.splitOn_map fun byte _ => (lower_class byte).2.2, ← splitOn_hyphen_bytes,
    List.map_map, List.map_map]
  exact List.map_congr_left fun subtag _ => (asciiLower_bytes subtag).symm

private theorem validateExtensions_lower (subtags : List Str) :
    validateExtensions (subtags.map asciiLower) = validateExtensions subtags := by
  induction subtags with
  | nil => rfl
  | cons subtag rest ih =>
    rw [List.map_cons, validateExtensions, validateExtensions]
    simp only [Str.toUtf8_eq, length_lower, (isMarker_lower subtag).1, List.isEmpty_map, ih]

private theorem validateStructure_lower (subtags : List Str) :
    validateStructure (subtags.map asciiLower) = validateStructure subtags := by
  cases subtags with
  | nil => rfl
  | cons first rest =>
    obtain ⟨hx, hi⟩ := isMarker_lower first
    rw [List.map_cons, validateStructure, validateStructure]
    simp only [Str.toUtf8_eq, length_lower, hx, hi, List.isEmpty_map, all_isAsciiAlpha_lower,
      validateExtensions_lower]

/-- Validation, its error included, does not depend on case. -/
theorem validate_lower (input : Str) : validate (asciiLower input) = validate input := by
  have hany (p : Str → Bool) (hp : ∀ subtag, p (asciiLower subtag) = p subtag) :
      (((input.splitOn (.lit "-")).map asciiLower).any p) = (input.splitOn (.lit "-")).any p := by
    rw [List.any_map]
    exact congrArg _ (funext hp)
  simp only [validate, isEmpty_lower, splitOn_lower, hany _ isEmpty_lower,
    hany _ hasInvalidCharacter_lower, validateStructure_lower,
    hany (fun subtag => subtag.toUtf8.length > 8) fun subtag => by
      rw [Str.toUtf8_eq, Str.toUtf8_eq, length_lower]]

private theorem validate_congr {s t : Str} (h : SameButCase s.bytes t.bytes) :
    validate s = validate t := by
  rw [← validate_lower s, asciiLower_eq_iff.mpr h, validate_lower]

/-- A string parses exactly when it is in the grammar; the outcome is that of every string that
differs from it only in case; and parsed tags are equal when they differ in nothing else. -/
theorem parse_grammar (s : Str) :
    ((∃ locale, parse s = .ok locale) ↔ IsTag s.bytes) ∧
      (∀ t : Str, SameButCase s.bytes t.bytes →
        (parse s).map (fun _ => ()) = (parse t).map fun _ => ()) ∧
      ∀ (t : Str) (left right : Locale), parse s = .ok left → parse t = .ok right →
        (isEq left right = true ↔ SameButCase s.bytes t.bytes) := by
  refine ⟨?_, ?_, ?_⟩
  · rw [exists_parse_iff, validate_iff]
  · intro t h
    rw [map_parse, map_parse, validate_congr h]
  · intro t left right hleft hright
    rw [isEq_iff, parse_eq_ok_iff.mp hleft, parse_eq_ok_iff.mp hright]

end TrantorCli.Locale
