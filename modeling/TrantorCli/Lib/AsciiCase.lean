import Mathlib.Data.List.Forall2
import TrantorCli.Lib.Str

/-!
# ASCII letter case

Two texts differ only in case when they agree byte for byte up to the case of
letters. Lowering is the test for it: it turns text into text, and two texts have
one lowered form exactly when they differ only in case.
-/

open Roc

namespace AsciiCase

/-- One byte in lower case. -/
def lower (byte : UInt8) : UInt8 := if 65 ≤ byte && byte ≤ 90 then byte + 32 else byte

/-- The same byte, or one letter in both cases. -/
def SameLetter (a b : UInt8) : Prop :=
  a = b ∨ (65 ≤ a ∧ a ≤ 90 ∧ b = a + 32) ∨ (65 ≤ b ∧ b ≤ 90 ∧ a = b + 32)

/-- The same text up to the case of its ASCII letters. -/
def SameButCase (s t : List UInt8) : Prop := List.Forall₂ SameLetter s t

/-- Lower-case letters are not in the range that is lowered. -/
theorem lower_eq_iff {a b : UInt8} : lower a = lower b ↔ SameLetter a b := by
  grind [lower, SameLetter]

/-- Lowercased, two strings are equal when they are the same but for case. -/
theorem map_lower_eq_iff {s t : List UInt8} : s.map lower = t.map lower ↔ SameButCase s t := by
  rw [← List.forall₂_eq_eq_eq, List.forall₂_map_left_iff, List.forall₂_map_right_iff]
  exact ⟨fun h => h.imp fun _ _ => lower_eq_iff.mp, fun h => h.imp fun _ _ => lower_eq_iff.mpr⟩

/-- Text is lowered byte by byte, since bytes beyond ASCII stay. -/
theorem fromUtf8Lossy_lower (s : Str) :
    (Str.fromUtf8Lossy (s.bytes.map lower)).bytes = s.bytes.map lower := by
  have hbyte (byte : UInt8) : byte = lower byte ∨ byte < 128 ∧ lower byte < 128 := by
    grind [lower]
  have hchange : List.Forall₂ (fun x y => x = y ∨ x < 128 ∧ y < 128) s.bytes
      (s.bytes.map lower) :=
    List.forall₂_map_right_iff.mpr (List.forall₂_same.mpr fun byte _ => hbyte byte)
  have hvalid : Utf8.Valid ([] ++ s.bytes) := s.valid
  exact Str.fromUtf8Lossy_bytes (Utf8.Valid.replace hvalid hchange)

end AsciiCase
