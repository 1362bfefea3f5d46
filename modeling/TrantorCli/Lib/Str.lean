import TrantorCli.Lib.Cut
import TrantorCli.Lib.SplitOn
import TrantorCli.Lib.Utf8

/-!
# Strings as well-formed UTF-8

A `Str` is a byte list that carries the proof that it is UTF-8, as Roc's `Str`
is. Every operation below builds that proof: splitting at a separator yields
strings because the separator is itself text, and decoding bytes either fails
with an index or replaces what is not text.
-/

namespace Roc

/-- Roc's `Str`: a list of bytes that is well-formed UTF-8. -/
@[ext] structure Str where
  /-- The UTF-8 bytes. -/
  bytes : List UInt8
  /-- The bytes encode Unicode scalar values. -/
  valid : Utf8.Valid bytes
  deriving DecidableEq

namespace Str

/-- A string that can exist: the length of a `Str` has 63 bits. -/
def Fits (s : Str) : Prop := s.bytes.length < 9223372036854775808

instance (s : Str) : Decidable s.Fits := inferInstanceAs (Decidable (_ < _))

/-- A string literal. -/
def lit (s : String) : Str := ⟨Utf8.encode s.toList, .encode _⟩

/-- `Str.to_utf8` -/
abbrev toUtf8 (s : Str) : List UInt8 := s.bytes

/-- `Str.from_utf8_lossy`: ill-formed sequences become U+FFFD. -/
def fromUtf8Lossy (bytes : List UInt8) : Str := ⟨Utf8.encode (Utf8.lossy bytes), .encode _⟩

/-- `Str.from_utf8`: the error is the index of the first ill-formed sequence. -/
def fromUtf8 (bytes : List UInt8) : Except Nat Str :=
  match h : Utf8.decodeFrom 0 bytes with
  | .ok chars => .ok ⟨bytes, chars, Utf8.encode_of_decodeFrom h⟩
  | .error index => .error index

/-- `Str.is_empty` -/
def isEmpty (s : Str) : Bool := s.bytes.isEmpty

/-- `Str.concat` -/
def concat (s t : Str) : Str := ⟨s.bytes ++ t.bytes, s.valid.append t.valid⟩

private theorem valid_parts {sep before after : List UInt8} (hsep : Utf8.Valid sep) (hne : sep ≠ [])
    (h : Utf8.Valid (before ++ sep ++ after)) : Utf8.Valid before ∧ Utf8.Valid after := by
  obtain ⟨chars, rfl⟩ := hsep
  cases chars with
  | nil => exact absurd rfl hne
  | cons c cs =>
    obtain ⟨first, rest, hshape, hfirst, -⟩ := Utf8.utf8EncodeChar_shape c
    have hcons : Utf8.encode (c :: cs) = first :: (rest ++ Utf8.encode cs) := by simp [hshape]
    rw [List.append_assoc, hcons, List.cons_append] at h
    obtain ⟨hbefore, hafter⟩ := h.cut hfirst
    refine ⟨hbefore, Utf8.Valid.of_append_left (.encode (c :: cs)) ?_⟩
    rwa [hcons, List.cons_append]

private theorem valid_pieces (s sep : Str) :
    ∀ piece ∈ Cut.pieces sep.bytes s.bytes, Utf8.Valid piece := by
  by_cases hsep : sep.bytes = []
  · rw [hsep, Cut.pieces, if_pos rfl]
    simpa using s.valid
  · exact Cut.forall_mem_pieces s.valid (valid_parts sep.valid hsep)

/-- `Str.split_on` -/
def splitOn (s sep : Str) : List Str :=
  (Cut.pieces sep.bytes s.bytes).pmap Str.mk (valid_pieces s sep)

private theorem valid_intercalate (sep : Str) (parts : List Str) :
    Utf8.Valid (sep.bytes.intercalate (parts.map bytes)) := by
  induction parts with
  | nil => exact .nil
  | cons p ps ih =>
    cases ps with
    | nil => simpa using p.valid
    | cons q qs =>
      rw [List.map_cons, List.map_cons, List.intercalate_cons_cons]
      exact (p.valid.append sep.valid).append (by simpa using ih)

/-- `Str.join_with` -/
def joinWith (parts : List Str) (sep : Str) : Str :=
  ⟨sep.bytes.intercalate (parts.map bytes), valid_intercalate sep parts⟩

/-- `Str.replace_each` -/
def replaceEach (s pattern replacement : Str) : Str := joinWith (s.splitOn pattern) replacement

/-- `str::strip_suffix`: the string without `suffix` at its end, if it ends in it. -/
def stripSuffix (s suffix : Str) : Option Str :=
  if h : suffix.bytes <:+ s.bytes then
    some ⟨s.bytes.take (s.bytes.length - suffix.bytes.length), suffix.valid.of_append_right
      (by rw [List.suffix_iff_eq_append.mp h]; exact s.valid)⟩
  else none

/-- `Str.contains` -/
def contains (s sub : Str) : Bool := sub.bytes.isEmpty || (Cut.cut sub.bytes s.bytes).isSome

/-- The bytes of a string are its encoding. -/
@[simp] theorem toUtf8_eq (s : Str) : s.toUtf8 = s.bytes := rfl

/-- The bytes of two strings, one after the other. -/
@[simp] theorem concat_bytes (s t : Str) : (s.concat t).bytes = s.bytes ++ t.bytes := rfl

/-- The bytes of strings that are joined. -/
@[simp] theorem joinWith_bytes (parts : List Str) (sep : Str) :
    (joinWith parts sep).bytes = sep.bytes.intercalate (parts.map bytes) := rfl

/-- The bytes of the pieces are the pieces of the bytes. -/
@[simp] theorem splitOn_bytes (s sep : Str) :
    (s.splitOn sep).map bytes = Cut.pieces sep.bytes s.bytes := by
  simp [splitOn, List.map_pmap]

/-- Only the string without bytes is empty. -/
@[simp] theorem isEmpty_iff {s : Str} : s.isEmpty = true ↔ s.bytes = [] := by
  simp [isEmpty]

/-- There is always a piece. -/
theorem splitOn_ne_nil (s sep : Str) : s.splitOn sep ≠ [] := by
  intro h
  have hmap := splitOn_bytes s sep
  rw [h] at hmap
  exact Cut.pieces_ne_nil _ _ hmap.symm

/-- Joining what a split yields gives the string back. -/
theorem joinWith_splitOn (s sep : Str) : joinWith (s.splitOn sep) sep = s := by
  ext1
  rw [joinWith_bytes, splitOn_bytes, Cut.intercalate_pieces]

/-- A string is its bytes. -/
theorem bytes_injective : Function.Injective bytes := fun _ _ h => Str.ext h

/-- Splitting what was joined gives the parts back when none holds the separator. -/
theorem splitOn_joinWith {parts : List Str} {sep : Str} {c : UInt8} (hsep : sep.bytes = [c])
    (hne : parts ≠ []) (h : ∀ part ∈ parts, c ∉ part.bytes) :
    (joinWith parts sep).splitOn sep = parts := by
  apply List.map_injective_iff.mpr bytes_injective
  rw [splitOn_bytes, joinWith_bytes, hsep, Cut.pieces_singleton]
  refine List.splitOn_intercalate c ?_ (by simpa using hne)
  simpa using h

/-- Text without the separator, put behind one, is the last piece. -/
theorem splitOn_concat {s sep last : Str} {c : UInt8} (hsep : sep.bytes = [c])
    (h : c ∉ last.bytes) :
    (concat (concat s sep) last).splitOn sep = s.splitOn sep ++ [last] := by
  apply List.map_injective_iff.mpr bytes_injective
  rw [List.map_append, splitOn_bytes, splitOn_bytes, concat_bytes, concat_bytes, hsep,
    Cut.pieces_singleton, Cut.pieces_singleton, List.append_assoc, List.singleton_append,
    SplitOn.splitOn_append_last _ h]
  rfl

/-- A piece holds no separator. -/
theorem not_mem_of_mem_splitOn {s sep piece : Str} {c : UInt8} (hsep : sep.bytes = [c])
    (h : piece ∈ s.splitOn sep) : c ∉ piece.bytes := by
  have hmem : piece.bytes ∈ (s.splitOn sep).map bytes := List.mem_map_of_mem h
  rw [splitOn_bytes, hsep, Cut.pieces_singleton] at hmem
  exact SplitOn.not_mem_of_mem hmem

/-- The pieces of a string that has the separator, from the left. -/
theorem splitOn_of_cut {str separator : Str} {before after : List UInt8}
    (hsep : separator.bytes ≠ []) (h : Cut.cut separator.bytes str.bytes = some (before, after)) :
    ∃ first rest, str.splitOn separator = first :: rest ∧ rest ≠ [] ∧ first.bytes = before ∧
      (joinWith rest separator).bytes = after := by
  have hmap := splitOn_bytes str separator
  rw [Cut.pieces_of_cut_some hsep h] at hmap
  cases hparts : str.splitOn separator with
  | nil => simp [hparts] at hmap
  | cons first rest =>
    rw [hparts, List.map_cons] at hmap
    obtain ⟨hfirst, hrest⟩ := List.cons.inj hmap
    refine ⟨first, rest, rfl, ?_, hfirst, ?_⟩
    · rintro rfl
      exact Cut.pieces_ne_nil _ _ hrest.symm
    · rw [joinWith_bytes, hrest, Cut.intercalate_pieces]

/-- A string without the separator is its only piece. -/
theorem splitOn_of_cut_none {str separator : Str}
    (h : Cut.cut separator.bytes str.bytes = none) : str.splitOn separator = [str] := by
  apply List.map_injective_iff.mpr bytes_injective
  rw [splitOn_bytes, Cut.pieces_of_cut_none h]
  rfl

/-- What a cut hands to both of its parts holds of every piece. -/
theorem forall_mem_splitOn {p : List UInt8 → Prop} {s sep : Str} (hs : p s.bytes)
    (hcut : ∀ {before after}, p (before ++ sep.bytes ++ after) → p before ∧ p after) :
    ∀ piece ∈ s.splitOn sep, p piece.bytes := by
  intro piece hpiece
  have hmem : piece.bytes ∈ (s.splitOn sep).map bytes := List.mem_map_of_mem hpiece
  rw [splitOn_bytes] at hmem
  exact Cut.forall_mem_pieces hs hcut _ hmem

/-! ### Lengths -/

/-- The pieces of a split and the separators between them make up the string. -/
theorem length_splitOn (s sep : Str) :
    s.bytes.length = ((s.splitOn sep).map bytes).flatten.length +
      sep.bytes.length * ((s.splitOn sep).length - 1) := by
  have hne : (s.splitOn sep).map bytes ≠ [] := mt List.map_eq_nil_iff.mp (splitOn_ne_nil s sep)
  have hjoin := congrArg (·.bytes.length) (joinWith_splitOn s sep)
  simp only [joinWith_bytes, SplitOn.length_intercalate _ hne, List.length_map] at hjoin
  exact hjoin.symm

/-- A string has at most one piece more than it has bytes. -/
theorem length_splitOn_le {s sep : Str} (hsep : sep.bytes ≠ []) :
    (s.splitOn sep).length ≤ s.bytes.length + 1 := by
  have hlen := length_splitOn s sep
  have hpos := List.length_pos_iff.mpr hsep
  have hmul : (s.splitOn sep).length - 1 ≤ sep.bytes.length * ((s.splitOn sep).length - 1) :=
    Nat.le_mul_of_pos_left _ hpos
  omega

/-- A piece of a string is not longer. -/
theorem Fits.of_mem_splitOn {s sep piece : Str} (h : s.Fits) (hmem : piece ∈ s.splitOn sep) :
    piece.Fits := by
  refine forall_mem_splitOn (p := fun bytes => bytes.length < 9223372036854775808) h ?_ piece hmem
  intro before after hlen
  simp only [List.length_append] at hlen
  exact ⟨by omega, by omega⟩

/-- Text survives lossy decoding. -/
theorem fromUtf8Lossy_bytes {bytes : List UInt8} (h : Utf8.Valid bytes) :
    (fromUtf8Lossy bytes).bytes = bytes := by
  obtain ⟨chars, rfl⟩ := h
  simp [fromUtf8Lossy, Utf8.lossy_encode]

/-- Text that is decoded loosely is itself. -/
@[simp] theorem fromUtf8Lossy_toUtf8 (s : Str) : fromUtf8Lossy s.bytes = s :=
  Str.ext (fromUtf8Lossy_bytes s.valid)

/-- Lossy decoding returns the bytes it was given exactly when they are text. -/
theorem fromUtf8Lossy_bytes_iff {bytes : List UInt8} :
    (fromUtf8Lossy bytes).bytes = bytes ↔ Utf8.Valid bytes :=
  ⟨fun h => h ▸ (fromUtf8Lossy bytes).valid, fromUtf8Lossy_bytes⟩

/-- Text that is decoded is itself. -/
@[simp] theorem fromUtf8_bytes (s : Str) : fromUtf8 s.bytes = .ok s := by
  obtain ⟨bytes, chars, rfl⟩ := s
  simp only [fromUtf8]
  split
  · rfl
  · next h => rw [Utf8.decodeFrom_encode] at h; cases h

/-- Strict decoding keeps the bytes. -/
theorem bytes_of_fromUtf8 {bytes : List UInt8} {s : Str} (h : fromUtf8 bytes = .ok s) :
    s.bytes = bytes := by
  unfold fromUtf8 at h
  split at h
  · cases h; rfl
  · cases h

end Str

end Roc
