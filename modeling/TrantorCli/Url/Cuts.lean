import Mathlib.Data.List.TakeWhile
import TrantorCli.Url.Operations

/-!
# Where an absolute URL is cut

`split_scheme` cuts behind the first colon, if what precedes it is a scheme in
some case, and `split_authority` in front of the first delimiter. Both are exact:
a text is cut in the one place where the parts have the form they must have.
-/

open Roc

namespace TrantorCli.Url

/-! ### The scheme -/

/-- A scheme goes on through its bytes. -/
theorem schemeLength_some {bytes : List UInt8} {index : Nat} {byte : UInt8}
    (h : bytes[index]? = some byte) :
    schemeLength bytes index =
      if isSchemeByte byte then schemeLength bytes (index + 1) else index := by
  rw [schemeLength]
  split
  · next found hfound => rw [Option.some_inj.mp (h.symm.trans hfound)]
  · next hnone =>
    rw [h] at hnone
    cases hnone

/-- A scheme ends where the bytes do. -/
theorem schemeLength_none {bytes : List UInt8} {index : Nat} (h : bytes[index]? = none) :
    schemeLength bytes index = index := by
  rw [schemeLength]
  split
  · next found hfound =>
    rw [h] at hfound
    cases hfound
  · rfl

/-- The scheme name ends at the first byte that cannot belong to it. -/
theorem schemeLength_append {name rest : List UInt8} {stop : UInt8}
    (hname : ∀ byte ∈ name, isSchemeByte byte = true) (hstop : isSchemeByte stop = false)
    {index : Nat} (hindex : index ≤ name.length) :
    schemeLength (name ++ stop :: rest) index = name.length := by
  induction hn : name.length - index generalizing index with
  | zero =>
    have heq : index = name.length := by omega
    subst heq
    have hget : (name ++ stop :: rest)[name.length]? = some stop := by simp
    rw [schemeLength_some hget, hstop]
    rfl
  | succ n ih =>
    have hlt : index < name.length := by omega
    have hget : (name ++ stop :: rest)[index]? = some name[index] := by
      rw [List.getElem?_append_left hlt, List.getElem?_eq_getElem hlt]
    rw [schemeLength_some hget, if_pos (hname _ (List.getElem_mem hlt))]
    exact ih hlt (by omega)

/-- A name of scheme bytes that starts with a letter, before a colon, is the scheme. -/
theorem referenceScheme_of_bytes {reference name : Str} {first : UInt8} {tail rest : List UInt8}
    (hreference : reference.bytes = name.bytes ++ 58 :: rest) (hname : name.bytes = first :: tail)
    (hfirst : isAlpha first = true) (hbytes : ∀ byte ∈ name.bytes, isSchemeByte byte = true) :
    referenceScheme reference = some name := by
  have hlen : schemeLength reference.bytes 0 = name.bytes.length := by
    rw [hreference]
    exact schemeLength_append hbytes (by decide) (Nat.zero_le _)
  have htake : reference.bytes.take name.bytes.length = name.bytes := by
    rw [hreference, List.take_left]
  have hhead : name.bytes.head? = some first := by rw [hname]; rfl
  have hcolon : reference.bytes[name.bytes.length]? = some 58 := by
    rw [hreference]
    simp
  unfold referenceScheme
  simp only [Str.toUtf8_eq, hlen, htake, hhead, hcolon, hfirst, Str.fromUtf8Lossy_toUtf8]
  rfl

/-- A colon follows the scheme. -/
theorem bytes_of_referenceScheme {reference name : Str}
    (h : referenceScheme reference = some name) :
    ∃ rest, reference.bytes = name.bytes ++ 58 :: rest := by
  unfold referenceScheme at h
  simp only [Str.toUtf8_eq] at h
  split at h
  · next first after hfirst hafter =>
    split at h
    · next hcolon =>
      simp only [Bool.and_eq_true, beq_iff_eq] at hcolon
      obtain ⟨rfl, -⟩ := hcolon
      have htake : reference.bytes.take
          (reference.bytes.take (schemeLength reference.bytes 0)).length =
            reference.bytes.take (schemeLength reference.bytes 0) := by
        rw [List.length_take, List.take_eq_take_min, Nat.min_comm]
        simp
      generalize reference.bytes.take (schemeLength reference.bytes 0) = found at h hafter htake
      obtain ⟨hlt, hget⟩ := List.getElem?_eq_some_iff.mp hafter
      have hbytes : reference.bytes = found ++ 58 :: reference.bytes.drop (found.length + 1) := by
        conv_lhs => rw [← List.take_append_drop found.length reference.bytes]
        rw [htake, List.drop_eq_getElem_cons hlt, hget]
      have hvalid := reference.valid
      rw [hbytes] at hvalid
      have hname := Str.fromUtf8Lossy_bytes (Utf8.Valid.cut hvalid (by decide)).1
      rw [← Option.some.inj h, hname]
      exact ⟨_, hbytes⟩
    · cases h
  · cases h

private theorem isAlpha_lowerByte (byte : UInt8) : isAlpha (lowerByte byte) = isAlpha byte := by
  grind

private theorem isSchemeByte_of_isAlpha {byte : UInt8} (h : isAlpha byte = true) :
    isSchemeByte byte = true := by
  unfold isSchemeByte
  grind

/-- The schemes are spelled in letters. -/
theorem isAlpha_schemeStr (scheme : Scheme) :
    ∀ byte ∈ (schemeStr scheme).bytes, isAlpha byte = true := by
  cases scheme <;> decide +kernel

/-- The schemes are spelled in lower case. -/
theorem lower_schemeStr (scheme : Scheme) :
    (schemeStr scheme).bytes.map lowerByte = (schemeStr scheme).bytes := by
  cases scheme <;> decide +kernel

/-- A name that is a scheme in some case is read as its name. -/
theorem referenceScheme_of_lower {input name : Str} {scheme : Scheme} {rest : List UInt8}
    (hname : name.bytes.map lowerByte = (schemeStr scheme).bytes)
    (h : input.bytes = name.bytes ++ 58 :: rest) : referenceScheme input = some name := by
  have halpha : ∀ byte ∈ name.bytes, isAlpha byte = true := by
    intro byte hmem
    rw [← isAlpha_lowerByte]
    apply isAlpha_schemeStr scheme
    rw [← hname]
    exact List.mem_map_of_mem hmem
  have hne : name.bytes ≠ [] := by
    intro hempty
    rw [hempty] at hname
    cases scheme <;> cases hname
  obtain ⟨first, tail, hcons⟩ := List.exists_cons_of_ne_nil hne
  exact referenceScheme_of_bytes h hcons (halpha first (by rw [hcons]; simp))
    fun byte hmem => isSchemeByte_of_isAlpha (halpha byte hmem)

private theorem asciiLower_eq_schemeStr {name : Str} {scheme : Scheme} :
    asciiLower name = schemeStr scheme ↔ name.bytes.map lowerByte = (schemeStr scheme).bytes := by
  rw [← asciiLower_bytes]
  exact ⟨congrArg Str.bytes, fun h => Str.ext h⟩

private theorem splitAuthoritySlashes_iff {scheme found : Scheme} {rest after : Str} :
    splitAuthoritySlashes scheme rest = .ok (found, after) ↔
      found = scheme ∧ rest.bytes = 47 :: 47 :: after.bytes := by
  have hdrop : ∀ {tail : List UInt8}, rest.bytes = 47 :: 47 :: tail →
      (dropPrefix rest (.lit "//")).bytes = tail :=
    fun h => dropPrefix_bytes (by simp) h
  rw [splitAuthoritySlashes]
  split
  · next hstarts =>
    obtain ⟨tail, htail⟩ := startsWith_iff.mp hstarts
    have hrest : rest.bytes = 47 :: 47 :: tail := htail.symm
    rw [Except.ok.injEq, Prod.mk.injEq, hrest]
    constructor
    · rintro ⟨rfl, rfl⟩
      exact ⟨rfl, by rw [hdrop hrest]⟩
    · rintro ⟨rfl, hbytes⟩
      refine ⟨rfl, Str.ext ?_⟩
      rw [hdrop hrest]
      simpa using hbytes
  · next hstarts =>
    constructor
    · intro h
      cases h
    · rintro ⟨-, hbytes⟩
      have hprefix : (Str.lit "//").bytes <+: rest.bytes := ⟨after.bytes, hbytes.symm⟩
      exact absurd (startsWith_iff.mpr hprefix) hstarts

/-- An input starts with a scheme exactly when its text does, in some case. -/
theorem splitScheme_iff {input after : Str} {scheme : Scheme} :
    splitScheme input = .ok (scheme, after) ↔
      ∃ name : Str, name.bytes.map lowerByte = (schemeStr scheme).bytes ∧
        input.bytes = name.bytes ++ 58 :: 47 :: 47 :: after.bytes := by
  have hdrop : ∀ {name : Str} {rest : List UInt8}, input.bytes = name.bytes ++ 58 :: rest →
      (dropPrefix input (Str.concat name (.lit ":"))).bytes = rest :=
    fun h => dropPrefix_bytes (by simp) (by simpa using h)
  constructor
  · intro h
    rw [splitScheme] at h
    split at h
    · cases h
    next name hname =>
    obtain ⟨rest, hrest⟩ := bytes_of_referenceScheme hname
    simp only [beq_iff_eq] at h
    have hcut : ∀ found : Scheme, asciiLower name = schemeStr found →
        splitAuthoritySlashes found (dropPrefix input (Str.concat name (.lit ":"))) =
          .ok (scheme, after) → name.bytes.map lowerByte = (schemeStr scheme).bytes ∧
            input.bytes = name.bytes ++ 58 :: 47 :: 47 :: after.bytes := by
      intro found hlower hslashes
      obtain ⟨rfl, hafter⟩ := splitAuthoritySlashes_iff.mp hslashes
      rw [hdrop hrest] at hafter
      exact ⟨asciiLower_eq_schemeStr.mp hlower, by rw [hrest, hafter]⟩
    split at h
    · next hlower => exact ⟨name, hcut .http hlower h⟩
    split at h
    · next hlower => exact ⟨name, hcut .https hlower h⟩
    · cases h
  · rintro ⟨name, hname, hbytes⟩
    have hslashes : splitAuthoritySlashes scheme (dropPrefix input (Str.concat name (.lit ":"))) =
        .ok (scheme, after) := splitAuthoritySlashes_iff.mpr ⟨rfl, hdrop hbytes⟩
    rw [splitScheme, referenceScheme_of_lower hname hbytes]
    simp only [beq_iff_eq, asciiLower_eq_schemeStr.mpr hname]
    cases scheme
    · exact (if_pos rfl).trans hslashes
    · exact (if_neg (by decide)).trans ((if_pos rfl).trans hslashes)

/-! ### The authority -/

/-- A byte that ends an authority. -/
def isDelimiter (byte : UInt8) : Bool := byte == 47 || byte == 63 || byte == 35

/-- The first delimiter ends the bytes that are none. -/
theorem firstDelimiter_eq (front rest : List UInt8) :
    firstDelimiter (front ++ rest) front.length =
      front.length + (rest.takeWhile fun byte => !isDelimiter byte).length := by
  induction rest generalizing front with
  | nil =>
    rw [firstDelimiter, if_pos (by simp)]
    rfl
  | cons byte rest ih =>
    have hget : getOrZero (front ++ byte :: rest) front.length = byte := by simp [getOrZero]
    rw [firstDelimiter, if_neg (by simp), hget]
    by_cases hstop : isDelimiter byte = true
    · have htake : (byte :: rest).takeWhile (fun byte => !isDelimiter byte) = [] :=
        List.takeWhile_cons_of_neg (by simp [hstop])
      rw [htake]
      exact if_pos hstop
    · have htake : (byte :: rest).takeWhile (fun byte => !isDelimiter byte) =
          byte :: rest.takeWhile fun byte => !isDelimiter byte :=
        List.takeWhile_cons_of_pos (by simp [hstop])
      have hih := ih (front ++ [byte])
      rw [List.append_assoc, List.singleton_append, List.length_append, List.length_singleton]
        at hih
      rw [htake, List.length_cons]
      refine (if_neg hstop).trans (hih.trans ?_)
      omega

/-- The authority is what precedes the first delimiter. -/
theorem splitAuthority_bytes (after : Str) :
    (splitAuthority after).1.bytes = after.bytes.takeWhile (fun byte => !isDelimiter byte) ∧
      (splitAuthority after).2.bytes = after.bytes.dropWhile fun byte => !isDelimiter byte := by
  have hindex : firstDelimiter after.bytes 0 =
      (after.bytes.takeWhile fun byte => !isDelimiter byte).length := by
    simpa using firstDelimiter_eq [] after.bytes
  have hjoin := List.takeWhile_append_dropWhile (p := fun byte => !isDelimiter byte)
    (l := after.bytes)
  generalize after.bytes.takeWhile (fun byte => !isDelimiter byte) = front at hindex hjoin ⊢
  have hvalid : Utf8.Valid front ∧
      Utf8.Valid (after.bytes.dropWhile fun byte => !isDelimiter byte) := by
    have hafter := after.valid
    cases hrest : after.bytes.dropWhile fun byte => !isDelimiter byte with
    | nil =>
      rw [hrest, List.append_nil] at hjoin
      exact ⟨hjoin ▸ hafter, .nil⟩
    | cons byte rest =>
      have hstop : isDelimiter byte = true := by
        have hhead := List.head?_dropWhile_not (fun byte => !isDelimiter byte) after.bytes
        rw [hrest] at hhead
        simpa using hhead
      rw [← hjoin, hrest] at hafter
      refine Utf8.Valid.cut hafter ?_
      simp only [isDelimiter, Bool.or_eq_true, beq_iff_eq] at hstop
      rcases hstop with (rfl | rfl) | rfl <;> decide
  simp only [splitAuthority, Str.toUtf8_eq, hindex]
  generalize after.bytes.dropWhile (fun byte => !isDelimiter byte) = rest at hjoin hvalid ⊢
  rw [← hjoin, List.take_left, List.drop_left]
  exact ⟨Str.fromUtf8Lossy_bytes hvalid.1, Str.fromUtf8Lossy_bytes hvalid.2⟩

/-- An authority holds no delimiter, and what follows it starts with one. -/
theorem splitAuthority_iff {after authority suffix : Str} :
    splitAuthority after = (authority, suffix) ↔
      after.bytes = authority.bytes ++ suffix.bytes ∧
        (∀ byte ∈ authority.bytes, isDelimiter byte = false) ∧
          ∀ first ∈ suffix.bytes.head?, isDelimiter first = true := by
  obtain ⟨htake, hdrop⟩ := splitAuthority_bytes after
  constructor
  · intro h
    rw [h] at htake hdrop
    refine ⟨?_, fun byte hmem => ?_, fun first hfirst => ?_⟩
    · rw [htake, hdrop, List.takeWhile_append_dropWhile]
    · rw [htake] at hmem
      simpa using List.mem_takeWhile_imp hmem
    · have hhead := List.head?_dropWhile_not (fun byte => !isDelimiter byte) after.bytes
      rw [← hdrop, hfirst] at hhead
      simpa using hhead
  · rintro ⟨hbytes, hauthority, hsuffix⟩
    have hexact := Cut.takeWhile_append_exact
      (fun byte hmem => by simp [hauthority byte hmem] : ∀ byte ∈ authority.bytes,
        (!isDelimiter byte) = true)
      (fun byte hmem => by simp [hsuffix byte hmem] : ∀ byte ∈ suffix.bytes.head?,
        (!isDelimiter byte) = false)
    rw [hbytes, hexact.1] at htake
    rw [hbytes, hexact.2] at hdrop
    exact Prod.ext (Str.ext htake) (Str.ext hdrop)

end TrantorCli.Url
