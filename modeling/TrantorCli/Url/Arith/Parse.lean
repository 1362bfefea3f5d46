import TrantorCli.Url.Arith.Authority
import TrantorCli.Url.Arith.Component
import TrantorCli.Url.Cuts

/-!
# Arithmetic of parsing and resolving

The scans for a scheme and an authority count bytes of the input, and an authority
is cut where its scan stopped. Everything else that parsing and resolving compute
is computed on parts of the input.
-/

open Roc Roc.Checked

namespace TrantorCli.Url.Arith

/-- `scheme_length` -/
def schemeLength (bytes : List UInt8) (index : Nat) : Checked Nat :=
  match _h : bytes[index]? with
  | some byte =>
    if isSchemeByte byte then do
      let ⟨next, _⟩ ← addU64 index 1
      schemeLength bytes next
    else return index
  | none => return index
termination_by bytes.length - index
decreasing_by
  have := (List.getElem?_eq_some_iff.mp _h).1
  omega

/-- `reference_scheme`; `none` is `Err(NoScheme)`. -/
def referenceScheme (reference : Str) : Checked (Option Str) := do
  let bytes := reference.toUtf8
  let name := bytes.take (← schemeLength bytes 0)
  match name.head?, bytes[name.length]? with
  | some first, some after =>
    return if after == 58 && isAlpha first then some (Str.fromUtf8Lossy name) else none
  | _, _ => return none

/-- `split_authority_slashes`, which does no arithmetic -/
def splitAuthoritySlashes (scheme : Scheme) (rest : Str) :
    ExceptT ParseErr Checked (Scheme × Str) :=
  if startsWith rest (.lit "//") then return (scheme, dropPrefix rest (.lit "//"))
  else throw .missingAuthority

/-- `split_scheme` -/
def splitScheme (input : Str) : ExceptT ParseErr Checked (Scheme × Str) := do
  match ← referenceScheme input with
  | none => throw .missingScheme
  | some name =>
    let rest := dropPrefix input (Str.concat name (.lit ":"))
    let lower ← asciiLower name
    if lower == .lit "http" then splitAuthoritySlashes .http rest
    else if lower == .lit "https" then splitAuthoritySlashes .https rest
    else throw (.unsupportedScheme lower)

/-- `first_delimiter` -/
def firstDelimiter (bytes : List UInt8) (index : Nat) : Checked Nat :=
  if index ≥ bytes.length then return index
  else
    let byte := getOrZero bytes index
    if byte == 47 || byte == 63 || byte == 35 then return index
    else do
      let ⟨next, _⟩ ← addU64 index 1
      firstDelimiter bytes next
termination_by bytes.length - index

/-- `split_authority` -/
def splitAuthority (afterScheme : Str) : Checked (Str × Str) := do
  let bytes := afterScheme.toUtf8
  let index ← firstDelimiter bytes 0
  let authority := Str.fromUtf8Lossy (sublist bytes 0 index)
  let suffix := Str.fromUtf8Lossy (sublist bytes index (← subU64 bytes.length index))
  return (authority, suffix)

/-- `parse_suffix` -/
def parseSuffix (suffix : Str) : ExceptT ParseErr Checked Components :=
  let raw := splitComponents suffix
  let pathInput := if raw.path.isEmpty then .lit "/" else raw.path
  if !startsWith pathInput (.lit "/") then
    throw (.invalidCharacter (firstOrZero pathInput.toUtf8))
  else validateComponents pathInput raw.query raw.fragment

/-- `parse_relative` -/
def parseRelative (reference : Str) : ExceptT ParseErr Checked Components :=
  let raw := splitComponents reference
  validateComponents raw.path raw.query raw.fragment

/-- `parse_absolute` -/
def parseAbsolute (input : Str) : ExceptT ParseErr Checked Url := do
  let (scheme, after) ← splitScheme input
  let (authority, suffix) ← splitAuthority after
  if authority.isEmpty then throw .emptyHost
  else if authority.contains (.lit "@") then throw .credentialsNotAllowed
  else
    let (host, port) ← parseAuthority authority scheme
    let components ← parseSuffix suffix
    return {
      scheme, host, port
      path := normalizePath components.path
      query := components.query
      fragment := components.fragment }

/-- `parse` -/
def parse (input : Str) : ExceptT ParseErr Checked Url := parseAbsolute input

/-- `resolve_relative` -/
def resolveRelative (base : Url) (reference : Str) : ExceptT ParseErr Checked Url :=
  if startsWith reference (.lit "//") then throw .missingScheme
  else do
    let relative ← parseRelative reference
    let nextPath :=
      if relative.path.isEmpty then base.path
      else if startsWith relative.path (.lit "/") then normalizePath relative.path
      else normalizePath (Str.concat (pathDirectory base.path) relative.path)
    let nextQuery :=
      match relative.query with
      | some value => some value
      | none => if relative.path.isEmpty then base.query else none
    return { base with path := nextPath, query := nextQuery, fragment := relative.fragment }

/-- `resolve_reference` -/
def resolveReference (base : Url) (reference : Str) : ExceptT ParseErr Checked Url := do
  match ← referenceScheme reference with
  | some _ => parseAbsolute reference
  | none => resolveRelative base reference

/-- `resolve` -/
def resolve (base : Url) (reference : Str) : ExceptT ParseErr Checked Url :=
  resolveReference base reference

/-! ### The scans -/

private theorem schemeLength_some {bytes : List UInt8} {index : Nat} {byte : UInt8}
    (h : bytes[index]? = some byte) :
    schemeLength bytes index =
      if isSchemeByte byte then addU64 index 1 >>= fun next => schemeLength bytes next.val
      else .ok index := by
  rw [schemeLength]
  split
  · next found hfound =>
    rw [Option.some_inj.mp (h.symm.trans hfound)]
    rfl
  · next hnone =>
    rw [h] at hnone
    cases hnone

private theorem schemeLength_none {bytes : List UInt8} {index : Nat} (h : bytes[index]? = none) :
    schemeLength bytes index = .ok index := by
  rw [schemeLength]
  split
  · next found hfound =>
    rw [h] at hfound
    cases hfound
  · rfl

private theorem schemeLength_ok {input : Str} (hfits : input.Fits) (index : Nat) :
    schemeLength input.bytes index = .ok (Url.schemeLength input.bytes index) := by
  induction index using Url.schemeLength.induct input.bytes with
  | case1 index byte hbyte hscheme ih =>
    have hlt := (List.getElem?_eq_some_iff.mp hbyte).1
    rw [schemeLength_some hbyte, Url.schemeLength_some hbyte, if_pos hscheme, if_pos hscheme,
      addU64_index hfits (by omega) (by decide), Try.ok_bind]
    exact ih
  | case2 index byte hbyte hscheme =>
    rw [schemeLength_some hbyte, Url.schemeLength_some hbyte, if_neg hscheme, if_neg hscheme]
  | case3 index hend => rw [schemeLength_none hend, Url.schemeLength_none hend]

private theorem referenceScheme_ok {reference : Str} (hfits : reference.Fits) :
    referenceScheme reference = .ok (Url.referenceScheme reference) := by
  rw [referenceScheme, Url.referenceScheme, Str.toUtf8_eq, schemeLength_ok hfits]
  simp only [Try.ok_bind]
  cases (reference.bytes.take (Url.schemeLength reference.bytes 0)).head? <;>
    cases reference.bytes[(reference.bytes.take (Url.schemeLength reference.bytes 0)).length]?
      <;> rfl

private theorem splitAuthoritySlashes_yields (scheme : Scheme) (rest : Str) :
    Yields (splitAuthoritySlashes scheme rest) (Url.splitAuthoritySlashes scheme rest) :=
  .ite (fun _ => .pure _) fun _ => .throw _

private theorem splitScheme_yields {input : Str} (hfits : input.Fits) :
    Yields (splitScheme input) (Url.splitScheme input) := by
  rw [splitScheme, Url.splitScheme]
  refine .lift (referenceScheme_ok hfits) ?_
  cases Url.referenceScheme input with
  | none => exact .throw _
  | some name =>
    refine .lift (asciiLower_ok name) ?_
    refine .ite (fun _ => splitAuthoritySlashes_yields _ _) fun _ => ?_
    exact .ite (fun _ => splitAuthoritySlashes_yields _ _) fun _ => .throw _

private theorem firstDelimiter_ok {input : Str} (hfits : input.Fits) (index : Nat) :
    firstDelimiter input.bytes index = .ok (Url.firstDelimiter input.bytes index) := by
  induction index using Url.firstDelimiter.induct input.bytes with
  | case1 index hend =>
    rw [firstDelimiter, Url.firstDelimiter, if_pos hend, if_pos hend]
    rfl
  | case2 index hlt byte hstop =>
    rw [firstDelimiter, Url.firstDelimiter, if_neg hlt, if_neg hlt]
    simp only [byte] at hstop
    simp only [hstop, if_true]
    rfl
  | case3 index hlt byte hstop ih =>
    rw [firstDelimiter, Url.firstDelimiter, if_neg hlt, if_neg hlt]
    simp only [byte] at hstop
    simp only [hstop, addU64_index hfits hlt (show 1 ≤ 3 by decide), Try.ok_bind]
    exact ih

/-- The scan stops inside the string or at its end. -/
theorem firstDelimiter_le (bytes : List UInt8) :
    Url.firstDelimiter bytes 0 ≤ bytes.length := by
  have hindex := firstDelimiter_eq [] bytes
  rw [List.nil_append, List.length_nil, Nat.zero_add] at hindex
  rw [hindex]
  exact (List.takeWhile_sublist _).length_le

private theorem splitAuthority_ok {after : Str} (hfits : after.Fits) :
    splitAuthority after = .ok (Url.splitAuthority after) := by
  have hrest : sublist after.bytes (Url.firstDelimiter after.bytes 0)
      (after.bytes.length - Url.firstDelimiter after.bytes 0) =
        after.bytes.drop (Url.firstDelimiter after.bytes 0) :=
    List.take_of_length_le (List.length_drop ▸ Nat.le_refl _)
  rw [splitAuthority, Url.splitAuthority]
  simp only [Str.toUtf8_eq, firstDelimiter_ok hfits, Try.ok_bind, subU64,
    guarded_of (firstDelimiter_le after.bytes), hrest]
  rfl

/-! ### The parts fit -/

private theorem fits_of_splitScheme {input after : Str} {scheme : Scheme} (hfits : input.Fits)
    (h : Url.splitScheme input = .ok (scheme, after)) : after.Fits := by
  obtain ⟨name, -, hbytes⟩ := splitScheme_iff.mp h
  have hlen := congrArg List.length hbytes
  simp only [List.length_append, List.length_cons] at hlen
  unfold Str.Fits at hfits ⊢
  omega

private theorem fits_splitAuthority {after : Str} (hfits : after.Fits) :
    (Url.splitAuthority after).1.Fits ∧ (Url.splitAuthority after).2.Fits := by
  have hcut : after.bytes = (Url.splitAuthority after).1.bytes ++
    (Url.splitAuthority after).2.bytes :=
    (splitAuthority_iff.mp rfl).1
  have hlen := congrArg List.length hcut
  rw [List.length_append] at hlen
  unfold Str.Fits at hfits ⊢
  exact ⟨by omega, by omega⟩

private theorem fits_cutAt {str separator : Str} {c : UInt8} (hsep : separator.bytes = [c])
    (hfits : str.Fits) :
    (cutAt str separator).1.Fits ∧ ∀ raw ∈ (cutAt str separator).2, raw.Fits := by
  rw [cutAt]
  cases hcut : splitFirst str separator with
  | none => exact ⟨hfits, by simp⟩
  | some parts =>
    obtain ⟨before, after⟩ := parts
    obtain ⟨hbefore, hafter⟩ := fits_splitFirst hsep hcut hfits
    exact ⟨hbefore, by simpa using hafter⟩

private theorem fits_splitComponents {suffix : Str} (hfits : suffix.Fits) :
    (splitComponents suffix).path.Fits ∧ (∀ raw ∈ (splitComponents suffix).query, raw.Fits) ∧
      ∀ raw ∈ (splitComponents suffix).fragment, raw.Fits := by
  obtain ⟨hbefore, hfragment⟩ := fits_cutAt hash_bytes hfits
  obtain ⟨hpath, hquery⟩ := fits_cutAt question_bytes hbefore
  exact ⟨hpath, hquery, hfragment⟩

/-! ### Parsing and resolving -/

private theorem parseSuffix_yields {suffix : Str} (hfits : suffix.Fits) :
    Yields (parseSuffix suffix) (Url.parseSuffix suffix) := by
  obtain ⟨hpath, hquery, hfragment⟩ := fits_splitComponents hfits
  have hinput : (if (splitComponents suffix).path.isEmpty then .lit "/"
      else (splitComponents suffix).path : Str).Fits := by
    split
    · decide +kernel
    · exact hpath
  exact .ite (fun _ => .throw _) fun _ => validateComponents_yields hinput hquery hfragment

private theorem parseRelative_yields {reference : Str} (hfits : reference.Fits) :
    Yields (parseRelative reference) (Url.parseRelative reference) := by
  obtain ⟨hpath, hquery, hfragment⟩ := fits_splitComponents hfits
  exact validateComponents_yields hpath hquery hfragment

/-- An absolute URL is parsed without an overflow. -/
theorem parseAbsolute_yields {input : Str} (hfits : input.Fits) :
    Yields (parseAbsolute input) (Url.parseAbsolute input) := by
  refine .bind (splitScheme_yields hfits) fun cut hcut => ?_
  obtain ⟨scheme, after⟩ := cut
  have hafter := fits_of_splitScheme hfits hcut
  obtain ⟨hauthority, hsuffix⟩ := fits_splitAuthority hafter
  refine .lift (splitAuthority_ok hafter) ?_
  refine .ite (fun _ => .throw _) fun _ => ?_
  refine .ite (fun _ => .throw _) fun _ => ?_
  refine .bind (parseAuthority_yields hauthority scheme) fun authority _ => ?_
  exact .bind (parseSuffix_yields hsuffix) fun components _ => .pure _

private theorem resolveRelative_yields (base : Url) {reference : Str} (hfits : reference.Fits) :
    Yields (resolveRelative base reference) (Url.resolveRelative base reference) := by
  refine .ite (fun _ => .throw _) fun _ => ?_
  exact .bind (parseRelative_yields hfits) fun relative _ => .pure _

/-- A reference is resolved without an overflow. -/
theorem resolveReference_yields (base : Url) {reference : Str} (hfits : reference.Fits) :
    Yields (resolveReference base reference) (Url.resolveReference base reference) := by
  rw [resolveReference, Url.resolveReference]
  refine .lift (referenceScheme_ok hfits) ?_
  cases Url.referenceScheme reference with
  | none => exact resolveRelative_yields base hfits
  | some name => exact parseAbsolute_yields hfits

end TrantorCli.Url.Arith
