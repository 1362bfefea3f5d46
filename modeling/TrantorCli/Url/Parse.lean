import TrantorCli.Url.Authority
import TrantorCli.Url.Path

/-!
# Parsing and resolving

`parse_absolute` cuts an input into scheme, authority and suffix, and
`resolve_relative` reads a reference against a base. Both validate a path, a
query and a fragment in that order.
-/

open Roc

namespace TrantorCli.Url

/-- The bytes a scheme name is made of. -/
def isSchemeByte (byte : UInt8) : Bool :=
  isAlphanumeric byte || byte == 43 || byte == 45 || byte == 46

/-- `scheme_length` -/
def schemeLength (bytes : List UInt8) (index : Nat) : Nat :=
  match _h : bytes[index]? with
  | some byte => if isSchemeByte byte then schemeLength bytes (index + 1) else index
  | none => index
termination_by bytes.length - index
decreasing_by
  have := (List.getElem?_eq_some_iff.mp _h).1
  omega

/-- `reference_scheme`; `none` is `Err(NoScheme)`. -/
def referenceScheme (reference : Str) : Option Str :=
  let bytes := reference.toUtf8
  let name := bytes.take (schemeLength bytes 0)
  match name.head?, bytes[name.length]? with
  | some first, some after =>
    if after == 58 && isAlpha first then some (Str.fromUtf8Lossy name) else none
  | _, _ => none

/-- `split_authority_slashes` -/
def splitAuthoritySlashes (scheme : Scheme) (rest : Str) : Except ParseErr (Scheme × Str) :=
  if startsWith rest (.lit "//") then .ok (scheme, dropPrefix rest (.lit "//"))
  else .error .missingAuthority

/-- `split_scheme` -/
def splitScheme (input : Str) : Except ParseErr (Scheme × Str) :=
  match referenceScheme input with
  | none => .error .missingScheme
  | some name =>
    let rest := dropPrefix input (Str.concat name (.lit ":"))
    let lower := asciiLower name
    if lower == .lit "http" then splitAuthoritySlashes .http rest
    else if lower == .lit "https" then splitAuthoritySlashes .https rest
    else .error (.unsupportedScheme lower)

/-- `first_delimiter` -/
def firstDelimiter (bytes : List UInt8) (index : Nat) : Nat :=
  if index ≥ bytes.length then index
  else
    let byte := getOrZero bytes index
    if byte == 47 || byte == 63 || byte == 35 then index else firstDelimiter bytes (index + 1)
termination_by bytes.length - index

/-- `split_authority` -/
def splitAuthority (afterScheme : Str) : Str × Str :=
  let bytes := afterScheme.toUtf8
  let index := firstDelimiter bytes 0
  (Str.fromUtf8Lossy (bytes.take index), Str.fromUtf8Lossy (bytes.drop index))

/-- The path, query and fragment of a suffix or a reference. -/
structure Components where
  path : Str
  query : Option Str
  fragment : Option Str
  deriving DecidableEq

/-- What comes before a separator, and what comes after it if there is one. -/
def cutAt (str separator : Str) : Str × Option Str :=
  match splitFirst str separator with
  | some (before, after) => (before, some after)
  | none => (str, none)

/-- The raw path, query and fragment: both parsers cut at the first `#`, then at
the first `?` before it. -/
def splitComponents (suffix : Str) : Components :=
  let (beforeFragment, fragment) := cutAt suffix (.lit "#")
  let (rawPath, query) := cutAt beforeFragment (.lit "?")
  ⟨rawPath, query, fragment⟩

/-- The validation both parsers end with, in the source's order. -/
def validateComponents (pathInput : Str) (query fragment : Option Str) :
    Except ParseErr Components := do
  let path ← validateComponent pathInput .path
  let encodedQuery ← validateOptional query .query
  let encodedFragment ← validateOptional fragment .fragment
  return ⟨path, encodedQuery, encodedFragment⟩

/-- `parse_suffix` -/
def parseSuffix (suffix : Str) : Except ParseErr Components :=
  let raw := splitComponents suffix
  let pathInput := if raw.path.isEmpty then .lit "/" else raw.path
  if !startsWith pathInput (.lit "/") then
    .error (.invalidCharacter (firstOrZero pathInput.toUtf8))
  else validateComponents pathInput raw.query raw.fragment

/-- `parse_relative` -/
def parseRelative (reference : Str) : Except ParseErr Components :=
  let raw := splitComponents reference
  validateComponents raw.path raw.query raw.fragment

/-- `parse_absolute` -/
def parseAbsolute (input : Str) : Except ParseErr Url := do
  let (scheme, after) ← splitScheme input
  let (authority, suffix) := splitAuthority after
  if authority.isEmpty then .error .emptyHost
  else if authority.contains (.lit "@") then .error .credentialsNotAllowed
  else
    let (host, port) ← parseAuthority authority scheme
    let components ← parseSuffix suffix
    return {
      scheme, host, port
      path := normalizePath components.path
      query := components.query
      fragment := components.fragment }

/-- `parse` -/
def parse (input : Str) : Except ParseErr Url := parseAbsolute input

/-- `resolve_relative` -/
def resolveRelative (base : Url) (reference : Str) : Except ParseErr Url :=
  if startsWith reference (.lit "//") then .error .missingScheme
  else do
    let relative ← parseRelative reference
    let nextPath :=
      if relative.path.isEmpty then base.path
      else if startsWith relative.path (.lit "/") then normalizePath relative.path
      else normalizePath (Str.concat (pathDirectory base.path) relative.path)
    let nextQuery :=
      match relative.query with
      | some value => some value
      | none => if relative.path.isEmpty then base.query else none
    return { base with path := nextPath, query := nextQuery, fragment := relative.fragment }

/-- `resolve_reference` -/
def resolveReference (base : Url) (reference : Str) : Except ParseErr Url :=
  match referenceScheme reference with
  | some _ => parseAbsolute reference
  | none => resolveRelative base reference

/-- `resolve` -/
def resolve (base : Url) (reference : Str) : Except ParseErr Url := resolveReference base reference

end TrantorCli.Url
