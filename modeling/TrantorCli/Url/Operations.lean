import TrantorCli.Url.Parse

/-!
# Building and printing URLs

The operations of `Url.roc` that replace one component of a `Url`, and
`serialize`, which writes all six.
-/

open Roc

namespace TrantorCli.Url

/-- `host` -/
def hostOf (url : Url) : Str :=
  if startsWith url.host (.lit "[") then trimBrackets url.host else url.host

/-- `with_segments` -/
def withSegments (url : Url) (segments : List Str) : Url :=
  let suffix := Str.joinWith (segments.map percentEncode) (.lit "/")
  let nextPath :=
    if segments.isEmpty then url.path
    else if url.path == .lit "/" then Str.concat (.lit "/") suffix
    else if endsWith url.path (.lit "/") then Str.concat url.path suffix
    else Str.concat (Str.concat url.path (.lit "/")) suffix
  { url with path := normalizePath nextPath }

/-- `append_path_segments`; the error is `DotSegment(item)`. -/
def appendPathSegments (url : Url) (segments : List Str) : Except Str Url :=
  match segments.find? isDotSegment with
  | some dots => .error dots
  | none => .ok (withSegments url segments)

/-- `append_query_param` -/
def appendQueryParam (url : Url) (key value : Str) : Url :=
  let pair := Str.concat (Str.concat (formEncode key) (.lit "=")) (formEncode value)
  let nextQuery :=
    match url.query with
    | none => pair
    | some existing =>
      if existing == .lit "" then pair else Str.concat (Str.concat existing (.lit "&")) pair
  { url with query := some nextQuery }

/-- `with_query` -/
def withQuery (url : Url) (option : Option Str) : Except ParseErr Url := do
  let nextQueryOption : Except ParseErr (Option Str) :=
    match option with
    | none => .ok none
    | some raw =>
      match validateComponent raw .query with
      | .ok value => .ok (some value)
      | .error err => .error err
  return { url with query := ← nextQueryOption }

/-- `with_fragment` -/
def withFragment (url : Url) (option : Option Str) : Except ParseErr Url := do
  let nextFragmentOption : Except ParseErr (Option Str) :=
    match option with
    | none => .ok none
    | some raw =>
      match validateComponent raw .fragment with
      | .ok value => .ok (some value)
      | .error err => .error err
  return { url with fragment := ← nextFragmentOption }

/-- `without_fragment` -/
def withoutFragment (url : Url) : Url := { url with fragment := none }

/-- The scheme as `serialize` writes it. -/
def schemeStr (scheme : Scheme) : Str :=
  match scheme with
  | .http => .lit "http"
  | .https => .lit "https"

/-- The query as `serialize` writes it. -/
def queryStr (query : Option Str) : Str :=
  match query with
  | none => .lit ""
  | some value => Str.concat (.lit "?") value

/-- The fragment as `serialize` writes it. -/
def fragmentStr (fragment : Option Str) : Str :=
  match fragment with
  | none => .lit ""
  | some value => Str.concat (.lit "#") value

/-- `serialize` -/
def serialize (url : Url) (includeFragment : Bool) : Str :=
  let fragment := if includeFragment then fragmentStr url.fragment else .lit ""
  Str.concat
    (Str.concat
      (Str.concat
        (Str.concat (Str.concat (Str.concat (schemeStr url.scheme) (.lit "://")) url.host)
          (portStr url.port))
        url.path)
      (queryStr url.query))
    fragment

/-- `to_str` -/
def toStr (url : Url) : Str := serialize url true

/-- `is_eq` -/
def isEq (left right : Url) : Bool := toStr left == toStr right

end TrantorCli.Url
