import TrantorCli.Url.Arith.Parse

/-!
# No operation aborts

The operations that replace one component of a `Url`, and the whole interface put
together: on strings that can exist, each call returns what the model without
ranges returns.
-/

open Roc Roc.Checked

namespace TrantorCli.Url

/-- A `Url` that can exist: its strings can. -/
structure Fits (url : Url) : Prop where
  host : url.host.Fits
  path : url.path.Fits
  query : ∀ query ∈ url.query, query.Fits
  fragment : ∀ fragment ∈ url.fragment, fragment.Fits

namespace Arith

/-- `host` -/
def hostOf (url : Url) : Checked Str :=
  if startsWith url.host (.lit "[") then trimBrackets url.host else return url.host

/-- `with_segments` -/
def withSegments (url : Url) (segments : List Str) : Checked Url := do
  let suffix := Str.joinWith (← segments.mapM percentEncode) (.lit "/")
  let nextPath ←
    (if segments.isEmpty then return url.path
    else if url.path == .lit "/" then return Str.concat (.lit "/") suffix
    else do
      if ← endsWith url.path (.lit "/") then return Str.concat url.path suffix
      else return Str.concat (Str.concat url.path (.lit "/")) suffix)
  return { url with path := normalizePath nextPath }

/-- `append_path_segments`; the error is `DotSegment(item)`. -/
def appendPathSegments (url : Url) (segments : List Str) : ExceptT Str Checked Url :=
  match segments.find? isDotSegment with
  | some dots => throw dots
  | none => do return ← withSegments url segments

/-- `append_query_param` -/
def appendQueryParam (url : Url) (key value : Str) : Checked Url := do
  let pair := Str.concat (Str.concat (← formEncode key) (.lit "=")) (← formEncode value)
  let nextQuery :=
    match url.query with
    | none => pair
    | some existing =>
      if existing == .lit "" then pair else Str.concat (Str.concat existing (.lit "&")) pair
  return { url with query := some nextQuery }

/-- `with_query` -/
def withQuery (url : Url) (option : Option Str) : ExceptT ParseErr Checked Url := do
  let nextQueryOption : ExceptT ParseErr Checked (Option Str) :=
    match option with
    | none => return none
    | some raw => do return some (← validateComponent raw .query)
  return { url with query := ← nextQueryOption }

/-- `with_fragment` -/
def withFragment (url : Url) (option : Option Str) : ExceptT ParseErr Checked Url := do
  let nextFragmentOption : ExceptT ParseErr Checked (Option Str) :=
    match option with
    | none => return none
    | some raw => do return some (← validateComponent raw .fragment)
  return { url with fragment := ← nextFragmentOption }

/-- What `query_pairs` makes of the text between two `&`. -/
def queryPair (pair : Str) : Checked (Str × Str) :=
  match splitFirst pair (.lit "=") with
  | some (before, after) => do return (← formDecode before, ← formDecode after)
  | none => do return (← formDecode pair, .lit "")

/-- `query_pairs` -/
def queryPairs (url : Url) : Checked (List (Str × Str)) :=
  match url.query with
  | none => return []
  | some queryStr =>
    if queryStr == .lit "" then return [] else (queryStr.splitOn (.lit "&")).mapM queryPair

/-- `to_str`, which only concatenates -/
def toStr (url : Url) : Checked Str := return serialize url true

/-! ### Each is in range -/

private theorem hostOf_ok (url : Url) : hostOf url = .ok (Url.hostOf url) := by
  rw [hostOf, Url.hostOf]
  split
  · exact trimBrackets_ok url.host
  · rfl

private theorem withSegments_ok (url : Url) (segments : List Str) :
    withSegments url segments = .ok (Url.withSegments url segments) := by
  rw [withSegments, Url.withSegments, mapM_ok fun segment _ => percentEncode_ok segment,
    Try.ok_bind,
    endsWith_ok]
  by_cases hempty : segments.isEmpty = true
  · simp only [hempty, if_true]
    rfl
  · by_cases hroot : (url.path == .lit "/") = true
    · simp only [hempty, hroot, if_true]
      rfl
    · simp only [hempty, hroot, Try.ok_bind]
      cases Url.endsWith url.path (.lit "/") <;> rfl

private theorem appendPathSegments_yields (url : Url) (segments : List Str) :
    Yields (appendPathSegments url segments) (Url.appendPathSegments url segments) := by
  rw [appendPathSegments, Url.appendPathSegments]
  cases segments.find? isDotSegment with
  | some dots => exact .throw _
  | none => exact .lifted (withSegments_ok url segments)

private theorem appendQueryParam_ok (url : Url) (key value : Str) :
    appendQueryParam url key value = .ok (Url.appendQueryParam url key value) := by
  rw [appendQueryParam, formEncode_ok, formEncode_ok]
  rfl

private theorem withQuery_yields (url : Url) {option : Option Str}
    (hfits : ∀ raw ∈ option, raw.Fits) :
    Yields (withQuery url option) (Url.withQuery url option) :=
  .bind (validateOptional_yields hfits .query) fun _ _ => .pure _

private theorem withFragment_yields (url : Url) {option : Option Str}
    (hfits : ∀ raw ∈ option, raw.Fits) :
    Yields (withFragment url option) (Url.withFragment url option) :=
  .bind (validateOptional_yields hfits .fragment) fun _ _ => .pure _

private theorem queryPair_ok {pair : Str} (hfits : pair.Fits) :
    queryPair pair = .ok (Url.queryPair pair) := by
  rw [queryPair, Url.queryPair]
  cases hcut : splitFirst pair (.lit "=") with
  | none =>
    simp only [formDecode_ok hfits, Try.ok_bind]
    rfl
  | some parts =>
    obtain ⟨before, after⟩ := parts
    obtain ⟨hbefore, hafter⟩ := fits_splitFirst (c := 61) rfl hcut hfits
    simp only [formDecode_ok hbefore, formDecode_ok hafter, Try.ok_bind]
    rfl

private theorem queryPairs_ok {url : Url} (hfits : url.Fits) :
    queryPairs url = .ok (Url.queryPairs url) := by
  rw [queryPairs, Url.queryPairs]
  cases hquery : url.query with
  | none => rfl
  | some query =>
    by_cases hempty : (query == .lit "") = true
    · simp only [hempty, if_true]
      rfl
    · simp only [hempty]
      exact mapM_ok fun pair hmem => queryPair_ok ((hfits.query query hquery).of_mem_splitOn hmem)

/-- No call of the interface aborts. -/
theorem never_aborts :
    (∀ input : Str, input.Fits → Yields (parse input) (Url.parse input)) ∧
      ∀ url : Url, url.Fits →
        (∀ reference : Str, reference.Fits →
          Yields (resolve url reference) (Url.resolve url reference)) ∧
        (∀ segments : List Str,
          Yields (appendPathSegments url segments) (Url.appendPathSegments url segments)) ∧
        (∀ key value : Str,
          appendQueryParam url key value = .ok (Url.appendQueryParam url key value)) ∧
        (∀ option : Option Str, (∀ raw ∈ option, raw.Fits) →
          Yields (withQuery url option) (Url.withQuery url option) ∧
            Yields (withFragment url option) (Url.withFragment url option)) ∧
        hostOf url = .ok (Url.hostOf url) ∧
        queryPairs url = .ok (Url.queryPairs url) ∧
        toStr url = .ok (Url.toStr url) := by
  refine ⟨fun input hfits => parseAbsolute_yields hfits, fun url hurl => ?_⟩
  refine ⟨fun reference hfits => resolveReference_yields url hfits, appendPathSegments_yields url,
    appendQueryParam_ok url, fun option hfits => ?_, hostOf_ok url, queryPairs_ok hurl, rfl⟩
  exact ⟨withQuery_yields url hfits, withFragment_yields url hfits⟩

/-- A port of many digits, and an escape in a query. -/
theorem never_aborts_example :
    Yields (parse (.lit "http://a:99999999999999999999999/"))
        (.error (.portOutOfRange 4294967295)) ∧
      queryPairs ⟨.http, .lit "a", none, .lit "/", some (.lit "x=%fF%41"), none⟩ =
        .ok [(.lit "x", .lit "\uFFFDA")] := by
  have hurl : Fits ⟨.http, .lit "a", none, .lit "/", some (.lit "x=%fF%41"), none⟩ :=
    ⟨by decide +kernel, by decide +kernel, by rintro query ⟨⟩; decide +kernel, by simp⟩
  refine ⟨(never_aborts.1 _ (by decide +kernel)).trans ?_, ?_⟩
  · exact congrArg Except.ok (by decide +kernel)
  · exact (never_aborts.2 _ hurl).2.2.2.2.2.1.trans (congrArg Except.ok (by decide +kernel))

end Arith

end TrantorCli.Url
