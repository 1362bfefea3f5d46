import TrantorCli.Url.RoundTrip

/-!
# Query pairs

`query_pairs` splits a query at `&` and each part at its first `=`, and decodes
both sides. What `append_query_param` adds holds neither separator, and decoding
inverts its encoding, so the pairs appended are the pairs read.
-/

open Roc Percent

namespace TrantorCli.Url

/-- `form_decode_help` -/
def formDecodeHelp (bytes : List UInt8) (index : Nat) (out : List UInt8) : List UInt8 :=
  if index ≥ bytes.length then out
  else
    let byte := getOrZero bytes index
    if byte == 43 then formDecodeHelp bytes (index + 1) (out ++ [32])
    else if byte == 37 && decide (index + 2 < bytes.length) &&
        isHex (getOrZero bytes (index + 1)) && isHex (getOrZero bytes (index + 2)) then
      let decoded :=
        hexValue (getOrZero bytes (index + 1)) * 16 + hexValue (getOrZero bytes (index + 2))
      formDecodeHelp bytes (index + 3) (out ++ [decoded])
    else formDecodeHelp bytes (index + 1) (out ++ [byte])
termination_by bytes.length - index

/-- `form_decode` -/
def formDecode (input : Str) : Str := Str.fromUtf8Lossy (formDecodeHelp input.toUtf8 0 [])

/-- What `query_pairs` makes of the text between two `&`. -/
def queryPair (pair : Str) : Str × Str :=
  match splitFirst pair (.lit "=") with
  | some (before, after) => (formDecode before, formDecode after)
  | none => (formDecode pair, .lit "")

/-- `query_pairs` -/
def queryPairs (url : Url) : List (Str × Str) :=
  match url.query with
  | none => []
  | some queryStr =>
    if queryStr == .lit "" then [] else (queryStr.splitOn (.lit "&")).map queryPair

/-! ### Decoding by tokens -/

/-- The byte that a token of a query stands for: a plain `+` is a space. -/
def formValue : Token → UInt8
  | .plain byte => if byte == 43 then 32 else byte
  | .escape byte => byte

/-- A `%` that the walk does not decode starts no escape. -/
theorem tokens_drop_percent {bytes : List UInt8} {index : Nat}
    (hbad : ¬(index + 2 < bytes.length ∧ isHex (getOrZero bytes (index + 1)) = true ∧
      isHex (getOrZero bytes (index + 2)) = true)) :
    tokens (37 :: bytes.drop (index + 1)) = .plain 37 :: tokens (bytes.drop (index + 1)) := by
  refine tokens_percent fun high low tail hdrop => ?_
  have hlen := congrArg List.length hdrop
  rw [List.length_drop, List.length_cons, List.length_cons] at hlen
  rw [drop_eq_getOrZero_cons (by omega), drop_eq_getOrZero_cons (by omega)] at hdrop
  obtain ⟨rfl, htail⟩ := List.cons.inj hdrop
  obtain ⟨rfl, -⟩ := List.cons.inj htail
  by_contra hescaped
  exact hbad ⟨by omega, isHex_of_escaped hescaped⟩

/-- The walk by index reads the tokens from the index on. -/
theorem formDecodeHelp_eq (bytes : List UInt8) (index : Nat) (out : List UInt8) :
    formDecodeHelp bytes index out = out ++ (tokens (bytes.drop index)).map formValue := by
  induction index, out using formDecodeHelp.induct bytes with
  | case1 index out hend =>
    rw [formDecodeHelp, if_pos hend, List.drop_eq_nil_of_le hend]
    simp
  | case2 index out hlt byte hplus ih =>
    have hbyte : getOrZero bytes index = 43 := eq_of_beq hplus
    rw [formDecodeHelp, if_neg hlt, drop_eq_getOrZero_cons (Nat.lt_of_not_ge hlt), hbyte,
      tokens_plain (by decide)]
    simp only [beq_self_eq_true, if_true]
    rw [ih]
    simp [formValue]
  | case3 index out hlt byte hplus hescape decoded ih =>
    have hescape' : getOrZero bytes index = 37 ∧ index + 2 < bytes.length ∧
        isHex (getOrZero bytes (index + 1)) = true ∧
          isHex (getOrZero bytes (index + 2)) = true := by
      simpa [byte, and_assoc] using hescape
    obtain ⟨hbyte, hlen, hhigh, hlow⟩ := hescape'
    rw [formDecodeHelp, if_neg hlt]
    simp only [byte] at hplus hescape
    simp only [hplus, hescape, if_true]
    rw [if_neg (by decide), ih, drop_eq_getOrZero_cons (Nat.lt_of_not_ge hlt), hbyte,
      drop_eq_getOrZero_cons (show index + 1 < bytes.length by omega), drop_eq_getOrZero_cons hlen,
      tokens_escape (escaped_of_isHex hhigh hlow)]
    simp [formValue, decoded]
  | case4 index out hlt byte hplus hplain ih =>
    have hstep : formDecodeHelp bytes index out =
        formDecodeHelp bytes (index + 1) (out ++ [getOrZero bytes index]) := by
      rw [formDecodeHelp, if_neg hlt]
      simp only [byte] at hplus hplain
      simp only [hplus, hplain]
      rfl
    have hplus' : getOrZero bytes index ≠ 43 := by simpa [byte] using hplus
    have htokens : tokens (getOrZero bytes index :: bytes.drop (index + 1)) =
        .plain (getOrZero bytes index) :: tokens (bytes.drop (index + 1)) := by
      by_cases hpercent : getOrZero bytes index = 37
      · rw [hpercent]
        refine tokens_drop_percent fun hescape => hplain ?_
        simp [byte, hpercent, hescape]
      · exact tokens_plain hpercent _
    rw [hstep, ih, drop_eq_getOrZero_cons (Nat.lt_of_not_ge hlt), htokens]
    simp [formValue, hplus', byte]

private theorem formDecode_eq (input : Str) :
    formDecode input = Str.fromUtf8Lossy ((tokens input.bytes).map formValue) := by
  rw [formDecode, formDecodeHelp_eq]
  rfl

/-! ### Decoding inverts encoding -/

private theorem tokens_formByte (byte : UInt8) (rest : List UInt8) :
    (tokens (formByte byte ++ rest)).map formValue = byte :: (tokens rest).map formValue := by
  have hplus : isFormUnescaped 43 = false := by decide
  unfold formByte
  split
  · next hspace =>
    rw [eq_of_beq hspace, List.singleton_append, tokens_plain (by decide)]
    rfl
  split
  · next hbyte =>
    have hne : byte ≠ 43 := by
      rintro rfl
      rw [hplus] at hbyte
      cases hbyte
    rw [List.singleton_append, tokens_plain (plain_of_isFormUnescaped hbyte).1, List.map_cons,
      formValue, if_neg (by simpa using hne)]
  · rw [tokens_percentByte]
    rfl

/-- Form-encoded text decodes to itself. -/
theorem formDecode_formEncode (input : Str) : formDecode (formEncode input) = input := by
  have hbytes : (tokens (formEncode input).bytes).map formValue = input.bytes := by
    rw [formEncode_bytes]
    induction input.bytes with
    | nil => simp
    | cons byte rest ih => rw [List.flatMap_cons, tokens_formByte, ih]
  rw [formDecode_eq, hbytes, Str.fromUtf8Lossy_toUtf8]

private theorem separators_not_mem_formEncode (input : Str) :
    38 ∉ (formEncode input).bytes ∧ 61 ∉ (formEncode input).bytes := by
  have hbyte : ∀ byte, 38 ∉ formByte byte ∧ 61 ∉ formByte byte := by
    intro byte
    obtain ⟨hhigh, hlow⟩ := digits_lt byte
    unfold formByte appendPercentByte
    grind
  rw [formEncode_bytes, List.mem_flatMap, List.mem_flatMap]
  exact ⟨fun ⟨byte, _, hmem⟩ => (hbyte byte).1 hmem, fun ⟨byte, _, hmem⟩ => (hbyte byte).2 hmem⟩

/-! ### Appending pairs -/

/-- A pair as `append_query_param` writes it. -/
def pairStr (key value : Str) : Str :=
  Str.concat (Str.concat (formEncode key) (.lit "=")) (formEncode value)

private theorem queryPair_pairStr (key value : Str) :
    queryPair (pairStr key value) = (key, value) := by
  have hsplit : splitFirst (pairStr key value) (.lit "=") =
    some (formEncode key, formEncode value) :=
    (splitFirst_eq_some rfl).mpr ⟨by simp [pairStr, show (Str.lit "=").bytes = [61] from rfl],
      (separators_not_mem_formEncode key).2⟩
  rw [queryPair, hsplit]
  simp only [formDecode_formEncode]

private theorem ampersand_not_mem_pairStr (key value : Str) : 38 ∉ (pairStr key value).bytes := by
  simp only [pairStr, Str.concat_bytes, List.mem_append, not_or]
  exact ⟨⟨(separators_not_mem_formEncode key).1, by decide⟩,
    (separators_not_mem_formEncode value).1⟩

private theorem pairStr_ne_empty (key value : Str) : pairStr key value ≠ .lit "" := by
  intro h
  have hbytes := congrArg Str.bytes h
  simp [pairStr, show (Str.lit "=").bytes = [61] from rfl] at hbytes

private theorem queryPairs_of_ne {url : Url} {query : Str} (hquery : url.query = some query)
    (hne : query ≠ .lit "") : queryPairs url = (query.splitOn (.lit "&")).map queryPair := by
  rw [queryPairs, hquery]
  exact if_neg (by simpa using hne)

/-- A query that is absent or empty has no pairs, and takes the first one as it is. -/
theorem queryPairs_appendQueryParam_empty {url : Url} (h : ∀ query ∈ url.query, query = .lit "")
    (key value : Str) :
    queryPairs url = [] ∧ (appendQueryParam url key value).query = some (pairStr key value) := by
  cases hquery : url.query with
  | none => simp [queryPairs, appendQueryParam, hquery, pairStr]
  | some query =>
    obtain rfl := h query hquery
    simp [queryPairs, appendQueryParam, hquery, pairStr]

/-- One appended pair is one more pair read. -/
theorem queryPairs_appendQueryParam (url : Url) (key value : Str) :
    queryPairs (appendQueryParam url key value) = queryPairs url ++ [(key, value)] := by
  have hamp := ampersand_not_mem_pairStr key value
  by_cases hempty : ∀ query ∈ url.query, query = .lit ""
  · obtain ⟨hnone, hquery⟩ := queryPairs_appendQueryParam_empty hempty key value
    have halone : (pairStr key value).splitOn (.lit "&") = [pairStr key value] :=
      Str.splitOn_of_cut_none (Cut.cut_singleton_eq_none.mpr hamp)
    rw [hnone, queryPairs_of_ne hquery (pairStr_ne_empty key value), halone, List.map_singleton,
      queryPair_pairStr, List.nil_append]
  · simp only [not_forall] at hempty
    obtain ⟨existing, hexisting, hne⟩ := hempty
    have hquery : (appendQueryParam url key value).query =
        some (Str.concat (Str.concat existing (.lit "&")) (pairStr key value)) := by
      have hsome : url.query = some existing := hexisting
      simp [appendQueryParam, hsome, hne, pairStr]
    have hne' : Str.concat (Str.concat existing (.lit "&")) (pairStr key value) ≠ .lit "" := by
      intro h
      have hbytes := congrArg Str.bytes h
      simp [show (Str.lit "&").bytes = [38] from rfl] at hbytes
    rw [queryPairs_of_ne hexisting hne, queryPairs_of_ne hquery hne',
      Str.splitOn_concat rfl hamp, List.map_append, List.map_singleton, queryPair_pairStr]

/-- `append_query_param` for one pair after the other. -/
def appendQueryParams (url : Url) (pairs : List (Str × Str)) : Url :=
  pairs.foldl (fun url pair => appendQueryParam url pair.1 pair.2) url

/-- `with_query` accepts encoded text as it is. -/
theorem withQuery_encoded {query : Option Str} (h : EncodedOption .query query) (url : Url) :
    withQuery url query = .ok { url with query } := by
  cases query with
  | none => rfl
  | some value => simp [withQuery, validateComponent_encoded (h value rfl)]

/-- The pairs appended are the pairs read, behind those that were there, and nothing but the query
changes; the query that results is accepted as it is. -/
theorem queryPairs_appendQueryParams {url : Url} (h : Reachable url) (pairs : List (Str × Str)) :
    queryPairs (appendQueryParams url pairs) = queryPairs url ++ pairs ∧
      appendQueryParams url pairs = { url with query := (appendQueryParams url pairs).query } ∧
      ∀ base : Url, withQuery base (appendQueryParams url pairs).query =
        .ok { base with query := (appendQueryParams url pairs).query } := by
  induction pairs generalizing url with
  | nil =>
    exact ⟨(List.append_nil _).symm, rfl, withQuery_encoded h.canonical.query⟩
  | cons pair pairs ih =>
    obtain ⟨hpairs, hfields, hquery⟩ := ih (.appendQueryParam h pair.1 pair.2)
    have hcons : appendQueryParams url (pair :: pairs) =
        appendQueryParams (appendQueryParam url pair.1 pair.2) pairs := rfl
    rw [hcons]
    refine ⟨?_, ?_, hquery⟩
    · rw [hpairs, queryPairs_appendQueryParam, List.append_assoc, List.singleton_append]
    · conv_lhs => rw [hfields]
      rfl

/-- Duplicates, empty keys and values, and separators inside them. -/
theorem queryPairs_appendQueryParams_example :
    queryPairs (appendQueryParams ⟨.http, .lit "a", none, .lit "/", some (.lit "x&"), none⟩
        [(.lit "k", .lit "=&+ %"), (.lit "", .lit ""), (.lit "k", .lit "é")]) =
      queryPairs ⟨.http, .lit "a", none, .lit "/", some (.lit "x&"), none⟩ ++
        [(.lit "k", .lit "=&+ %"), (.lit "", .lit ""), (.lit "k", .lit "é")] :=
  (queryPairs_appendQueryParams (.parse
    (show parse (.lit "http://a?x&") = .ok _ by decide +kernel)) _).1

end TrantorCli.Url
