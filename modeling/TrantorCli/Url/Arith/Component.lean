import TrantorCli.Url.Arith.Bytes
import TrantorCli.Url.Parse
import TrantorCli.Url.QueryPairs

/-!
# Arithmetic of the walks by index

Validation and form decoding step through a component by index, one byte or one
escape at a time. An index never passes the length by more than two, and the
length of a string leaves that much room below the limit of `U64`.
-/

open Roc Roc.Checked

namespace TrantorCli.Url.Arith

/-- `validate_component_help` -/
def validateComponentHelp (bytes : List UInt8) (kind : Kind) (index : Nat) (out : List UInt8) :
    ExceptT ParseErr Checked (List UInt8) :=
  if index ≥ bytes.length then return out
  else
    let byte := getOrZero bytes index
    if byte == 37 then do
      let ⟨second, _⟩ ← addU64 index 2
      let ⟨first, _⟩ ← addU64 index 1
      if second ≥ bytes.length || !isHex (getOrZero bytes first) ||
          !isHex (getOrZero bytes second) then
        throw (.invalidPercentEncoding index)
      else do
        let high ← asciiUpperHex (getOrZero bytes first)
        let low ← asciiUpperHex (getOrZero bytes second)
        let ⟨next, _⟩ ← addU64 index 3
        validateComponentHelp bytes kind next (out ++ [37] ++ [high] ++ [low])
    else if byte > 127 then do
      let ⟨next, _⟩ ← addU64 index 1
      let encoded ← appendPercentByte out byte
      validateComponentHelp bytes kind next encoded
    else if isForbidden byte kind then throw (.invalidCharacter byte)
    else do
      let ⟨next, _⟩ ← addU64 index 1
      validateComponentHelp bytes kind next (out ++ [byte])
termination_by bytes.length - index

/-- `validate_component` -/
def validateComponent (raw : Str) (kind : Kind) : ExceptT ParseErr Checked Str := do
  return Str.fromUtf8Lossy (← validateComponentHelp raw.toUtf8 kind 0 [])

/-- `validate_optional` -/
def validateOptional (option : Option Str) (kind : Kind) : ExceptT ParseErr Checked (Option Str) :=
  match option with
  | none => return none
  | some raw => do return some (← validateComponent raw kind)

/-- The validation both parsers end with, in the source's order. -/
def validateComponents (pathInput : Str) (query fragment : Option Str) :
    ExceptT ParseErr Checked Components := do
  let path ← validateComponent pathInput .path
  let encodedQuery ← validateOptional query .query
  let encodedFragment ← validateOptional fragment .fragment
  return ⟨path, encodedQuery, encodedFragment⟩

/-- The test for an escape in `form_decode_help`. -/
def isEscape (bytes : List UInt8) (index : Nat) : Checked Bool :=
  if getOrZero bytes index == 37 then do
    let ⟨second, _⟩ ← addU64 index 2
    let ⟨first, _⟩ ← addU64 index 1
    return decide (second < bytes.length) && isHex (getOrZero bytes first) &&
      isHex (getOrZero bytes second)
  else return false

/-- What `form_decode_help` decodes an escape to. -/
def decodedAt (bytes : List UInt8) (index : Nat) : Checked UInt8 := do
  let ⟨first, _⟩ ← addU64 index 1
  let high ← hexValue (getOrZero bytes first)
  let product ← mulU8 high 16
  let ⟨second, _⟩ ← addU64 index 2
  let low ← hexValue (getOrZero bytes second)
  addU8 product low

/-- `form_decode_help` -/
def formDecodeHelp (bytes : List UInt8) (index : Nat) (out : List UInt8) : Checked (List UInt8) :=
  if index ≥ bytes.length then return out
  else
    let byte := getOrZero bytes index
    if byte == 43 then do
      let ⟨next, _⟩ ← addU64 index 1
      formDecodeHelp bytes next (out ++ [32])
    else do
      if ← isEscape bytes index then
        let decoded ← decodedAt bytes index
        let ⟨next, _⟩ ← addU64 index 3
        formDecodeHelp bytes next (out ++ [decoded])
      else
        let ⟨next, _⟩ ← addU64 index 1
        formDecodeHelp bytes next (out ++ [byte])
termination_by bytes.length - index

/-- `form_decode` -/
def formDecode (input : Str) : Checked Str := do
  return Str.fromUtf8Lossy (← formDecodeHelp input.toUtf8 0 [])

/-! ### Validation -/

/-- A step from an index of a string. -/
theorem addU64_index {s : Str} (hfits : s.Fits) {index step : Nat}
    (hlt : ¬index ≥ s.bytes.length) (hstep : step ≤ 3) :
    addU64 index step = .ok ⟨index + step, rfl⟩ := by
  refine guarded_of ?_
  unfold Str.Fits at hfits
  rw [limitU64]
  omega

private theorem validateComponentHelp_yields {raw : Str} (hfits : raw.Fits) (kind : Kind)
    (index : Nat)
    (out : List UInt8) :
    Yields (validateComponentHelp raw.bytes kind index out)
      (Url.validateComponentHelp raw.bytes kind index out) := by
  induction hleft : raw.bytes.length - index using Nat.strongRecOn generalizing index out with
  | ind left ih =>
    rw [validateComponentHelp, Url.validateComponentHelp]
    refine .ite (fun _ => .pure _) fun hlt => ?_
    have hnext : ∀ {step : Nat}, 0 < step → raw.bytes.length - (index + step) < left := by
      intro step hpos
      omega
    refine .ite (fun _ => ?_) fun _ => .ite (fun _ => ?_) fun _ =>
      .ite (fun _ => .throw _) fun _ => ?_
    · refine .lift (addU64_index hfits hlt (by decide)) ?_
      refine .lift (addU64_index hfits hlt (by decide)) ?_
      refine .ite (fun _ => .throw _) fun _ => ?_
      refine .lift (asciiUpperHex_ok _) (.lift (asciiUpperHex_ok _) ?_)
      refine .lift (addU64_index hfits hlt (by decide)) ?_
      exact ih _ (hnext (by decide)) _ _ rfl
    · refine .lift (addU64_index hfits hlt (by decide)) ?_
      refine .lift (appendPercentByte_ok _ _) ?_
      exact ih _ (hnext (by decide)) _ _ rfl
    · refine .lift (addU64_index hfits hlt (by decide)) ?_
      exact ih _ (hnext (by decide)) _ _ rfl

private theorem validateComponent_yields {raw : Str} (hfits : raw.Fits) (kind : Kind) :
    Yields (validateComponent raw kind) (Url.validateComponent raw kind) := by
  have hwalk : Yields (validateComponent raw kind)
      (Url.validateComponentHelp raw.bytes kind 0 [] >>= fun bytes =>
        .ok (Str.fromUtf8Lossy bytes)) :=
    .bind (validateComponentHelp_yields hfits kind 0 []) fun bytes _ => .pure _
  rw [Url.validateComponent]
  cases hresult : Url.validateComponentHelp raw.bytes kind 0 [] with
  | ok bytes => rwa [hresult] at hwalk
  | error err => rwa [hresult] at hwalk

/-- An optional component is validated without an overflow. -/
theorem validateOptional_yields {option : Option Str} (hfits : ∀ raw ∈ option, raw.Fits)
    (kind : Kind) : Yields (validateOptional option kind) (Url.validateOptional option kind) := by
  cases option with
  | none => exact .pure _
  | some raw =>
    have hvalidate : Yields (validateOptional (some raw) kind)
        (Url.validateComponent raw kind >>= fun value => .ok (some value)) :=
      .bind (validateComponent_yields (hfits raw rfl) kind) fun value _ => .pure _
    rw [Url.validateOptional]
    cases hresult : Url.validateComponent raw kind with
    | ok value => rwa [hresult] at hvalidate
    | error err => rwa [hresult] at hvalidate

/-- The components are validated without an overflow. -/
theorem validateComponents_yields {pathInput : Str} {query fragment : Option Str}
    (hpath : pathInput.Fits) (hquery : ∀ raw ∈ query, raw.Fits)
    (hfragment : ∀ raw ∈ fragment, raw.Fits) :
    Yields (validateComponents pathInput query fragment)
      (Url.validateComponents pathInput query fragment) := by
  refine .bind (validateComponent_yields hpath _) fun path _ => ?_
  refine .bind (validateOptional_yields hquery _) fun encodedQuery _ => ?_
  exact .bind (validateOptional_yields hfragment _) fun encodedFragment _ => .pure _

/-! ### Form decoding -/

private theorem isEscape_ok {input : Str} (hfits : input.Fits) {index : Nat}
    (hlt : ¬index ≥ input.bytes.length) :
    isEscape input.bytes index = .ok (getOrZero input.bytes index == 37 &&
      decide (index + 2 < input.bytes.length) && isHex (getOrZero input.bytes (index + 1)) &&
      isHex (getOrZero input.bytes (index + 2))) := by
  rw [isEscape, addU64_index hfits hlt (by decide), addU64_index hfits hlt (by decide)]
  cases getOrZero input.bytes index == 37 <;> rfl

/-- Two hexadecimal digits make a byte. -/
theorem decodedAt_ok {input : Str} (hfits : input.Fits) {index : Nat}
    (hlt : ¬index ≥ input.bytes.length) (hhigh : isHex (getOrZero input.bytes (index + 1)) = true)
    (hlow : isHex (getOrZero input.bytes (index + 2)) = true) :
    decodedAt input.bytes index = .ok (Url.hexValue (getOrZero input.bytes (index + 1)) * 16 +
      Url.hexValue (getOrZero input.bytes (index + 2))) := by
  have hhigh' := hexValue_lt hhigh
  have hlow' := hexValue_lt hlow
  rw [decodedAt, addU64_index hfits hlt (by decide), addU64_index hfits hlt (by decide)]
  simp only [Try.ok_bind, hexValue_ok hhigh, hexValue_ok hlow]
  rw [mulU8, guarded_of (by simp only [UInt8.reduceToNat]; omega), Try.ok_bind, addU8, guarded_of]
  simp only [UInt8.toNat_mul, UInt8.reduceToNat]
  omega

private theorem formDecodeHelp_ok {input : Str} (hfits : input.Fits) (index : Nat)
    (out : List UInt8) :
    formDecodeHelp input.bytes index out = .ok (Url.formDecodeHelp input.bytes index out) := by
  induction index, out using Url.formDecodeHelp.induct input.bytes with
  | case1 index out hend =>
    rw [formDecodeHelp, Url.formDecodeHelp, if_pos hend, if_pos hend]
    rfl
  | case2 index out hlt byte hplus ih =>
    rw [formDecodeHelp, Url.formDecodeHelp, if_neg hlt, if_neg hlt]
    simp only [byte] at hplus
    simp only [hplus, if_true, addU64_index hfits hlt (show 1 ≤ 3 by decide), Try.ok_bind, ih]
  | case3 index out hlt byte hplus hescape decoded ih =>
    simp only [byte] at hplus hescape
    have hdigits : isHex (getOrZero input.bytes (index + 1)) = true ∧
        isHex (getOrZero input.bytes (index + 2)) = true := by
      simp only [Bool.and_eq_true] at hescape
      exact ⟨hescape.1.2, hescape.2⟩
    rw [formDecodeHelp, Url.formDecodeHelp, if_neg hlt, if_neg hlt]
    simp only [hplus, hescape, isEscape_ok hfits hlt, decodedAt_ok hfits hlt hdigits.1 hdigits.2,
      addU64_index hfits hlt (show 3 ≤ 3 by decide), Try.ok_bind, if_true]
    exact ih
  | case4 index out hlt byte hplus hplain ih =>
    simp only [byte] at hplus hplain
    rw [formDecodeHelp, Url.formDecodeHelp, if_neg hlt, if_neg hlt]
    simp only [hplus, hplain, isEscape_ok hfits hlt, addU64_index hfits hlt (show 1 ≤ 3 by decide),
      Try.ok_bind]
    exact ih

/-- Form decoding takes no overflow. -/
theorem formDecode_ok {input : Str} (hfits : input.Fits) :
    formDecode input = .ok (Url.formDecode input) := by
  rw [formDecode, Str.toUtf8_eq, formDecodeHelp_ok hfits]
  rfl

end TrantorCli.Url.Arith
