import TrantorCli.Lib.Percent
import TrantorCli.Url.Encoded

/-!
# What validation keeps of a component

Validation rewrites the escapes of a component in upper case and escapes its
bytes beyond ASCII. Read as tokens, it changes none of the bytes that the
component stands for and escapes no ASCII byte, and it refuses a component at
the first byte that is forbidden or starts no escape.
-/

open Roc Percent

namespace TrantorCli.Url

/-! ### Hexadecimal digits -/

/-- `is_hex` and `hex_value` read the digits of both cases. -/
theorem digitValue_eq (byte : UInt8) :
    digitValue byte = if isHex byte then some (hexValue byte) else none := by
  unfold digitValue
  grind

/-- A hex digit is a byte that has a value as one. -/
theorem isHex_iff_digitValue {byte : UInt8} :
    isHex byte = true ↔ digitValue byte ≠ none := by
  rw [digitValue_eq]
  cases isHex byte <;> simp

/-- Two hex digits escape the byte of their value. -/
theorem escaped_of_isHex {high low : UInt8} (hhigh : isHex high = true) (hlow : isHex low = true) :
    escaped high low = some (hexValue high * 16 + hexValue low) := by
  rw [escaped, digitValue_eq, digitValue_eq, if_pos hhigh, if_pos hlow]

/-- Only hex digits escape. -/
theorem isHex_of_escaped {high low : UInt8} (h : escaped high low ≠ none) :
    isHex high = true ∧ isHex low = true := by
  rw [escaped, digitValue_eq, digitValue_eq] at h
  by_cases hhigh : isHex high = true
  · by_cases hlow : isHex low = true
    · exact ⟨hhigh, hlow⟩
    · simp [hhigh, hlow] at h
  · simp [hhigh] at h

private theorem hexValue_asciiUpperHex (byte : UInt8) :
    hexValue (asciiUpperHex byte) = hexValue byte := by
  grind

private theorem digitValue_hexDigitByte {value : UInt8} (h : value < 16) :
    digitValue (hexDigitByte value) = some value := by
  unfold digitValue
  grind

/-- The two digits of a byte. -/
theorem escaped_hexDigitByte (byte : UInt8) :
    escaped (hexDigitByte (byte / 16)) (hexDigitByte (byte % 16)) = some byte := by
  obtain ⟨hhigh, hlow⟩ := digits_lt byte
  have hbyte : byte / 16 * 16 + byte % 16 = byte := by
    have hlt := byte.toNat_lt
    apply UInt8.toNat_inj.mp
    simp only [UInt8.toNat_div, UInt8.toNat_mod, UInt8.toNat_add, UInt8.toNat_mul,
      UInt8.reduceToNat]
    omega
  rw [escaped, digitValue_hexDigitByte hhigh, digitValue_hexDigitByte hlow]
  exact congrArg some hbyte

private theorem plain_of_isHex {byte : UInt8} (h : isHex byte = true) (kind : Kind) :
    byte ≠ 37 ∧ isForbidden byte kind = false := by
  revert h
  apply Words.forall_uint8 _ byte
  cases kind <;> decide +kernel

/-! ### Tokens of validated text -/

/-- A token as validation writes it. -/
def encodeToken : Token → Token
  | .plain byte => if byte > 127 then .escape byte else .plain byte
  | .escape byte => .escape byte

/-- A byte that is escaped is read as one escape. -/
theorem tokens_percentByte (byte : UInt8) (rest : List UInt8) :
    tokens (appendPercentByte [] byte ++ rest) = .escape byte :: tokens rest :=
  tokens_escape (escaped_hexDigitByte byte) rest

/-- Validation keeps the tokens, but for escaping what is beyond ASCII. -/
theorem tokens_of_validateFrom {kind : Kind} {index : Nat} {bytes out : List UInt8}
    (h : validateFrom kind index bytes = .ok out) :
    tokens out = (tokens bytes).map encodeToken := by
  induction index, bytes using validateFrom.induct kind generalizing out with
  | case1 index =>
    cases h
    simp
  | case2 index high low rest hhex ih =>
    obtain ⟨hhigh, hlow⟩ := Bool.and_eq_true_iff.mp hhex
    rw [validateFrom_escape hhigh hlow, prepend_eq_ok] at h
    obtain ⟨tail, htail, rfl⟩ := h
    have hupper := escaped_of_isHex (isHex_of_isUpperHex (isUpperHex_asciiUpperHex hhigh))
      (isHex_of_isUpperHex (isUpperHex_asciiUpperHex hlow))
    rw [hexValue_asciiUpperHex, hexValue_asciiUpperHex] at hupper
    rw [tokens_escape (escaped_of_isHex hhigh hlow), List.map_cons, ← ih htail]
    exact tokens_escape hupper tail
  | case3 index high low rest hhex =>
    rw [validateFrom_notHex hhex] at h
    cases h
  | case4 index rest hshort =>
    rw [validateFrom_short hshort] at h
    cases h
  | case5 index byte rest hpercent hhigh ih =>
    rw [validateFrom_high hpercent hhigh, prepend_eq_ok] at h
    obtain ⟨tail, htail, rfl⟩ := h
    rw [tokens_percentByte, tokens_plain hpercent, List.map_cons, ← ih htail, encodeToken,
      if_pos hhigh]
  | case6 index byte rest hpercent hhigh hforbidden =>
    rw [validateFrom_forbidden hpercent hhigh hforbidden] at h
    cases h
  | case7 index byte rest hpercent hhigh hforbidden ih =>
    rw [validateFrom_plain hpercent hhigh hforbidden, prepend_eq_ok] at h
    obtain ⟨tail, htail, rfl⟩ := h
    rw [List.singleton_append, tokens_plain hpercent, tokens_plain hpercent, List.map_cons,
      ← ih htail, encodeToken, if_neg hhigh]

private theorem value_encodeToken (token : Token) : (encodeToken token).value = token.value := by
  cases token with
  | plain byte =>
    rw [encodeToken]
    split <;> rfl
  | escape byte => rfl

/-! ### Where a component is refused -/

/-- The byte at `index` is a `%` that starts no escape, or forbidden. -/
def Offends (kind : Kind) (bytes : List UInt8) (index : Nat) : Prop :=
  (bytes[index]? = some 37 ∧ ¬∃ high low, bytes[index + 1]? = some high ∧
    bytes[index + 2]? = some low ∧ escaped high low ≠ none) ∨
  ∃ byte, bytes[index]? = some byte ∧ byte ≠ 37 ∧ byte < 128 ∧ isForbidden byte kind = true

/-- The first byte that offends. -/
structure FirstOffence (kind : Kind) (bytes : List UInt8) (index : Nat) (byte : UInt8) : Prop where
  at_index : bytes[index]? = some byte
  offends : Offends kind bytes index
  first : ∀ j, j < index → ¬Offends kind bytes j

variable {kind : Kind} {bytes rest : List UInt8} {byte : UInt8} {index : Nat}

private theorem offends_cons_succ :
    Offends kind (byte :: rest) (index + 1) ↔ Offends kind rest index := by
  simp [Offends]

private theorem not_offends_nil : ¬Offends kind [] index := by simp [Offends]

/-- Nothing offends in a list if neither the first byte nor any later one does. -/
theorem not_offends_cons (hfirst : ¬Offends kind (byte :: rest) 0)
    (hrest : ∀ i, ¬Offends kind rest i) : ∀ i, ¬Offends kind (byte :: rest) i := by
  intro i
  cases i with
  | zero => exact hfirst
  | succ i => rw [offends_cons_succ]; exact hrest i

private theorem FirstOffence.cons {culprit : UInt8} (h : FirstOffence kind rest index culprit)
    (hfirst : ¬Offends kind (byte :: rest) 0) :
    FirstOffence kind (byte :: rest) (index + 1) culprit := by
  refine ⟨h.at_index, offends_cons_succ.mpr h.offends, fun j hj => ?_⟩
  cases j with
  | zero => exact hfirst
  | succ j => rw [offends_cons_succ]; exact h.first j (by omega)

private theorem firstOffence_zero (h : Offends kind (byte :: rest) 0) :
    FirstOffence kind (byte :: rest) 0 byte := ⟨rfl, h, fun j hj => by omega⟩

private theorem not_offends_plain (hpercent : byte ≠ 37)
    (hallowed : byte > 127 ∨ ¬isForbidden byte kind = true) : ¬Offends kind (byte :: rest) 0 := by
  rintro (⟨hget, -⟩ | ⟨other, hget, -, hascii, hforbidden⟩)
  · exact hpercent (by simpa using hget)
  · obtain rfl : byte = other := by simpa using hget
    rcases hallowed with hhigh | hallowed
    · exact not_high_iff.mpr hascii hhigh
    · exact hallowed hforbidden

private theorem not_offends_isHex (h : isHex byte = true) : ¬Offends kind (byte :: rest) 0 := by
  obtain ⟨hpercent, hallowed⟩ := plain_of_isHex h kind
  exact not_offends_plain hpercent (.inr (by simp [hallowed]))

/-- The error that describes an offending byte. -/
def offence (index : Nat) (byte : UInt8) : ParseErr :=
  if byte = 37 then .invalidPercentEncoding index else .invalidCharacter byte

/-- What an answer tells of the bytes from `index` on. -/
def Tells (kind : Kind) (index : Nat) (bytes : List UInt8) : Except ParseErr (List UInt8) → Prop
  | .ok _ => ∀ i, ¬Offends kind bytes i
  | .error err => ∃ i byte, FirstOffence kind bytes i byte ∧ err = offence (index + i) byte

variable {answer : Except ParseErr (List UInt8)}

private theorem tells_prepend (front : List UInt8) :
    Tells kind index bytes (prepend front answer) ↔ Tells kind index bytes answer := by
  cases answer <;> rfl

private theorem Tells.cons (h : Tells kind (index + 1) rest answer)
    (hfirst : ¬Offends kind (byte :: rest) 0) : Tells kind index (byte :: rest) answer := by
  cases answer with
  | ok out => exact not_offends_cons hfirst h
  | error err =>
    obtain ⟨i, culprit, hculprit, herr⟩ := h
    refine ⟨i + 1, culprit, hculprit.cons hfirst, ?_⟩
    rw [herr, Nat.add_right_comm, Nat.add_assoc]

private theorem tells_first (h : Offends kind (byte :: rest) 0) :
    Tells kind index (byte :: rest) (.error (offence index byte)) :=
  ⟨0, byte, firstOffence_zero h, rfl⟩

/-- Validation accepts what does not offend, and reports the first byte that does. -/
theorem tells_validateFrom (kind : Kind) (index : Nat) (bytes : List UInt8) :
    Tells kind index bytes (validateFrom kind index bytes) := by
  induction index, bytes using validateFrom.induct kind with
  | case1 index =>
    intro i
    exact not_offends_nil
  | case2 index high low rest hhex ih =>
    obtain ⟨hhigh, hlow⟩ := Bool.and_eq_true_iff.mp hhex
    rw [validateFrom_escape hhigh hlow, tells_prepend]
    have hpercent : ¬Offends kind (37 :: high :: low :: rest) 0 := by
      rintro (⟨-, hno⟩ | ⟨byte, hget, hne, -⟩)
      · exact hno ⟨high, low, rfl, rfl, by simp [escaped_of_isHex hhigh hlow]⟩
      · exact hne (by simpa using hget.symm)
    have hlow' : Tells kind (index + 2) (low :: rest) (validateFrom kind (index + 3) rest) :=
      ih.cons (not_offends_isHex hlow)
    have hhigh' : Tells kind (index + 1) (high :: low :: rest)
      (validateFrom kind (index + 3) rest) :=
      hlow'.cons (not_offends_isHex hhigh)
    exact hhigh'.cons hpercent
  | case3 index high low rest hhex =>
    rw [validateFrom_notHex hhex]
    refine tells_first (.inl ⟨rfl, ?_⟩)
    rintro ⟨high', low', hhigh', hlow', hescaped⟩
    obtain rfl : high = high' := by simpa using hhigh'
    obtain rfl : low = low' := by simpa using hlow'
    exact hhex (Bool.and_eq_true_iff.mpr (isHex_of_escaped hescaped))
  | case4 index rest hshort =>
    rw [validateFrom_short hshort]
    refine tells_first (.inl ⟨rfl, ?_⟩)
    rintro ⟨high, low, hhigh, hlow, -⟩
    rw [List.getElem?_cons_succ] at hhigh hlow
    obtain ⟨first, rest', rfl⟩ : ∃ first rest', rest = first :: rest' := by
      cases rest with
      | nil => simp at hhigh
      | cons first rest' => exact ⟨first, rest', rfl⟩
    cases rest' with
    | nil => simp at hlow
    | cons second rest'' => exact hshort first second rest'' rfl
  | case5 index byte rest hpercent hhigh ih =>
    rw [validateFrom_high hpercent hhigh, tells_prepend]
    exact ih.cons (not_offends_plain hpercent (.inl hhigh))
  | case6 index byte rest hpercent hhigh hforbidden =>
    rw [validateFrom_forbidden hpercent hhigh hforbidden]
    have herr : offence index byte = .invalidCharacter byte := if_neg hpercent
    rw [← herr]
    exact tells_first (.inr ⟨byte, rfl, hpercent, not_high_iff.mp hhigh, hforbidden⟩)
  | case7 index byte rest hpercent hhigh hforbidden ih =>
    rw [validateFrom_plain hpercent hhigh hforbidden, tells_prepend]
    exact ih.cons (not_offends_plain hpercent (.inr hforbidden))

/-! ### Components -/

/-- The plain bytes that are left are the ASCII ones. -/
theorem filterMap_encodeToken (ts : List Token) :
    (ts.map encodeToken).filterMap Token.plainByte =
      (ts.filterMap Token.plainByte).filter (· < 128) := by
  induction ts with
  | nil => rfl
  | cons token ts ih =>
    rw [List.map_cons]
    cases token with
    | escape byte => exact ih
    | plain byte =>
      have hbyte : Token.plainByte (.plain byte) = some byte := rfl
      rw [encodeToken, List.filterMap_cons_some hbyte, List.filter_cons, ← ih]
      by_cases hhigh : byte > 127
      · rw [if_pos hhigh, if_neg (by simpa using fun h => not_high_iff.mpr h hhigh)]
        rfl
      · rw [if_neg hhigh, if_pos (by simpa using not_high_iff.mp hhigh)]
        rfl

/-- Validation accepts exactly the components in which every `%` starts an escape and no other
ASCII byte is forbidden; what it returns is ASCII, stands for the same bytes with the same plain
ASCII bytes, and is accepted as it is; and an error describes the first byte that offends. -/
theorem validateComponent_meaning (raw : Str) (kind : Kind) :
    ((∃ out, validateComponent raw kind = .ok out) ↔ ∀ index, ¬Offends kind raw.bytes index) ∧
    (∀ out, validateComponent raw kind = .ok out →
      Utf8.Ascii out.bytes ∧ decode out.bytes = decode raw.bytes ∧
      tokens out.bytes = (tokens raw.bytes).map encodeToken ∧
      plainBytes out.bytes = (plainBytes raw.bytes).filter (· < 128) ∧
      validateComponent out kind = .ok out) ∧
    ∀ err, validateComponent raw kind = .error err →
      ∃ index byte, FirstOffence kind raw.bytes index byte ∧ err = offence index byte := by
  have htells := tells_validateFrom kind 0 raw.bytes
  have hanswer := validateComponent_eq raw kind
  rw [← hanswer] at htells
  cases hvalid : validateComponent raw kind with
  | error err =>
    rw [hvalid] at htells
    obtain ⟨index, byte, hfirst, rfl⟩ := htells
    refine ⟨⟨?_, fun hno => absurd hfirst.offends (hno index)⟩, ?_, ?_⟩
    · rintro ⟨out, hout⟩
      cases hout
    · intro out hout
      cases hout
    · intro err herr
      cases herr
      exact ⟨index, byte, hfirst, by rw [Nat.zero_add]⟩
  | ok out =>
    rw [hvalid] at htells hanswer
    have htokens := tokens_of_validateFrom hanswer.symm
    have hencoded := encoded_of_validateComponent hvalid
    refine ⟨⟨fun _ => htells, fun _ => ⟨out, rfl⟩⟩, ?_, ?_⟩
    · intro out' hout
      cases hout
      refine ⟨hencoded.ascii, ?_, htokens, ?_, validateComponent_encoded hencoded⟩
      · rw [decode, htokens, List.map_map, decode]
        exact List.map_congr_left fun token _ => value_encodeToken token
      · rw [plainBytes, htokens, filterMap_encodeToken, plainBytes]
    · intro err herr
      cases herr

end TrantorCli.Url
