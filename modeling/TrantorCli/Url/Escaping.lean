import TrantorCli.Url.Meaning

/-!
# Encoding of segments, keys and values

`percent_encode` and `form_encode` fold over the bytes of their input; each byte
adds an escape or itself. What they add is encoded text, and decoding gives the
bytes of the input back.
-/

open Roc Percent

namespace TrantorCli.Url

/-- Bytes that no component forbids and that start no escape. -/
theorem plain_of_isUnreserved {byte : UInt8} (h : isUnreserved byte = true) :
    byte ≠ 37 ∧ ¬byte > 127 ∧ ¬isForbidden byte .path = true := by
  revert h
  apply Words.forall_uint8 _ byte
  decide +kernel

/-- What a form leaves as it is, a query does. -/
theorem plain_of_isFormUnescaped {byte : UInt8} (h : isFormUnescaped byte = true) :
    byte ≠ 37 ∧ ¬byte > 127 ∧ ¬isForbidden byte .query = true := by
  revert h
  apply Words.forall_uint8 _ byte
  decide +kernel

/-- What `percent_encode` makes of one byte. -/
def segmentByte (byte : UInt8) : List UInt8 :=
  if isUnreserved byte then [byte] else appendPercentByte [] byte

/-- What `form_encode` makes of one byte. -/
def formByte (byte : UInt8) : List UInt8 :=
  if byte == 32 then [43] else if isFormUnescaped byte then [byte] else appendPercentByte [] byte

private theorem encoded_segmentByte (byte : UInt8) : Encoded .path (segmentByte byte) := by
  unfold segmentByte
  split
  · next hbyte =>
    obtain ⟨hpercent, hascii, hallowed⟩ := plain_of_isUnreserved hbyte
    exact .single hpercent hascii hallowed
  · exact .percentByte byte

private theorem encoded_formByte (byte : UInt8) : Encoded .query (formByte byte) := by
  unfold formByte
  split
  · exact .single (by decide) (by decide) (by decide)
  split
  · next hbyte =>
    obtain ⟨hpercent, hascii, hallowed⟩ := plain_of_isFormUnescaped hbyte
    exact .single hpercent hascii hallowed
  · exact .percentByte byte

/-- `percent_encode` goes byte by byte. -/
theorem percentEncode_bytes (input : Str) :
    (percentEncode input).bytes = input.bytes.flatMap segmentByte := by
  have hstep : (fun (out : List UInt8) byte =>
      if isUnreserved byte then out ++ [byte] else appendPercentByte out byte) =
      fun out byte => out ++ segmentByte byte := by
    funext out byte
    rw [segmentByte, appendPercentByte_eq]
    split <;> rfl
  rw [percentEncode, hstep, ← List.flatMap_eq_foldl,
    Str.fromUtf8Lossy_bytes (Encoded.flatMap encoded_segmentByte _).valid]

/-- `form_encode` goes byte by byte. -/
theorem formEncode_bytes (input : Str) :
    (formEncode input).bytes = input.bytes.flatMap formByte := by
  have hstep : (fun (out : List UInt8) byte =>
      if byte == 32 then out ++ [43]
      else if isFormUnescaped byte then out ++ [byte]
      else appendPercentByte out byte) = fun out byte => out ++ formByte byte := by
    funext out byte
    rw [formByte, appendPercentByte_eq]
    split
    · rfl
    · split <;> rfl
  rw [formEncode, hstep, ← List.flatMap_eq_foldl,
    Str.fromUtf8Lossy_bytes (Encoded.flatMap encoded_formByte _).valid]

/-- A percent-encoded segment is encoded path text. -/
theorem encoded_percentEncode (input : Str) : Encoded .path (percentEncode input).bytes := by
  rw [percentEncode_bytes]
  exact .flatMap encoded_segmentByte _

/-- A form-encoded key or value is encoded query text. -/
theorem encoded_formEncode (input : Str) : Encoded .query (formEncode input).bytes := by
  rw [formEncode_bytes]
  exact .flatMap encoded_formByte _

/-! ### Decoding -/

private theorem decode_percentByte (byte : UInt8) (rest : List UInt8) :
    decode (appendPercentByte [] byte ++ rest) = byte :: decode rest :=
  decode_escape (escaped_hexDigitByte byte) rest

/-- An encoded byte decodes to the byte. -/
theorem decode_segmentByte (byte : UInt8) (rest : List UInt8) :
    decode (segmentByte byte ++ rest) = byte :: decode rest := by
  unfold segmentByte
  split
  · next hbyte => exact decode_plain (plain_of_isUnreserved hbyte).1 rest
  · exact decode_percentByte byte rest

/-- A percent-encoded segment decodes to its bytes. -/
theorem decode_percentEncode (input : Str) : decode (percentEncode input).bytes = input.bytes := by
  rw [percentEncode_bytes]
  induction input.bytes with
  | nil => simp
  | cons byte rest ih => rw [List.flatMap_cons, decode_segmentByte, ih]

/-- Escaping leaves no slash. -/
theorem slash_not_mem_percentEncode (input : Str) : 47 ∉ (percentEncode input).bytes := by
  have hbyte : ∀ byte, 47 ∉ segmentByte byte := by
    intro byte
    obtain ⟨hhigh, hlow⟩ := digits_lt byte
    unfold segmentByte appendPercentByte
    grind
  rw [percentEncode_bytes, List.mem_flatMap]
  rintro ⟨byte, -, hmem⟩
  exact hbyte byte hmem

end TrantorCli.Url
