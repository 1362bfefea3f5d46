import TrantorCli.Lib.Words

/-!
# Percent-encoded bytes

Encoded text is a sequence of tokens: bytes that stand for themselves, and
escapes `%XX`. Decoding reads off what each token stands for; an escape that
lacks a digit is its three bytes.
-/

namespace Percent

/-- The value of a hexadecimal digit, in either case. -/
def digitValue (byte : UInt8) : Option UInt8 :=
  if 48 ≤ byte ∧ byte ≤ 57 then some (byte - 48)
  else if 65 ≤ byte ∧ byte ≤ 70 then some (byte - 55)
  else if 97 ≤ byte ∧ byte ≤ 102 then some (byte - 87)
  else none

/-- The byte that two hexadecimal digits denote. -/
def escaped (high low : UInt8) : Option UInt8 :=
  match digitValue high, digitValue low with
  | some h, some l => some (h * 16 + l)
  | _, _ => none

/-- What encoded text is made of. -/
inductive Token where
  /-- A byte that stands for itself. -/
  | plain (byte : UInt8)
  /-- An escape for a byte. -/
  | escape (byte : UInt8)
  deriving DecidableEq

/-- The byte that a token stands for. -/
def Token.value : Token → UInt8
  | plain byte => byte
  | escape byte => byte

/-- The tokens of a text. -/
def tokens (bytes : List UInt8) : List Token :=
  match bytes with
  | [] => []
  | byte :: rest =>
    if byte = 37 then
      match rest with
      | high :: low :: rest =>
        match escaped high low with
        | some value => .escape value :: tokens rest
        | none => .plain byte :: tokens (high :: low :: rest)
      | rest => .plain byte :: tokens rest
    else .plain byte :: tokens rest

/-- `percent-decode` -/
def decode (bytes : List UInt8) : List UInt8 := (tokens bytes).map Token.value

/-- No bytes, no tokens. -/
@[simp] theorem tokens_nil : tokens [] = [] := by rw [tokens]

/-- An escape is one token. -/
theorem tokens_escape {high low value : UInt8} (h : escaped high low = some value)
    (rest : List UInt8) : tokens (37 :: high :: low :: rest) = .escape value :: tokens rest := by
  rw [tokens, if_pos rfl]
  simp only [h]

/-- Any other byte is one. -/
theorem tokens_plain {byte : UInt8} (h : byte ≠ 37) (rest : List UInt8) :
    tokens (byte :: rest) = .plain byte :: tokens rest := by
  conv_lhs => unfold tokens
  simp only [h, if_false]

/-- A `%` that starts no escape stands for itself. -/
theorem tokens_percent {rest : List UInt8}
    (h : ∀ high low tail, rest = high :: low :: tail → escaped high low = none) :
    tokens (37 :: rest) = .plain 37 :: tokens rest := by
  cases rest with
  | nil => rfl
  | cons high rest =>
    cases rest with
    | nil => rfl
    | cons low tail =>
      conv_lhs => unfold tokens
      rw [if_pos rfl]
      simp only [h high low tail rfl]

/-- The byte of a token that stands for itself. -/
def Token.plainByte : Token → Option UInt8
  | plain byte => some byte
  | escape _ => none

/-- The bytes of a text that stand for themselves, in order. -/
def plainBytes (bytes : List UInt8) : List UInt8 := (tokens bytes).filterMap Token.plainByte

/-- No bytes decode to none. -/
@[simp] theorem decode_nil : decode [] = [] := by simp [decode]

/-- An escape decodes to its value. -/
theorem decode_escape {high low value : UInt8} (h : escaped high low = some value)
    (rest : List UInt8) : decode (37 :: high :: low :: rest) = value :: decode rest := by
  rw [decode, tokens_escape h]
  rfl

/-- Any other byte decodes to itself. -/
theorem decode_plain {byte : UInt8} (h : byte ≠ 37) (rest : List UInt8) :
    decode (byte :: rest) = byte :: decode rest := by
  rw [decode, tokens_plain h]
  rfl

end Percent
