import TrantorCli.Host

/-!
# Locales

`Locale.parse` checks a language tag in stages: every subtag by itself, then the
first one, then the single characters that open an extension. A `Locale` keeps
the spelling it was parsed from; equality looks past the case of letters.
-/

open Roc

namespace TrantorCli

/-- `Locale.ParseErr` -/
inductive Locale.ParseErr where
  | empty
  | emptySubtag
  | invalidCharacter
  | invalidLanguage
  | missingExtensionValue
  | subtagTooLong
  deriving DecidableEq, Repr

namespace Locale

/-- `is_ascii_alpha` -/
def isAsciiAlpha (byte : UInt8) : Bool := (65 ≤ byte && byte ≤ 90) || (97 ≤ byte && byte ≤ 122)

/-- `is_ascii_digit` -/
def isAsciiDigit (byte : UInt8) : Bool := 48 ≤ byte && byte ≤ 57

/-- `is_ascii_alphanumeric` -/
def isAsciiAlphanumeric (byte : UInt8) : Bool := isAsciiAlpha byte || isAsciiDigit byte

/-- `has_invalid_character` -/
def hasInvalidCharacter (subtag : Str) : Bool := !subtag.toUtf8.all isAsciiAlphanumeric

/-- `ascii_byte_eq`; `expected` is a lower-case letter wherever it is called. -/
def asciiByteEq (bytes : List UInt8) (expected : UInt8) : Bool :=
  match bytes with
  | [byte] => byte == expected || byte == expected - 32
  | _ => false

/-- `ascii_lower` -/
def asciiLower (input : Str) : Str := Str.fromUtf8Lossy (input.toUtf8.map AsciiCase.lower)

/-- `validate_extensions` -/
def validateExtensions (subtags : List Str) : Except ParseErr Unit :=
  match subtags with
  | [] => .ok ()
  | subtag :: rest =>
    let bytes := subtag.toUtf8
    if bytes.length = 1 then
      if rest.isEmpty then .error .missingExtensionValue
      -- What follows `x` is private use, and nothing more is asked of it.
      else if asciiByteEq bytes 120 then .ok ()
      else validateExtensions rest
    else validateExtensions rest

/-- `validate_structure` -/
def validateStructure (subtags : List Str) : Except ParseErr Unit :=
  match subtags with
  | [] => .error .empty
  | language :: rest =>
    let languageBytes := language.toUtf8
    let languageLen := languageBytes.length
    let isSpecial :=
      languageLen == 1 && (asciiByteEq languageBytes 120 || asciiByteEq languageBytes 105)
    if isSpecial then
      if rest.isEmpty then .error .missingExtensionValue
      else if asciiByteEq languageBytes 120 then .ok ()
      else validateExtensions rest
    else if languageLen < 2 || !languageBytes.all isAsciiAlpha then .error .invalidLanguage
    else validateExtensions rest

/-- `validate` -/
def validate (input : Str) : Except ParseErr Unit :=
  if input.isEmpty then .error .empty
  else
    let subtags := input.splitOn (.lit "-")
    if subtags.any Str.isEmpty then .error .emptySubtag
    else if subtags.any hasInvalidCharacter then .error .invalidCharacter
    else if subtags.any fun subtag => subtag.toUtf8.length > 8 then .error .subtagTooLong
    else validateStructure subtags

end Locale

/-- `Locale`: a string that validates. -/
structure Locale where
  raw : Str
  valid : Locale.validate raw = .ok ()

namespace Locale

/-- `Locale.parse` -/
def parse (input : Str) : Except ParseErr Locale :=
  match h : validate input with
  | .ok () => .ok ⟨input, h⟩
  | .error err => .error err

/-- `Locale.is_eq` -/
def isEq (left right : Locale) : Bool := asciiLower left.raw == asciiLower right.raw

/-- `List.keep_oks` -/
def keepOks {α β ε : Type} (list : List α) (toResult : α → Except ε β) : List β :=
  list.filterMap fun x => (toResult x).toOption

/-- `Locale.all!` -/
def all (env : Env) : List Locale := keepOks (Host.localeAll env) parse

/-- Parsing succeeds exactly on what validates, and keeps the spelling. -/
theorem parse_eq_ok_iff {input : Str} {locale : Locale} :
    parse input = .ok locale ↔ locale.raw = input := by
  constructor
  · intro h
    rw [parse] at h
    split at h
    · cases h
      rfl
    · cases h
  · rintro rfl
    rw [parse]
    split
    · rfl
    · next err h =>
      rw [locale.valid] at h
      cases h

/-- The outcome of parsing, its error included, is that of validation. -/
theorem map_parse (input : Str) : (parse input).map (fun _ => ()) = validate input := by
  rw [parse]
  split
  · next h => exact h.symm
  · next err h => exact h.symm

/-- Some locale is parsed exactly when the text is valid. -/
theorem exists_parse_iff {input : Str} :
    (∃ locale, parse input = .ok locale) ↔ validate input = .ok () := by
  constructor
  · rintro ⟨locale, h⟩
    rw [← parse_eq_ok_iff.mp h]
    exact locale.valid
  · intro h
    exact ⟨⟨input, h⟩, parse_eq_ok_iff.mpr rfl⟩

/-- Lowercasing goes byte for byte. -/
theorem asciiLower_bytes (input : Str) :
    (asciiLower input).bytes = input.bytes.map AsciiCase.lower :=
  AsciiCase.fromUtf8Lossy_lower input

/-- Two strings have one lowered form exactly when they differ only in case. -/
theorem asciiLower_eq_iff {s t : Str} :
    asciiLower s = asciiLower t ↔ AsciiCase.SameButCase s.bytes t.bytes := by
  rw [Str.ext_iff, asciiLower_bytes, asciiLower_bytes, AsciiCase.map_lower_eq_iff]

/-- Locales are equal when their texts are the same but for case. -/
theorem isEq_iff {left right : Locale} :
    isEq left right = true ↔ AsciiCase.SameButCase left.raw.bytes right.raw.bytes := by
  rw [isEq, beq_iff_eq, asciiLower_eq_iff]

end Locale

end TrantorCli
