import TrantorCli.Lib.SplitOn
import TrantorCli.Url.Component

/-!
# Encoded components

What validation returns is `Encoded`: escapes in upper case and allowed ASCII
bytes. Encoded text passes through validation unchanged, also when more text
follows it, and it can be cut and joined at any byte that cannot stand inside
an escape.
-/

open Roc

namespace TrantorCli.Url

/-- Component text in the form in which a `Url` stores it. -/
inductive Encoded (kind : Kind) : List UInt8 → Prop where
  | nil : Encoded kind []
  /-- A percent escape with upper-case digits. -/
  | escape {high low : UInt8} {rest : List UInt8} (hhigh : isUpperHex high = true)
      (hlow : isUpperHex low = true) (hrest : Encoded kind rest) :
      Encoded kind (37 :: high :: low :: rest)
  /-- An ASCII byte that the component allows. -/
  | plain {byte : UInt8} {rest : List UInt8} (hpercent : byte ≠ 37) (hascii : ¬byte > 127)
      (hallowed : ¬isForbidden byte kind = true) (hrest : Encoded kind rest) :
      Encoded kind (byte :: rest)

namespace Encoded

variable {kind : Kind} {a b : List UInt8}

/-- Encoded parts make an encoded whole. -/
theorem append (ha : Encoded kind a) (hb : Encoded kind b) : Encoded kind (a ++ b) := by
  induction ha with
  | nil => exact hb
  | escape hhigh hlow _ ih => exact .escape hhigh hlow ih
  | plain hpercent hascii hallowed _ ih => exact .plain hpercent hascii hallowed ih

/-- A byte that is kept is encoded. -/
theorem single {byte : UInt8} (hpercent : byte ≠ 37) (hascii : ¬byte > 127)
    (hallowed : ¬isForbidden byte kind = true) : Encoded kind [byte] :=
  .plain hpercent hascii hallowed .nil

/-- A percent escape is encoded whatever byte it stands for. -/
theorem percentByte (byte : UInt8) : Encoded kind (appendPercentByte [] byte) := by
  obtain ⟨hhigh, hlow⟩ := isUpperHex_hexDigitByte byte
  exact .escape hhigh hlow .nil

/-- What is encoded is ASCII. -/
theorem ascii (ha : Encoded kind a) : Utf8.Ascii a := by
  induction ha with
  | nil => simp
  | escape hhigh hlow _ ih =>
    have hdigit : ∀ byte : UInt8, isUpperHex byte = true → byte < 128 := fun byte hbyte =>
      UInt8.lt_of_le_of_lt (isUpperHex_range hbyte).2 (by decide)
    simp only [Utf8.ascii_cons]
    exact ⟨by decide, hdigit _ hhigh, hdigit _ hlow, ih⟩
  | plain _ hascii _ _ ih =>
    exact Utf8.ascii_cons.mpr ⟨not_high_iff.mp hascii, ih⟩

/-- Encoded text is text. -/
theorem valid (ha : Encoded kind a) : Utf8.Valid a := ha.ascii.valid

/-- A byte that is forbidden and stands in no escape does not occur. -/
theorem not_mem {byte : UInt8} (ha : Encoded kind a) (hpercent : byte ≠ 37)
    (hdigit : isUpperHex byte = false) (hforbidden : isForbidden byte kind = true) : byte ∉ a := by
  induction ha with
  | nil => simp
  | escape hhigh hlow _ ih =>
    simp only [List.mem_cons, not_or]
    refine ⟨hpercent, ?_, ?_, ih⟩
    · rintro rfl
      simp [hhigh] at hdigit
    · rintro rfl
      simp [hlow] at hdigit
  | plain _ _ hallowed _ ih =>
    simp only [List.mem_cons, not_or]
    refine ⟨?_, ih⟩
    rintro rfl
    exact hallowed hforbidden

/-- Encoded text may be cut at a byte that stands in no escape. -/
theorem cut {byte : UInt8} (h : Encoded kind (a ++ byte :: b)) (hpercent : byte ≠ 37)
    (hdigit : isUpperHex byte = false) : Encoded kind a ∧ Encoded kind b := by
  generalize hbytes : a ++ byte :: b = bytes at h
  induction h generalizing a with
  | nil => simp at hbytes
  | escape hhigh hlow hrest ih =>
    rename_i high low rest
    match a, hbytes with
    | [], hbytes => exact absurd (List.cons.inj hbytes).1 hpercent
    | [_], hbytes =>
      obtain ⟨-, htail⟩ := List.cons.inj hbytes
      obtain ⟨rfl, -⟩ := List.cons.inj htail
      simp [hhigh] at hdigit
    | [_, _], hbytes =>
      obtain ⟨-, htail⟩ := List.cons.inj hbytes
      obtain ⟨-, htail⟩ := List.cons.inj htail
      obtain ⟨rfl, -⟩ := List.cons.inj htail
      simp [hlow] at hdigit
    | x :: y :: z :: a, hbytes =>
      simp only [List.cons_append, List.cons.injEq] at hbytes
      obtain ⟨rfl, rfl, rfl, htail⟩ := hbytes
      obtain ⟨ha, hb⟩ := ih htail
      exact ⟨.escape hhigh hlow ha, hb⟩
  | plain hne hascii hallowed hrest ih =>
    cases a with
    | nil =>
      obtain ⟨-, rfl⟩ := List.cons.inj hbytes
      exact ⟨.nil, hrest⟩
    | cons x a =>
      obtain ⟨rfl, htail⟩ := List.cons.inj hbytes
      obtain ⟨ha, hb⟩ := ih htail
      exact ⟨.plain hne hascii hallowed ha, hb⟩

/-- Joining encoded pieces with an encoded separator. -/
theorem intercalate {sep : List UInt8} {pieces : List (List UInt8)} (hsep : Encoded kind sep)
    (hpieces : ∀ piece ∈ pieces, Encoded kind piece) : Encoded kind (sep.intercalate pieces) := by
  induction pieces with
  | nil => exact .nil
  | cons piece pieces ih =>
    have hpiece := hpieces piece (by simp)
    have hrest := ih fun p hp => hpieces p (by simp [hp])
    by_cases hne : pieces = []
    · subst hne
      rwa [List.intercalate_singleton]
    · rw [List.intercalate_cons_of_ne_nil hne]
      exact (hpiece.append hsep).append hrest

/-- An encoder of single bytes yields encoded text. -/
theorem flatMap {encode : UInt8 → List UInt8} (hencode : ∀ byte, Encoded kind (encode byte))
    (bytes : List UInt8) : Encoded kind (bytes.flatMap encode) := by
  induction bytes with
  | nil => exact .nil
  | cons byte bytes ih =>
    rw [List.flatMap_cons]
    exact (hencode byte).append ih

end Encoded

/-! ### Validation and encoded text -/

/-- An encoded prefix passes through validation unchanged. -/
theorem validateFrom_append {kind : Kind} {front : List UInt8} (hfront : Encoded kind front)
    (index : Nat) (rest : List UInt8) :
    validateFrom kind index (front ++ rest) =
      prepend front (validateFrom kind (index + front.length) rest) := by
  induction hfront generalizing index with
  | nil =>
    rw [List.nil_append, List.length_nil, Nat.add_zero]
    cases validateFrom kind index rest <;> simp
  | escape hhigh hlow _ ih =>
    rw [List.cons_append, List.cons_append, List.cons_append,
      validateFrom_escape (isHex_of_isUpperHex hhigh) (isHex_of_isUpperHex hlow),
      asciiUpperHex_of_isUpperHex hhigh, asciiUpperHex_of_isUpperHex hlow, ih, prepend_prepend,
      List.length_cons, List.length_cons, List.length_cons]
    congr 2
    omega
  | plain hpercent hascii hallowed _ ih =>
    rw [List.cons_append, validateFrom_plain hpercent hascii hallowed, ih, prepend_prepend,
      List.length_cons]
    congr 2
    omega

/-- Encoded text validates to itself. -/
theorem validateFrom_encoded {kind : Kind} {bytes : List UInt8} (h : Encoded kind bytes)
    (index : Nat) : validateFrom kind index bytes = .ok bytes := by
  have happend := validateFrom_append h index []
  rw [List.append_nil] at happend
  rw [happend, validateFrom, prepend_ok, List.append_nil]

/-- Validation returns encoded text. -/
theorem encoded_of_validateFrom {kind : Kind} {index : Nat} {bytes out : List UInt8}
    (h : validateFrom kind index bytes = .ok out) : Encoded kind out := by
  induction index, bytes using validateFrom.induct kind generalizing out with
  | case1 index =>
    cases h
    exact .nil
  | case2 index high low rest hhex ih =>
    obtain ⟨hhigh, hlow⟩ := Bool.and_eq_true_iff.mp hhex
    rw [validateFrom_escape hhigh hlow, prepend_eq_ok] at h
    obtain ⟨tail, htail, rfl⟩ := h
    exact .escape (isUpperHex_asciiUpperHex hhigh) (isUpperHex_asciiUpperHex hlow) (ih htail)
  | case3 index high low rest hhex =>
    rw [validateFrom_notHex hhex] at h
    cases h
  | case4 index rest hshort =>
    rw [validateFrom_short hshort] at h
    cases h
  | case5 index byte rest hpercent hhigh ih =>
    rw [validateFrom_high hpercent hhigh, prepend_eq_ok] at h
    obtain ⟨tail, htail, rfl⟩ := h
    exact (Encoded.percentByte byte).append (ih htail)
  | case6 index byte rest hpercent hhigh hforbidden =>
    rw [validateFrom_forbidden hpercent hhigh hforbidden] at h
    cases h
  | case7 index byte rest hpercent hhigh hforbidden ih =>
    rw [validateFrom_plain hpercent hhigh hforbidden, prepend_eq_ok] at h
    obtain ⟨tail, htail, rfl⟩ := h
    exact .plain hpercent hhigh hforbidden (ih htail)

private theorem mapError_prepend (f : ParseErr → ParseErr) (front : List UInt8)
    (answer : Except ParseErr (List UInt8)) :
    (prepend front answer).mapError f = prepend front (answer.mapError f) := by
  cases answer <;> rfl

/-- Validation further into a component reports the escapes further in. -/
theorem validateFrom_shift (kind : Kind) (index count : Nat) (bytes : List UInt8) :
    validateFrom kind (index + count) bytes =
      (validateFrom kind index bytes).mapError (ParseErr.shift count) := by
  induction index, bytes using validateFrom.induct kind with
  | case1 index => rfl
  | case2 index high low rest hhex ih =>
    obtain ⟨hhigh, hlow⟩ := Bool.and_eq_true_iff.mp hhex
    rw [validateFrom_escape hhigh hlow, validateFrom_escape hhigh hlow, mapError_prepend, ← ih,
      Nat.add_right_comm]
  | case3 index high low rest hhex =>
    rw [validateFrom_notHex hhex, validateFrom_notHex hhex]
    rfl
  | case4 index rest hshort =>
    rw [validateFrom_short hshort, validateFrom_short hshort]
    rfl
  | case5 index byte rest hpercent hhigh ih =>
    rw [validateFrom_high hpercent hhigh, validateFrom_high hpercent hhigh, mapError_prepend, ← ih,
      Nat.add_right_comm]
  | case6 index byte rest hpercent hhigh hforbidden =>
    rw [validateFrom_forbidden hpercent hhigh hforbidden,
      validateFrom_forbidden hpercent hhigh hforbidden]
    rfl
  | case7 index byte rest hpercent hhigh hforbidden ih =>
    rw [validateFrom_plain hpercent hhigh hforbidden, validateFrom_plain hpercent hhigh hforbidden,
      mapError_prepend, ← ih, Nat.add_right_comm]

/-! ### The functions on strings -/

/-- Validating a component goes from its first byte on. -/
theorem validateComponent_eq (raw : Str) (kind : Kind) :
    (validateComponent raw kind).map Str.bytes = validateFrom kind 0 raw.bytes := by
  have hwalk : validateComponentHelp raw.toUtf8 kind 0 [] = validateFrom kind 0 raw.bytes := by
    rw [validateComponentHelp_eq, List.drop_zero, Str.toUtf8_eq]
    cases validateFrom kind 0 raw.bytes <;> simp
  rw [validateComponent, hwalk]
  cases hanswer : validateFrom kind 0 raw.bytes with
  | error err => rfl
  | ok bytes =>
    have hbytes := Str.fromUtf8Lossy_bytes (encoded_of_validateFrom hanswer).valid
    simp only [Except.map, hbytes]

/-- A validated component is encoded. -/
theorem encoded_of_validateComponent {raw value : Str} {kind : Kind}
    (h : validateComponent raw kind = .ok value) : Encoded kind value.bytes := by
  have hanswer := validateComponent_eq raw kind
  rw [h] at hanswer
  exact encoded_of_validateFrom hanswer.symm

/-- An encoded component validates to itself. -/
theorem validateComponent_encoded {raw : Str} {kind : Kind} (h : Encoded kind raw.bytes) :
    validateComponent raw kind = .ok raw := by
  have hanswer := validateComponent_eq raw kind
  rw [validateFrom_encoded h] at hanswer
  cases hvalue : validateComponent raw kind with
  | error err => simp [hvalue, Except.map] at hanswer
  | ok value =>
    simp only [hvalue, Except.map, Except.ok.injEq] at hanswer
    rw [Str.ext hanswer]

/-- Every value of a present component is encoded. -/
def EncodedOption (kind : Kind) (option : Option Str) : Prop :=
  ∀ value ∈ option, Encoded kind value.bytes

/-- A component that was validated is encoded. -/
theorem encoded_of_validateOptional {option value : Option Str} {kind : Kind}
    (h : validateOptional option kind = .ok value) : EncodedOption kind value := by
  cases option with
  | none =>
    cases h
    simp [EncodedOption]
  | some raw =>
    rw [validateOptional] at h
    cases hvalid : validateComponent raw kind with
    | error err => simp [hvalid] at h
    | ok text =>
      simp only [hvalid, Except.ok.injEq] at h
      subst h
      simpa [EncodedOption] using encoded_of_validateComponent hvalid

/-- An encoded component is valid as it is. -/
theorem validateOptional_encoded {option : Option Str} {kind : Kind}
    (h : EncodedOption kind option) : validateOptional option kind = .ok option := by
  cases option with
  | none => rfl
  | some value => rw [validateOptional, validateComponent_encoded (h value rfl)]

end TrantorCli.Url
