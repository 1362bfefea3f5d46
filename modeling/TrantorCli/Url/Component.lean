import TrantorCli.Url.Basic
import TrantorCli.Url.Bytes

/-!
# Path, query and fragment validation

`validate_component_help` walks a component by index and copies what it accepts.
Read on the bytes that are left instead it is structurally recursive, and the
two readings are proved equal here.
-/

open Roc

namespace TrantorCli.Url

/-- `[Fragment, Path, Query]` -/
inductive Kind where
  | fragment
  | path
  | query
  deriving DecidableEq, Repr

/-- `is_forbidden` -/
def isForbidden (byte : UInt8) (kind : Kind) : Bool :=
  let common :=
    byte ≤ 32 || byte == 127 || byte == 34 || byte == 60 || byte == 62 || byte == 92
  if common then true
  else
    match kind with
    | .path => byte == 35 || byte == 63
    | .query => byte == 35
    | .fragment => false

/-- `validate_component_help` -/
def validateComponentHelp (bytes : List UInt8) (kind : Kind) (index : Nat) (out : List UInt8) :
    Except ParseErr (List UInt8) :=
  if index ≥ bytes.length then .ok out
  else
    let byte := getOrZero bytes index
    if byte == 37 then
      if index + 2 ≥ bytes.length || !isHex (getOrZero bytes (index + 1)) ||
          !isHex (getOrZero bytes (index + 2)) then
        .error (.invalidPercentEncoding index)
      else
        let next := out ++ [37] ++ [asciiUpperHex (getOrZero bytes (index + 1))]
          ++ [asciiUpperHex (getOrZero bytes (index + 2))]
        validateComponentHelp bytes kind (index + 3) next
    else if byte > 127 then
      validateComponentHelp bytes kind (index + 1) (appendPercentByte out byte)
    else if isForbidden byte kind then .error (.invalidCharacter byte)
    else validateComponentHelp bytes kind (index + 1) (out ++ [byte])
termination_by bytes.length - index

/-- `validate_component` -/
def validateComponent (raw : Str) (kind : Kind) : Except ParseErr Str :=
  match validateComponentHelp raw.toUtf8 kind 0 [] with
  | .ok bytes => .ok (Str.fromUtf8Lossy bytes)
  | .error err => .error err

/-- `validate_optional` -/
def validateOptional (option : Option Str) (kind : Kind) : Except ParseErr (Option Str) :=
  match option with
  | none => .ok none
  | some raw =>
    match validateComponent raw kind with
    | .ok value => .ok (some value)
    | .error err => .error err

/-- `percent_encode` -/
def percentEncode (input : Str) : Str :=
  Str.fromUtf8Lossy <| input.toUtf8.foldl
    (fun out byte => if isUnreserved byte then out ++ [byte] else appendPercentByte out byte) []

/-- `form_encode` -/
def formEncode (input : Str) : Str :=
  Str.fromUtf8Lossy <| input.toUtf8.foldl
    (fun out byte =>
      if byte == 32 then out ++ [43]
      else if isFormUnescaped byte then out ++ [byte]
      else appendPercentByte out byte) []

/-! ### Validation on the bytes that are left -/

/-- Puts accepted bytes in front of an answer. -/
def prepend (front : List UInt8) (answer : Except ParseErr (List UInt8)) :
    Except ParseErr (List UInt8) :=
  answer.map (front ++ ·)

/-- What is put in front of a result. -/
@[simp] theorem prepend_ok (front bytes : List UInt8) :
    prepend front (.ok bytes) = .ok (front ++ bytes) := rfl

/-- Nothing is put in front of an error. -/
@[simp] theorem prepend_error (front : List UInt8) (err : ParseErr) :
    prepend front (.error err) = .error err := rfl

/-- What is put in front twice. -/
@[simp] theorem prepend_prepend (a b : List UInt8) (answer : Except ParseErr (List UInt8)) :
    prepend a (prepend b answer) = prepend (a ++ b) answer := by
  cases answer <;> simp

/-- A result with something in front. -/
theorem prepend_eq_ok {front out : List UInt8} {answer : Except ParseErr (List UInt8)} :
    prepend front answer = .ok out ↔ ∃ bytes, answer = .ok bytes ∧ front ++ bytes = out := by
  cases answer <;> simp

/-- Validation of the bytes from `index` on, as a recursion on those bytes. -/
def validateFrom (kind : Kind) (index : Nat) (bytes : List UInt8) :
    Except ParseErr (List UInt8) :=
  match bytes with
  | [] => .ok []
  | byte :: rest =>
    if byte = 37 then
      match rest with
      | high :: low :: rest =>
        if isHex high && isHex low then
          prepend [37, asciiUpperHex high, asciiUpperHex low] (validateFrom kind (index + 3) rest)
        else .error (.invalidPercentEncoding index)
      | _ => .error (.invalidPercentEncoding index)
    else if byte > 127 then
      prepend (appendPercentByte [] byte) (validateFrom kind (index + 1) rest)
    else if isForbidden byte kind then .error (.invalidCharacter byte)
    else prepend [byte] (validateFrom kind (index + 1) rest)

/-- An escape is kept, in upper case. -/
theorem validateFrom_escape {high low : UInt8} (hhigh : isHex high = true)
    (hlow : isHex low = true) (kind : Kind) (index : Nat) (rest : List UInt8) :
    validateFrom kind index (37 :: high :: low :: rest) =
      prepend [37, asciiUpperHex high, asciiUpperHex low] (validateFrom kind (index + 3) rest) := by
  rw [validateFrom, if_pos rfl]
  simp only [hhigh, hlow, Bool.and_self, if_true]

/-- A percent sign without two hex digits is an error. -/
theorem validateFrom_notHex {high low : UInt8} (h : ¬(isHex high && isHex low) = true)
    (kind : Kind) (index : Nat) (rest : List UInt8) :
    validateFrom kind index (37 :: high :: low :: rest) =
      .error (.invalidPercentEncoding index) := by
  rw [validateFrom, if_pos rfl]
  simp only [h]
  rfl

/-- So is one too near to the end. -/
theorem validateFrom_short {rest : List UInt8}
    (h : ∀ high low rest', rest = high :: low :: rest' → False) (kind : Kind) (index : Nat) :
    validateFrom kind index (37 :: rest) = .error (.invalidPercentEncoding index) := by
  match rest, h with
  | [], _ => rfl
  | [_], _ => rfl
  | high :: low :: rest', h => exact (h high low rest' rfl).elim

/-- A byte beyond ASCII is escaped. -/
theorem validateFrom_high {byte : UInt8} (hpercent : byte ≠ 37) (hhigh : byte > 127) (kind : Kind)
    (index : Nat) (rest : List UInt8) :
    validateFrom kind index (byte :: rest) =
      prepend (appendPercentByte [] byte) (validateFrom kind (index + 1) rest) := by
  conv_lhs => unfold validateFrom
  simp only [hpercent, hhigh, if_false, if_true]

/-- A byte that the component forbids is an error. -/
theorem validateFrom_forbidden {byte : UInt8} (hpercent : byte ≠ 37) (hhigh : ¬byte > 127)
    {kind : Kind} (hforbidden : isForbidden byte kind = true) (index : Nat) (rest : List UInt8) :
    validateFrom kind index (byte :: rest) = .error (.invalidCharacter byte) := by
  unfold validateFrom
  simp only [hpercent, hhigh, hforbidden, if_false, if_true]

/-- Any other byte is kept. -/
theorem validateFrom_plain {byte : UInt8} (hpercent : byte ≠ 37) (hhigh : ¬byte > 127)
    {kind : Kind} (hforbidden : ¬isForbidden byte kind = true) (index : Nat) (rest : List UInt8) :
    validateFrom kind index (byte :: rest) =
      prepend [byte] (validateFrom kind (index + 1) rest) := by
  conv_lhs => unfold validateFrom
  simp only [hpercent, hhigh, hforbidden, if_false]
  rfl

/-- The byte at an index stands before those from the next on. -/
theorem drop_eq_getOrZero_cons {bytes : List UInt8} {index : Nat} (h : index < bytes.length) :
    bytes.drop index = getOrZero bytes index :: bytes.drop (index + 1) := by
  rw [List.drop_eq_getElem_cons h, getOrZero, List.getD_eq_getElem _ _ h]

/-- An escape that lacks a digit is refused where it starts. -/
theorem validateFrom_badEscape {bytes : List UInt8} {index : Nat} (kind : Kind)
    (hlt : index < bytes.length) (hpercent : getOrZero bytes index = 37)
    (hbad : index + 2 ≥ bytes.length ∨ isHex (getOrZero bytes (index + 1)) = false ∨
      isHex (getOrZero bytes (index + 2)) = false) :
    validateFrom kind index (bytes.drop index) = .error (.invalidPercentEncoding index) := by
  rw [drop_eq_getOrZero_cons hlt, hpercent]
  by_cases hlen : index + 2 < bytes.length
  · rw [drop_eq_getOrZero_cons (show index + 1 < bytes.length by omega),
      drop_eq_getOrZero_cons (show index + 1 + 1 < bytes.length from hlen)]
    refine validateFrom_notHex ?_ kind index _
    rcases hbad with h | h | h
    · omega
    · simp [h]
    · simp [h]
  · refine validateFrom_short (fun high low rest heq => ?_) kind index
    have hdrop : (bytes.drop (index + 1)).length < 2 := by
      rw [List.length_drop]
      omega
    rw [heq, List.length_cons, List.length_cons] at hdrop
    omega

/-- An escape is put behind what there was. -/
theorem appendPercentByte_eq (out : List UInt8) (byte : UInt8) :
    appendPercentByte out byte = out ++ appendPercentByte [] byte := by
  simp [appendPercentByte]

/-- The walk by index is the recursion on the bytes that are left. -/
theorem validateComponentHelp_eq (bytes : List UInt8) (kind : Kind) (index : Nat)
    (out : List UInt8) :
    validateComponentHelp bytes kind index out =
      prepend out (validateFrom kind index (bytes.drop index)) := by
  induction index, out using validateComponentHelp.induct bytes kind with
  | case1 index out hend =>
    rw [validateComponentHelp, if_pos hend, List.drop_eq_nil_of_le hend]
    simp [validateFrom]
  | case2 index out hlt byte hpercent hbad =>
    have hbad' : index + 2 ≥ bytes.length ∨ isHex (getOrZero bytes (index + 1)) = false ∨
        isHex (getOrZero bytes (index + 2)) = false := by
      simpa [or_assoc] using hbad
    rw [validateFrom_badEscape kind (Nat.lt_of_not_ge hlt) (eq_of_beq hpercent) hbad',
      validateComponentHelp, if_neg hlt]
    simp only [byte] at hpercent
    simp only [hpercent, hbad, if_true, prepend_error]
  | case3 index out hlt byte hpercent hgood next ih =>
    have hgood' : index + 2 < bytes.length ∧ isHex (getOrZero bytes (index + 1)) = true ∧
        isHex (getOrZero bytes (index + 2)) = true := by
      simpa [and_assoc] using hgood
    obtain ⟨hlen, hhigh, hlow⟩ := hgood'
    have hbyte : getOrZero bytes index = 37 := eq_of_beq hpercent
    rw [drop_eq_getOrZero_cons (Nat.lt_of_not_ge hlt), hbyte, drop_eq_getOrZero_cons (by omega),
      drop_eq_getOrZero_cons hlen, validateFrom_escape hhigh hlow, validateComponentHelp,
      if_neg hlt]
    simp only [byte] at hpercent
    simp only [hpercent, hgood, if_true]
    rw [if_neg (by decide), ih, prepend_prepend]
    simp [next]
  | case4 index out hlt byte hpercent hhigh ih =>
    have hne : getOrZero bytes index ≠ 37 := by simpa [byte] using hpercent
    rw [drop_eq_getOrZero_cons (Nat.lt_of_not_ge hlt), validateFrom_high hne hhigh,
      validateComponentHelp, if_neg hlt]
    simp only [beq_iff_eq, hne, if_false]
    rw [if_pos hhigh, ih, prepend_prepend, appendPercentByte_eq out]
  | case5 index out hlt byte hpercent hhigh hforbidden =>
    have hne : getOrZero bytes index ≠ 37 := by simpa [byte] using hpercent
    rw [drop_eq_getOrZero_cons (Nat.lt_of_not_ge hlt), validateFrom_forbidden hne hhigh hforbidden,
      validateComponentHelp, if_neg hlt]
    simp only [beq_iff_eq, hne, if_false]
    rw [if_neg hhigh, if_pos hforbidden, prepend_error]
  | case6 index out hlt byte hpercent hhigh hforbidden ih =>
    have hne : getOrZero bytes index ≠ 37 := by simpa [byte] using hpercent
    rw [drop_eq_getOrZero_cons (Nat.lt_of_not_ge hlt), validateFrom_plain hne hhigh hforbidden,
      validateComponentHelp, if_neg hlt]
    simp only [beq_iff_eq, hne, if_false]
    rw [if_neg hhigh, if_neg hforbidden, ih, prepend_prepend]

end TrantorCli.Url
