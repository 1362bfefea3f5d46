import TrantorCli.Url.RoundTrip
import TrantorCli.Url.Meaning

/-!
# Escapes in either case

The hexadecimal digits of an escape may be written in either case. A change of
that kind moves no delimiter, and validation writes the digits in upper case, so
it does not show in what is parsed.
-/

open Roc

namespace TrantorCli.Url

/-- Two texts that differ at most in the case of the digits of escapes. -/
inductive SameEscapes : List UInt8 → List UInt8 → Prop
  /-- There is nothing to differ in. -/
  | nil : SameEscapes [] []
  /-- A byte is the same in both. -/
  | plain (byte : UInt8) {a b : List UInt8} (h : SameEscapes a b) :
      SameEscapes (byte :: a) (byte :: b)
  /-- An escape has the same digits in both, in some case. -/
  | escape {high low high' low' : UInt8} {a b : List UInt8}
      (hdigits : Percent.escaped high low ≠ none) (hhigh : lowerByte high' = lowerByte high)
      (hlow : lowerByte low' = lowerByte low) (h : SameEscapes a b) :
      SameEscapes (37 :: high :: low :: a) (37 :: high' :: low' :: b)

/-! ### Case of one digit -/

variable {byte other : UInt8} {a b : List UInt8}

/-- Case does not make a hex digit. -/
theorem isHex_of_lower (h : lowerByte other = lowerByte byte) : isHex other = isHex byte := by
  rw [← (lowerByte_class other).2.1, h, (lowerByte_class byte).2.1]

private theorem asciiUpperHex_of_lower (hhex : isHex byte = true)
    (h : lowerByte other = lowerByte byte) :
    asciiUpperHex other = asciiUpperHex byte := by
  have hupper : ∀ digit : UInt8, isHex digit = true →
      asciiUpperHex (lowerByte digit) = asciiUpperHex digit := by
    intro digit hdigit
    grind
  rw [← hupper other ((isHex_of_lower h).trans hhex), h, hupper byte hhex]

namespace SameEscapes

/-! ### The beginning of related texts -/

private theorem symm (h : SameEscapes a b) : SameEscapes b a := by
  induction h with
  | nil => exact .nil
  | plain byte h ih => exact .plain byte ih
  | escape hdigits hhigh hlow h ih =>
    obtain ⟨hhex, hhex'⟩ := isHex_of_escaped hdigits
    refine .escape ?_ hhigh.symm hlow.symm ih
    rw [escaped_of_isHex ((isHex_of_lower hhigh).trans hhex) ((isHex_of_lower hlow).trans hhex')]
    simp

private theorem cons_inv (hpercent : byte ≠ 37) (h : SameEscapes (byte :: a) b) :
    ∃ rest, b = byte :: rest ∧ SameEscapes a rest := by
  cases h with
  | plain _ h => exact ⟨_, rfl, h⟩
  | escape => exact absurd rfl hpercent

private theorem ne_percent_of_isHex (h : isHex byte = true) : byte ≠ 37 := by
  rintro rfl
  exact absurd h (by decide)

private theorem escape_inv {high low : UInt8} (hhigh : isHex high = true) (hlow : isHex low = true)
    (h : SameEscapes (37 :: high :: low :: a) b) :
    ∃ high' low' rest, b = 37 :: high' :: low' :: rest ∧ lowerByte high' = lowerByte high ∧
      lowerByte low' = lowerByte low ∧ SameEscapes a rest := by
  cases h with
  | plain _ h =>
    obtain ⟨tail, rfl, htail⟩ := h.cons_inv (ne_percent_of_isHex hhigh)
    obtain ⟨rest, rfl, hrest⟩ := htail.cons_inv (ne_percent_of_isHex hlow)
    exact ⟨high, low, rest, rfl, rfl, rfl, hrest⟩
  | escape _ hhigh' hlow' h => exact ⟨_, _, _, rfl, hhigh', hlow', h⟩

private theorem nil_inv (h : SameEscapes [] b) : b = [] := by
  cases h
  rfl

/-! ### Cutting related texts -/

/-- A delimiter is found in the same place of both texts. -/
theorem cut {before after : List UInt8} (hpercent : byte ≠ 37) (hhex : isHex byte = false)
    (h : SameEscapes (before ++ byte :: after) b) :
    ∃ front back, b = front ++ byte :: back ∧ SameEscapes before front ∧
      SameEscapes after back := by
  generalize ha : before ++ byte :: after = a at h
  induction h generalizing before with
  | nil => simp at ha
  | plain other h ih =>
    cases before with
    | nil =>
      obtain ⟨rfl, rfl⟩ := List.cons.inj ha
      exact ⟨[], _, rfl, .nil, h⟩
    | cons first before =>
      obtain ⟨rfl, hrest⟩ := List.cons.inj ha
      obtain ⟨front, back, rfl, hfront, hback⟩ := ih hrest
      exact ⟨first :: front, back, rfl, .plain first hfront, hback⟩
  | @escape high low high' low' a b hdigits hhigh hlow h ih =>
    obtain ⟨hhex', hhex''⟩ := isHex_of_escaped hdigits
    -- a delimiter is neither the percent sign nor one of the digits
    rcases before with _ | ⟨first, _ | ⟨second, _ | ⟨third, before⟩⟩⟩
    · exact absurd (List.cons.inj ha).1 hpercent
    · have hdigit := (List.cons.inj (List.cons.inj ha).2).1
      rw [hdigit, hhex'] at hhex
      cases hhex
    · have hdigit := (List.cons.inj (List.cons.inj (List.cons.inj ha).2).2).1
      rw [hdigit, hhex''] at hhex
      cases hhex
    · simp only [List.cons_append, List.cons.injEq] at ha
      obtain ⟨rfl, rfl, rfl, hrest⟩ := ha
      obtain ⟨front, back, rfl, hfront, hback⟩ := ih hrest
      exact ⟨37 :: high' :: low' :: front, back, rfl, .escape hdigits hhigh hlow hfront, hback⟩

private theorem not_mem (hpercent : byte ≠ 37) (hhex : isHex byte = false) (h : SameEscapes a b)
    (ha : byte ∉ a) : byte ∉ b := by
  intro hmem
  obtain ⟨before, after, rfl⟩ := List.append_of_mem hmem
  obtain ⟨front, back, rfl, -, -⟩ := h.symm.cut hpercent hhex
  exact ha (by simp)

/-- Two strings that are cut at a delimiter stay related in both parts. -/
theorem cutAt {str other separator : Str} (hsep : separator.bytes = [byte]) (hpercent : byte ≠ 37)
    (hhex : isHex byte = false) (h : SameEscapes str.bytes other.bytes) :
    SameEscapes (cutAt str separator).1.bytes (cutAt other separator).1.bytes ∧
      Option.Rel (fun s t => SameEscapes s.bytes t.bytes) (Url.cutAt str separator).2
        (Url.cutAt other separator).2 := by
  cases hsplit : splitFirst str separator with
  | none =>
    have hnot := (splitFirst_eq_none hsep).mp hsplit
    rw [cutAt_of_not_mem hsep hnot, cutAt_of_not_mem hsep (h.not_mem hpercent hhex hnot)]
    exact ⟨h, .none⟩
  | some parts =>
    obtain ⟨before, after⟩ := parts
    obtain ⟨hstr, hnot⟩ := (splitFirst_eq_some hsep).mp hsplit
    rw [hstr] at h
    obtain ⟨front, back, hother, hfront, hback⟩ := h.cut hpercent hhex
    have hfrontNot := hfront.not_mem hpercent hhex hnot
    cases hsplit' : splitFirst other separator with
    | none =>
      have hnot' := (splitFirst_eq_none hsep).mp hsplit'
      exact absurd (by rw [hother]; simp) hnot'
    | some parts =>
      obtain ⟨before', after'⟩ := parts
      obtain ⟨hother', hnot'⟩ := (splitFirst_eq_some hsep).mp hsplit'
      have hcut := Cut.cut_singleton_eq_some.mpr ⟨hother, hfrontNot⟩
      rw [Cut.cut_singleton_eq_some.mpr ⟨hother', hnot'⟩] at hcut
      obtain ⟨rfl, rfl⟩ := Prod.mk.inj (Option.some.inj hcut)
      rw [cutAt_of_bytes hsep hstr hnot, cutAt_of_bytes hsep hother' hnot']
      exact ⟨hfront, .some hback⟩

/-! ### Validating related texts -/

/-- What is accepted is accepted with the same result. -/
theorem validateFrom {kind : Kind} {index : Nat} {out : List UInt8} (h : SameEscapes a b)
    (ha : validateFrom kind index a = .ok out) : Url.validateFrom kind index b = .ok out := by
  induction index, a using validateFrom.induct kind generalizing b out with
  | case1 index =>
    rw [h.nil_inv]
    exact ha
  | case2 index high low rest hhex ih =>
    obtain ⟨hhigh, hlow⟩ := Bool.and_eq_true_iff.mp hhex
    obtain ⟨high', low', rest', rfl, hhigh', hlow', h⟩ := h.escape_inv hhigh hlow
    rw [validateFrom_escape hhigh hlow, prepend_eq_ok] at ha
    obtain ⟨tail, htail, rfl⟩ := ha
    rw [validateFrom_escape ((isHex_of_lower hhigh').trans hhigh)
      ((isHex_of_lower hlow').trans hlow), ih h htail, asciiUpperHex_of_lower hhigh hhigh',
      asciiUpperHex_of_lower hlow hlow', prepend_ok]
  | case3 index high low rest hhex =>
    rw [validateFrom_notHex hhex] at ha
    cases ha
  | case4 index rest hshort =>
    rw [validateFrom_short hshort] at ha
    cases ha
  | case5 index byte rest hpercent hhigh ih =>
    obtain ⟨rest', rfl, hrest⟩ := h.cons_inv hpercent
    rw [validateFrom_high hpercent hhigh, prepend_eq_ok] at ha
    obtain ⟨tail, htail, rfl⟩ := ha
    rw [validateFrom_high hpercent hhigh, ih hrest htail, prepend_ok]
  | case6 index byte rest hpercent hhigh hforbidden =>
    rw [validateFrom_forbidden hpercent hhigh hforbidden] at ha
    cases ha
  | case7 index byte rest hpercent hhigh hforbidden ih =>
    obtain ⟨rest', rfl, hrest⟩ := h.cons_inv hpercent
    rw [validateFrom_plain hpercent hhigh hforbidden, prepend_eq_ok] at ha
    obtain ⟨tail, htail, rfl⟩ := ha
    rw [validateFrom_plain hpercent hhigh hforbidden, ih hrest htail, prepend_ok]

private theorem validateComponent {raw other value : Str} {kind : Kind}
    (h : SameEscapes raw.bytes other.bytes) (hraw : validateComponent raw kind = .ok value) :
    Url.validateComponent other kind = .ok value := by
  have hbytes := validateComponent_eq raw kind
  rw [hraw] at hbytes
  have hother := validateComponent_eq other kind
  rw [h.validateFrom hbytes.symm] at hother
  cases hanswer : Url.validateComponent other kind with
  | error err =>
    rw [hanswer] at hother
    cases hother
  | ok found =>
    rw [hanswer] at hother
    rw [Str.ext (Except.ok.inj hother)]

private theorem validateOptional {raw other value : Option Str} {kind : Kind}
    (h : Option.Rel (fun s t => SameEscapes s.bytes t.bytes) raw other)
    (hraw : validateOptional raw kind = .ok value) :
    Url.validateOptional other kind = .ok value := by
  cases h with
  | none => exact hraw
  | @some raw other h =>
    rw [Url.validateOptional] at hraw ⊢
    cases hanswer : Url.validateComponent raw kind with
    | error err =>
      rw [hanswer] at hraw
      cases hraw
    | ok found =>
      rw [hanswer] at hraw
      rw [h.validateComponent hanswer]
      exact hraw

private theorem splitComponents {str other : Str} (h : SameEscapes str.bytes other.bytes) :
    SameEscapes (splitComponents str).path.bytes (splitComponents other).path.bytes ∧
      Option.Rel (fun s t => SameEscapes s.bytes t.bytes) (Url.splitComponents str).query
        (Url.splitComponents other).query ∧
      Option.Rel (fun s t => SameEscapes s.bytes t.bytes) (Url.splitComponents str).fragment
        (Url.splitComponents other).fragment := by
  obtain ⟨hbefore, hfragment⟩ := h.cutAt hash_bytes (by decide) (by decide)
  obtain ⟨hpath, hquery⟩ := hbefore.cutAt question_bytes (by decide) (by decide)
  exact ⟨hpath, hquery, hfragment⟩

private theorem validateComponents {path other : Str} {query query' fragment fragment' : Option Str}
    {components : Components} (hpath : SameEscapes path.bytes other.bytes)
    (hquery : Option.Rel (fun s t => SameEscapes s.bytes t.bytes) query query')
    (hfragment : Option.Rel (fun s t => SameEscapes s.bytes t.bytes) fragment fragment')
    (h : validateComponents path query fragment = .ok components) :
    Url.validateComponents other query' fragment' = .ok components := by
  obtain ⟨hvalidPath, hvalidQuery, hvalidFragment⟩ := validateComponents_eq_ok.mp h
  exact validateComponents_eq_ok.mpr ⟨hpath.validateComponent hvalidPath,
    validateOptional hquery hvalidQuery, validateOptional hfragment hvalidFragment⟩

/-- A suffix is parsed to the same components. -/
theorem parseSuffix {suffix other : Str} {components : Components}
    (h : SameEscapes suffix.bytes other.bytes) (hsuffix : parseSuffix suffix = .ok components) :
    Url.parseSuffix other = .ok components := by
  obtain ⟨hpath, hquery, hfragment⟩ := h.splitComponents
  obtain ⟨path, ⟨hempty, rfl⟩ | ⟨hrooted, rfl⟩, hvalid⟩ := parseSuffix_eq_ok.mp hsuffix
  · have hroot : SameEscapes (Str.lit "/").bytes (Str.lit "/").bytes := .plain 47 .nil
    rw [hempty] at hpath
    exact parseSuffix_eq_ok.mpr ⟨_, .inl ⟨hpath.nil_inv, rfl⟩,
      validateComponents hroot hquery hfragment hvalid⟩
  · have hrooted' : [47] <+: (Url.splitComponents other).path.bytes := by
      obtain ⟨rest, hrest⟩ := hrooted
      rw [← hrest] at hpath
      obtain ⟨rest', hrest', -⟩ := hpath.cons_inv (by decide)
      exact ⟨rest', hrest'.symm⟩
    exact parseSuffix_eq_ok.mpr ⟨_, .inr ⟨hrooted', rfl⟩,
      validateComponents hpath hquery hfragment hvalid⟩

end SameEscapes

end TrantorCli.Url
