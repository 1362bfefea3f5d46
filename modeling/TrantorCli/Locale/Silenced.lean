import TrantorCli.Locale

/-!
# The C locale

Under C or POSIX no locale is listed, not even from `LANGUAGE`. The setting that
decides may carry a codeset and a modifier. `locale_tag` takes both off, whereas
`is_c_locale` takes off the codeset only, and so a modifier right behind the name
hides it.
-/

open Roc

namespace TrantorCli.Host

/-- The first of the settings that is not empty, or the empty string. -/
def effective (settings : List Str) : Str :=
  (settings.find? fun value => !value.isEmpty).getD (.lit "")

/-- A value without its codeset and its modifier. -/
def stripped (value : Str) : Str := before (before value (.lit ".")) (.lit "@")

/-- The names for the absence of a locale. -/
def IsC (name : Str) : Prop := name = .lit "C" ∨ name = .lit "POSIX"

/-- The value begins with one of these names and a modifier. -/
def Modified (value : Str) : Prop := ∃ name, IsC name ∧ name.bytes ++ [64] <+: value.bytes

/-- The variables have these values; those that are not set count as empty. -/
structure Reads (env : Env) (language lcAll lcMessages lang : Str) : Prop where
  language : envOrEmpty env (.lit "LANGUAGE") = language
  lcAll : envOrEmpty env (.lit "LC_ALL") = lcAll
  lcMessages : envOrEmpty env (.lit "LC_MESSAGES") = lcMessages
  lang : envOrEmpty env (.lit "LANG") = lang

/-- The precedence of the variables. -/
structure Precedence (language lcAll lcMessages lang : Str) : Prop where
  /-- Nothing is listed when the setting in effect is C or POSIX. -/
  silenced : IsC (stripped (effective [lcAll, lcMessages, lang])) →
    localeTags (localeCandidates language [lcAll, lcMessages, lang]) = [] ∧
      ∀ env, Reads env language lcAll lcMessages lang → Locale.all env = []
  /-- Otherwise the entries of `LANGUAGE` come before that setting. -/
  listed : ¬IsC (stripped (effective [lcAll, lcMessages, lang])) →
    localeCandidates language [lcAll, lcMessages, lang] =
      language.splitOn (.lit ":") ++ [effective [lcAll, lcMessages, lang]]
  /-- No other setting contributes a tag. -/
  sources : ∀ tag ∈ localeTags (localeCandidates language [lcAll, lcMessages, lang]),
    (∃ entry ∈ language.splitOn (.lit ":"), localeTag entry = some tag) ∨
      localeTag (effective [lcAll, lcMessages, lang]) = some tag

/-! ### The two classifiers -/

private theorem dot_bytes : (Str.lit ".").bytes = [46] := rfl

private theorem at_bytes : (Str.lit "@").bytes = [64] := rfl

private theorem IsC.not_mem {name : Str} (h : IsC name) : 46 ∉ name.bytes ∧ 64 ∉ name.bytes := by
  obtain rfl | rfl := h <;> decide

private theorem localeTag_eq_none_iff {raw : Str} :
    localeTag raw = none ↔ stripped raw = .lit "" ∨ IsC (stripped raw) := by
  have hempty : (stripped raw).isEmpty = true ↔ stripped raw = .lit "" := by
    rw [Str.isEmpty_iff, Str.ext_iff]
    rfl
  have htest :
      ((stripped raw).isEmpty || stripped raw == .lit "C" || stripped raw == .lit "POSIX") =
      true ↔ stripped raw = .lit "" ∨ IsC (stripped raw) := by
    rw [Bool.or_eq_true, Bool.or_eq_true, beq_iff_eq, beq_iff_eq, hempty, or_assoc, IsC]
  rw [← htest, localeTag, ← stripped]
  split
  · next h => exact iff_of_true rfl h
  · next h => exact iff_of_false (by simp) h

/-- The bytes before the first dot, and of these the ones before the first `@`. -/
theorem stripped_bytes (value : Str) :
    (stripped value).bytes = (value.bytes.takeWhile (· ≠ 46)).takeWhile (· ≠ 64) := by
  rw [stripped, before_bytes at_bytes, before_bytes dot_bytes]

private theorem isCLocale_iff {raw : Str} : isCLocale raw = true ↔ IsC (before raw (.lit ".")) := by
  simp only [isCLocale, Bool.or_eq_true, beq_iff_eq, IsC]

/-- Taking off the codeset leaves a name with a modifier right behind it. -/
theorem prefix_before_iff {name value : Str} (h : IsC name) :
    name.bytes ++ [64] <+: (before value (.lit ".")).bytes ↔
      name.bytes ++ [64] <+: value.bytes := by
  rw [before_bytes dot_bytes, Cut.prefix_takeWhile_iff, and_iff_left]
  intro byte hbyte
  rcases List.mem_append.mp hbyte with hbyte | hbyte
  · exact decide_eq_true fun hdot => h.not_mem.1 (hdot ▸ hbyte)
  · rw [List.mem_singleton.mp hbyte]
    rfl

/-- A value without its suffixes is C or POSIX when it is without its codeset, or behind the name
there is a modifier. -/
theorem isC_stripped_iff {value : Str} :
    IsC (stripped value) ↔ isCLocale value = true ∨ Modified value := by
  have hname {name : Str} (h : IsC name) : stripped value = name ↔
      before value (.lit ".") = name ∨ name.bytes ++ [64] <+: value.bytes := by
    rw [stripped, Str.ext_iff, before_bytes at_bytes, Cut.takeWhile_ne_eq_iff h.not_mem.2,
      prefix_before_iff h, ← Str.ext_iff]
  rw [isCLocale_iff]
  constructor
  · intro h
    rcases (hname h).mp rfl with heq | hstart
    · exact .inl (heq ▸ h)
    · exact .inr ⟨_, h, hstart⟩
  · rintro (h | ⟨name, h, hstart⟩)
    · rwa [(hname h).mpr (.inl rfl)]
    · rwa [(hname h).mpr (.inr hstart)]

/-- Behind a modifier the precedence decision does not see the name. -/
theorem Modified.not_isCLocale {value : Str} (h : Modified value) : ¬isCLocale value = true := by
  obtain ⟨name, hname, hstart⟩ := h
  rw [isCLocale_iff]
  intro hc
  have hmem := ((prefix_before_iff hname).mpr hstart).subset
  exact hc.not_mem.2 (hmem (by simp))

/-! ### Candidates -/

private theorem localeCandidates_eq (language : Str) (settings : List Str) :
    localeCandidates language settings =
      if isCLocale (effective settings) then []
      else language.splitOn (.lit ":") ++ [effective settings] := by
  cases hfind : settings.find? fun value => !value.isEmpty with
  | none => simp only [localeCandidates, effective, List.head?_filter, hfind, Option.getD_none]
  | some value => simp only [localeCandidates, effective, List.head?_filter, hfind,
    Option.getD_some]

/-- Nothing is listed when no entry of `LANGUAGE` and not the setting in effect names a locale. -/
theorem localeTags_eq_nil_iff {language : Str} {settings : List Str} :
    localeTags (localeCandidates language settings) = [] ↔
      isCLocale (effective settings) = true ∨
        (∀ entry ∈ language.splitOn (.lit ":"), localeTag entry = none) ∧
          localeTag (effective settings) = none := by
  rw [localeCandidates_eq, localeTags_eq, KeepFirst.firsts_eq_nil_iff]
  split
  · next h => simp [h]
  · next h =>
    rw [or_iff_right h, List.forall_mem_append, List.forall_mem_singleton]

/-- No setting but the one in effect contributes a tag. -/
theorem exists_source {language tag : Str} {settings : List Str}
    (h : tag ∈ localeTags (localeCandidates language settings)) :
    (∃ entry ∈ language.splitOn (.lit ":"), localeTag entry = some tag) ∨
      localeTag (effective settings) = some tag := by
  rw [localeTags_eq] at h
  obtain ⟨candidate, hmem, htag⟩ := KeepFirst.exists_of_mem_firsts h
  rw [localeCandidates_eq] at hmem
  split at hmem
  · cases hmem
  · rcases List.mem_append.mp hmem with hentry | heffective
    · exact .inl ⟨candidate, hentry, htag⟩
    · exact .inr (List.mem_singleton.mp heffective ▸ htag)

private theorem all_eq_nil {env : Env} {language lcAll lcMessages lang : Str}
    (henv : Reads env language lcAll lcMessages lang)
    (h : localeTags (localeCandidates language [lcAll, lcMessages, lang]) = []) :
    Locale.all env = [] := by
  rw [Locale.all, localeAll, henv.language, henv.lcAll, henv.lcMessages, henv.lang, h]
  rfl

/-- When the setting in effect is C with a modifier, the entries of `LANGUAGE` decide. -/
theorem localeTags_eq_nil_of_modified {language : Str} {settings : List Str}
    (h : Modified (effective settings)) :
    localeTags (localeCandidates language settings) = [] ↔
      ∀ entry ∈ language.splitOn (.lit ":"), stripped entry = .lit "" ∨ IsC (stripped entry) := by
  have hnone : localeTag (effective settings) = none :=
    localeTag_eq_none_iff.mpr (.inr (isC_stripped_iff.mpr (.inr h)))
  rw [localeTags_eq_nil_iff, or_iff_right h.not_isCLocale, and_iff_left hnone]
  simp only [localeTag_eq_none_iff]

/-- The precedence is kept unless the setting in effect is C or POSIX with a modifier right behind
the name and some entry of `LANGUAGE` names a locale. -/
theorem precedence_iff (language lcAll lcMessages lang : Str) :
    Precedence language lcAll lcMessages lang ↔
      ¬Modified (effective [lcAll, lcMessages, lang]) ∨
        ∀ entry ∈ language.splitOn (.lit ":"), stripped entry = .lit "" ∨ IsC (stripped entry) := by
  constructor
  · intro h
    by_cases hmodified : Modified (effective [lcAll, lcMessages, lang])
    · have hnil := (h.silenced (isC_stripped_iff.mpr (.inr hmodified))).1
      exact .inr ((localeTags_eq_nil_of_modified hmodified).mp hnil)
    · exact .inl hmodified
  · intro h
    refine ⟨fun hc => ?_, fun hc => ?_, fun tag => exists_source⟩
    · have hnil : localeTags (localeCandidates language [lcAll, lcMessages, lang]) = [] := by
        rcases isC_stripped_iff.mp hc with hplain | hmodified
        · exact localeTags_eq_nil_iff.mpr (.inl hplain)
        · exact (localeTags_eq_nil_of_modified hmodified).mpr (h.resolve_left (· hmodified))
      exact ⟨hnil, fun env henv => all_eq_nil henv hnil⟩
    · rw [localeCandidates_eq, if_neg fun hplain => hc (isC_stripped_iff.mpr (.inl hplain))]

/-- Under `LC_ALL=C@euro`, German is listed from `LANGUAGE`. -/
theorem precedence_fails : ¬Precedence (.lit "de") (.lit "C@euro") (.lit "") (.lit "") := by
  intro h
  have heffective : effective [.lit "C@euro", .lit "", .lit ""] = .lit "C@euro" := rfl
  have hmodified : Modified (effective [.lit "C@euro", .lit "", .lit ""]) :=
    heffective ▸ ⟨.lit "C", .inl rfl, by decide⟩
  have hnil := (h.silenced (isC_stripped_iff.mpr (.inr hmodified))).1
  have hentry : .lit "de" ∈ (Str.lit "de").splitOn (.lit ":") := by
    rw [Str.splitOn_of_cut_none (by decide)]
    exact List.mem_singleton_self _
  have hstripped : stripped (.lit "de") = .lit "de" := Str.ext (by rw [stripped_bytes]; decide)
  have hnone := (localeTags_eq_nil_of_modified hmodified).mp hnil _ hentry
  rw [hstripped] at hnone
  obtain hempty | hc | hposix := hnone
  · exact absurd hempty (by decide)
  · exact absurd hc (by decide)
  · exact absurd hposix (by decide)

end TrantorCli.Host
