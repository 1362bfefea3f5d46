import TrantorCli.Lib.AsciiCase
import TrantorCli.Lib.KeepFirst
import TrantorCli.OsStr

/-!
# The locale variables

`locale_all!` reads `LANGUAGE` and the three settings that POSIX orders, and
reduces their values to distinct language tags. Two helpers look for the C locale,
each with its own idea of what a suffix is.
-/

open Roc

namespace TrantorCli

/-- What `CliEnv.var!` answers; `none` stands for each of its errors. -/
abbrev Env := OsStr → Option OsStr

namespace Host

/-- `env_or_empty!` -/
def envOrEmpty (env : Env) (name : Str) : Str :=
  match env (.utf8 name) with
  | some value => value.display
  | none => .lit ""

/-- `before` -/
def before (s sep : Str) : Str :=
  match (s.splitOn sep).head? with
  | some head => head
  | none => s

/-- `locale_tag`; `none` is `Err(NotALocale)`. -/
def localeTag (raw : Str) : Option Str :=
  let base := before (before raw (.lit ".")) (.lit "@")
  if base.isEmpty || base == .lit "C" || base == .lit "POSIX" then none
  else some (base.replaceEach (.lit "_") (.lit "-"))

/-- `is_c_locale` -/
def isCLocale (raw : Str) : Bool :=
  let base := before raw (.lit ".")
  base == .lit "C" || base == .lit "POSIX"

/-- `locale_candidates` -/
def localeCandidates (language : Str) (settings : List Str) : List Str :=
  let effective :=
    match (settings.filter fun value => !value.isEmpty).head? with
    | some value => value
    | none => .lit ""
  if isCLocale effective then [] else language.splitOn (.lit ":") ++ [effective]

/-- `ascii_lower` -/
def asciiLower (s : Str) : Str := Str.fromUtf8Lossy (s.toUtf8.map AsciiCase.lower)

/-- `locale_tags` -/
def localeTags (candidates : List Str) : List Str :=
  candidates.foldl (fun acc raw =>
    match localeTag raw with
    | none => acc
    | some tag =>
      if acc.any fun seen => asciiLower seen == asciiLower tag then acc else acc ++ [tag]) []

/-- `locale_all!` -/
def localeAll (env : Env) : List Str :=
  localeTags (localeCandidates (envOrEmpty env (.lit "LANGUAGE"))
    [envOrEmpty env (.lit "LC_ALL"), envOrEmpty env (.lit "LC_MESSAGES"),
      envOrEmpty env (.lit "LANG")])

/-- The tags are the first of each spelling. -/
theorem localeTags_eq (candidates : List Str) :
    localeTags candidates = KeepFirst.firsts localeTag asciiLower candidates := by
  rw [localeTags, KeepFirst.firsts]
  congr
  funext acc raw
  rw [KeepFirst.keep]
  cases localeTag raw <;> rfl

/-- Two strings have one lowered form exactly when they differ only in case. -/
theorem asciiLower_eq_iff {s t : Str} :
    asciiLower s = asciiLower t ↔ AsciiCase.SameButCase s.bytes t.bytes := by
  rw [Str.ext_iff, asciiLower, asciiLower, Str.toUtf8_eq, Str.toUtf8_eq,
    AsciiCase.fromUtf8Lossy_lower, AsciiCase.fromUtf8Lossy_lower, AsciiCase.map_lower_eq_iff]

/-! ### Suffixes -/

/-- What comes before a one-byte separator. -/
theorem before_bytes {s sep : Str} {c : UInt8} (hsep : sep.bytes = [c]) :
    (before s sep).bytes = s.bytes.takeWhile (· ≠ c) := by
  cases hcut : Cut.cut [c] s.bytes with
  | none =>
    have hc := Cut.cut_singleton_eq_none.mp hcut
    rw [before, Str.splitOn_of_cut_none (by rwa [hsep])]
    exact (Cut.takeWhile_ne_of_notMem hc).1.symm
  | some parts =>
    obtain ⟨front, back⟩ := parts
    obtain ⟨hbytes, hfront⟩ := Cut.cut_singleton_eq_some.mp hcut
    rw [← hsep] at hcut
    obtain ⟨first, rest, hsplit, -, hfirst, -⟩ := Str.splitOn_of_cut (by simp [hsep]) hcut
    rw [before, hsplit, hbytes]
    exact hfirst.trans (Cut.takeWhile_ne_append hfront back).1.symm

end Host

end TrantorCli
