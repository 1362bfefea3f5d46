import TrantorCli.FsOps
import TrantorCli.Host
import TrantorCli.Lib.Assignments

/-!
# Environment variables

`dict!` lists the entries of the environment, each taken apart at its first `=`,
and `var!` asks the operating system for one name. They read one environment, so
what one of them answers is read off the other, for every spelling of a name.
-/

open Roc

namespace TrantorCli

open FsCore (IoError IOErr ioerr)

/-- The environment of the process: C strings of the form `name=value`. Nothing in
the process changes it. -/
structure Environ where
  entries : List (List UInt8)
  noNul : ∀ e ∈ entries, ∀ b ∈ e, b ≠ 0

namespace Host

/-- `os_string`; `String::from_utf16_lossy` replaces what `utf16_to_utf8_lossy` replaces. -/
def osString : OsStr → List UInt8
  | .utf8 str => str.toUtf8
  | .unixBytes bytes => bytes
  | .windowsU16s u16s => utf16ToUtf8Lossy u16s

/-- `envs` -/
def envs (environ : Environ) : List (List UInt8 × List UInt8) :=
  Assignments.listed 61 environ.entries

/-- `trantor__cli_host__env` -/
def env (environ : Environ) : List (OsStr × OsStr) :=
  (envs environ).map fun (n, v) => (native n, native v)

/-- `valid_env_key` -/
def validEnvKey (key : List UInt8) : Except IoError Unit :=
  if key.isEmpty || key.contains 0 || key.contains 61 then
    .error ⟨.invalidInput,
      "environment variable names cannot be empty or contain nul bytes or '='"⟩
  else .ok ()

/-- `IoOrVarNotFound` -/
inductive IoOrVarNotFound where
  | io (err : IOErr)
  | varNotFound (name : OsStr)
  deriving DecidableEq

/-- `std::env::var_os`, for a key that `valid_env_key` accepts -/
def varOs (environ : Environ) (key : List UInt8) : Option (List UInt8) :=
  Assignments.find 61 key environ.entries

/-- `trantor__cli_host__var` -/
def var (environ : Environ) (name : OsStr) : Except IoOrVarNotFound OsStr :=
  let key := osString name
  match validEnvKey key with
  | .error e => .error (.io (ioerr e))
  | .ok () =>
    match varOs environ key with
    | some v => .ok (native v)
    | none => .error (.varNotFound (native key))

/-- `[VarNotFound(NativeOsStr), EnvErr(IOErr)]` -/
inductive EnvVarErr where
  | varNotFound (name : OsStr)
  | envErr (err : IOErr)
  deriving DecidableEq

/-- `Host.env_var!` -/
def envVar (environ : Environ) (name : OsStr) : Except EnvVarErr OsStr :=
  match var environ name with
  | .ok v => .ok v
  | .error (.varNotFound n) => .error (.varNotFound n)
  | .error (.io e) => .error (.envErr e)

/-- `Host.env_dict!` -/
def envDict (environ : Environ) : List (OsStr × OsStr) := env environ

end Host

namespace Env

/-- `Env.dict!`; `from_raw` keeps every tag. -/
def dict (environ : Environ) : List (OsStr × OsStr) := Host.envDict environ

/-- `Env.var!` -/
def var (environ : Environ) (name : OsStr) : Except Host.EnvVarErr OsStr :=
  Host.envVar environ name

/-- `[VarNotFound(OsStr), EnvErr(IOErr), InvalidStr(U64)]` -/
inductive VarStrErr where
  | varNotFound (name : OsStr)
  | envErr (err : IOErr)
  | invalidStr (index : Nat)
  deriving DecidableEq

/-- `Env.var_str!` -/
def varStr (environ : Environ) (name : OsStr) : Checked (Except VarStrErr Str) :=
  match var environ name with
  | .ok value => do
    match ← value.toStrTry with
    | .ok str => return .ok str
    | .error index => return .error (.invalidStr index)
  | .error (.varNotFound rawName) => return .error (.varNotFound rawName)
  | .error (.envErr err) => return .error (.envErr err)

end Env

/-! ### One environment, read in two ways -/

namespace Host

/-- A name that `valid_env_key` accepts. -/
def ValidName (key : List UInt8) : Prop := Assignments.IsName 61 key ∧ 0 ∉ key

/-- What `valid_env_key` answers to the other names. -/
def invalidName : IOErr :=
  .other "environment variable names cannot be empty or contain nul bytes or '='"

/-- The host's text of a native OS string is its bytes. -/
@[simp] theorem osString_native (bytes : List UInt8) : osString (native bytes) = bytes := by
  rw [native]
  cases htext : Str.fromUtf8 bytes with
  | ok text => exact Str.bytes_of_fromUtf8 htext
  | error index => rfl

private theorem native_injective : Function.Injective native :=
  Function.LeftInverse.injective osString_native

private theorem validEnvKey_of_validName {key : List UInt8} (h : ValidName key) :
    validEnvKey key = .ok () := by
  obtain ⟨⟨hempty, hsep⟩, hnul⟩ := h
  simp [validEnvKey, hempty, hsep, hnul]

private theorem validEnvKey_of_not_validName {key : List UInt8} (h : ¬ValidName key) :
    (validEnvKey key).mapError ioerr = .error invalidName := by
  have hbad : (key.isEmpty || key.contains 0 || key.contains 61) = true := by
    by_contra hgood
    apply h
    simp only [Bool.or_eq_true, List.isEmpty_iff, List.contains_iff_mem, not_or] at hgood
    exact ⟨⟨hgood.1.1, hgood.2⟩, hgood.1.2⟩
  rw [validEnvKey, if_pos hbad]
  rfl

variable {environ : Environ} {name : OsStr}

/-- No listed name holds a NUL. -/
theorem noNul_of_mem_envs {key value : List UInt8} (h : (key, value) ∈ envs environ) :
    0 ∉ key := by
  intro hnul
  exact Assignments.forall_mem_name environ.noNul h 0 hnul rfl

/-- The listed values under a name are those of its bytes. -/
theorem lookup_env (key : List UInt8) :
    (env environ).lookup (native key) = ((envs environ).lookup key).map native := by
  unfold env
  induction envs environ with
  | nil => rfl
  | cons pair pairs ih =>
    obtain ⟨n, v⟩ := pair
    rw [List.map_cons, List.lookup_cons, List.lookup_cons, ih]
    by_cases hkey : key = n
    · subst hkey
      simp
    · have hne : native key ≠ native n := fun h => hkey (native_injective h)
      rw [beq_false_of_ne hkey, beq_false_of_ne hne]

/-- A listed name is a valid one as soon as it holds no `=`. -/
theorem validName_of_lookup {key : List UInt8} {value : OsStr} (hsep : 61 ∉ key)
    (h : (env environ).lookup (native key) = some value) : ValidName key := by
  rw [lookup_env, Option.map_eq_some_iff] at h
  obtain ⟨bytes, hlookup, -⟩ := h
  obtain ⟨front, back, heq, -⟩ := List.lookup_eq_some_iff.mp hlookup
  have hmem : (key, bytes) ∈ envs environ := by simp [heq]
  exact ⟨⟨Assignments.ne_nil_of_mem_listed hmem, hsep⟩, noNul_of_mem_envs hmem⟩

/-- Under a valid name `var` answers the first value listed. -/
theorem var_of_validName (h : ValidName (osString name)) :
    var environ name =
      match (env environ).lookup (native (osString name)) with
      | some value => .ok value
      | none => .error (.varNotFound (native (osString name))) := by
  rw [var, validEnvKey_of_validName h, lookup_env, varOs, Assignments.find_eq_lookup h.1, envs]
  dsimp only
  cases (Assignments.listed 61 environ.entries).lookup (osString name) <;> rfl

/-- To the other names `var` answers that they are not names. -/
theorem var_of_not_validName (h : ¬ValidName (osString name)) :
    var environ name = .error (.io invalidName) := by
  have hkey := validEnvKey_of_not_validName h
  rw [var]
  cases hvalid : validEnvKey (osString name) with
  | error e =>
    rw [hvalid] at hkey
    have herr : ioerr e = invalidName := Except.error.inj hkey
    dsimp only
    rw [herr]
  | ok => rw [hvalid] at hkey; cases hkey

end Host

namespace Env

open Host

variable {environ : Environ} {name value : OsStr}

private theorem var_of_validName (h : ValidName (osString name)) :
    var environ name =
      match (dict environ).lookup (native (osString name)) with
      | some value => .ok value
      | none => .error (.varNotFound (native (osString name))) := by
  rw [var, envVar, Host.var_of_validName h, dict, envDict]
  cases (env environ).lookup (native (osString name)) <;> rfl

private theorem var_of_not_validName (h : ¬ValidName (osString name)) :
    var environ name = .error (.envErr invalidName) := by
  rw [var, envVar, Host.var_of_not_validName h]

/-- `var!` answers exactly the first value listed under a name without `=`. -/
theorem var_eq_ok_iff :
    var environ name = .ok value ↔
      61 ∉ osString name ∧ (dict environ).lookup (native (osString name)) = some value := by
  constructor
  · intro h
    by_cases hvalid : ValidName (osString name)
    · rw [var_of_validName hvalid] at h
      cases hlookup : (dict environ).lookup (native (osString name)) with
      | none => rw [hlookup] at h; cases h
      | some found =>
        rw [hlookup] at h
        obtain rfl := Except.ok.inj h
        exact ⟨hvalid.1.2, rfl⟩
    · rw [var_of_not_validName hvalid] at h
      cases h
  · rintro ⟨hsep, hlookup⟩
    rw [var_of_validName (validName_of_lookup hsep hlookup), hlookup]

/-- A name is reported absent exactly when it is valid and not listed. -/
theorem var_eq_varNotFound_iff {n : OsStr} :
    var environ name = .error (.varNotFound n) ↔
      n = native (osString name) ∧ ValidName (osString name) ∧
        ∀ pair ∈ dict environ, pair.1 ≠ n := by
  constructor
  · intro h
    by_cases hvalid : ValidName (osString name)
    · rw [var_of_validName hvalid] at h
      cases hlookup : (dict environ).lookup (native (osString name)) with
      | some found => rw [hlookup] at h; cases h
      | none =>
        rw [hlookup] at h
        obtain rfl : native (osString name) = n := by simpa using h
        apply And.intro rfl
        apply And.intro hvalid
        intro pair hpair heq
        have hne := List.lookup_eq_none_iff.mp hlookup pair hpair
        exact absurd heq.symm (by simpa using hne)
    · rw [var_of_not_validName hvalid] at h
      cases h
  · rintro ⟨rfl, hvalid, habsent⟩
    have hlookup : (dict environ).lookup (native (osString name)) = none := by
      apply List.lookup_eq_none_iff.mpr
      intro pair hpair
      simpa using (habsent pair hpair).symm
    rw [var_of_validName hvalid, hlookup]

/-- Any other error says that no entry can have the name. -/
theorem var_eq_envErr_iff {e : IOErr} :
    var environ name = .error (.envErr e) ↔ e = invalidName ∧ ¬ValidName (osString name) := by
  constructor
  · intro h
    by_cases hvalid : ValidName (osString name)
    · rw [var_of_validName hvalid] at h
      cases hlookup : (dict environ).lookup (native (osString name)) with
      | none => rw [hlookup] at h; cases h
      | some found => rw [hlookup] at h; cases h
    · rw [var_of_not_validName hvalid] at h
      cases h
      exact ⟨rfl, hvalid⟩
  · rintro ⟨rfl, hvalid⟩
    exact var_of_not_validName hvalid

/-- A value is what the operating system has, as text when it is text. -/
theorem exists_native_of_var (h : var environ name = .ok value) :
    ∃ bytes, value = native bytes := by
  have hlookup := (var_eq_ok_iff.mp h).2
  rw [dict, envDict, lookup_env, Option.map_eq_some_iff] at hlookup
  obtain ⟨bytes, -, rfl⟩ := hlookup
  exact ⟨bytes, rfl⟩

/-- A listed name holds `=` nowhere but in front. -/
theorem sep_notMem_of_mem_dict {pair : OsStr × OsStr} (h : pair ∈ dict environ)
    (hhead : (osString pair.1).head? ≠ some 61) : 61 ∉ osString pair.1 := by
  obtain ⟨⟨key, bytes⟩, hmem, rfl⟩ := List.mem_map.mp h
  obtain ⟨e, -, hparse⟩ := List.mem_filterMap.mp hmem
  obtain ⟨-, first, rest, rfl, hrest⟩ := Assignments.parse_eq_some_iff.mp hparse
  simp only [osString_native, List.head?_cons, ne_eq, Option.some.injEq] at hhead ⊢
  simp [hrest, Ne.symm hhead]

/-- While no name is listed twice, each listed pair is the one its name leads to. -/
theorem var_of_mem_dict (hnodup : ((dict environ).map Prod.fst).Nodup)
    {pair : OsStr × OsStr} (h : pair ∈ dict environ)
    (hhead : (osString pair.1).head? ≠ some 61) : var environ pair.1 = .ok pair.2 := by
  have hname : native (osString pair.1) = pair.1 := by
    obtain ⟨⟨key, bytes⟩, -, rfl⟩ := List.mem_map.mp h
    rw [osString_native]
  apply var_eq_ok_iff.mpr
  apply And.intro (sep_notMem_of_mem_dict h hhead)
  rw [hname]
  obtain ⟨front, back, heq⟩ := List.append_of_mem h
  apply List.lookup_eq_some_iff.mpr
  refine ⟨front, back, heq, ?_⟩
  intro other hother
  rw [heq, List.map_append, List.map_cons] at hnodup
  have hnot := (List.nodup_middle.mp hnodup).notMem
  have hne : pair.1 ≠ other.1 := by
    intro hsame
    apply hnot
    rw [hsame]
    exact List.mem_append_left _ (List.mem_map_of_mem hother)
  simpa using hne

/-- `var_str!` never aborts; it reads exactly the values that are text, and tells
where the others stop being text. -/
theorem varStr_reads (environ : Environ) (name : OsStr) :
    ∃ result, varStr environ name = .ok result ∧
      (∀ text, result = .ok text ↔ var environ name = .ok (.utf8 text)) ∧
      ∀ index, result = .error (.invalidStr index) ↔
        ∃ bytes, var environ name = .ok (.unixBytes bytes) ∧
          Str.fromUtf8 bytes = .error index := by
  cases hvar : var environ name with
  | error e =>
    cases e with
    | varNotFound n => exact ⟨.error (.varNotFound n), by rw [varStr, hvar]; rfl, by simp, by simp⟩
    | envErr e => exact ⟨.error (.envErr e), by rw [varStr, hvar]; rfl, by simp, by simp⟩
  | ok value =>
    obtain ⟨bytes, rfl⟩ := exists_native_of_var hvar
    cases htext : Str.fromUtf8 bytes with
    | ok text =>
      have hnative : native bytes = .utf8 text := by rw [native, htext]
      rw [hnative] at hvar ⊢
      exact ⟨.ok text, by rw [varStr, hvar]; rfl, by simp, by simp⟩
    | error index =>
      have hnative : native bytes = .unixBytes bytes := by rw [native, htext]
      rw [hnative] at hvar ⊢
      have hstr : varStr environ name = .ok (.error (.invalidStr index)) := by
        rw [varStr, hvar]
        change (Except.bind (.ok (Str.fromUtf8 bytes)) _ : Checked _) = _
        rw [htext]
        rfl
      exact ⟨.error (.invalidStr index), hstr, by simp, by simp [htext]⟩

/-- The two readings of one environment agree: `var!` answers the first value that
`dict!` lists under the name, whatever the name is spelled as, and reports a name
absent exactly when `dict!` does not list it. While no name is listed twice every
listed pair is read back, unless its name begins with `=`. `var_str!` reads exactly
the values that are text. -/
theorem var_reads_dict (environ : Environ) (name : OsStr) :
    (∀ value, var environ name = .ok value ↔
      61 ∉ osString name ∧ (dict environ).lookup (native (osString name)) = some value) ∧
    (∀ n, var environ name = .error (.varNotFound n) ↔
      n = native (osString name) ∧ ValidName (osString name) ∧
        ∀ pair ∈ dict environ, pair.1 ≠ n) ∧
    (∀ e, var environ name = .error (.envErr e) ↔
      e = invalidName ∧ ¬ValidName (osString name)) ∧
    (((dict environ).map Prod.fst).Nodup → ∀ pair ∈ dict environ,
      (osString pair.1).head? ≠ some 61 → var environ pair.1 = .ok pair.2) ∧
    ∃ result, varStr environ name = .ok result ∧
      (∀ text, result = .ok text ↔ var environ name = .ok (.utf8 text)) ∧
      ∀ index, result = .error (.invalidStr index) ↔
        ∃ bytes, var environ name = .ok (.unixBytes bytes) ∧
          Str.fromUtf8 bytes = .error index := by
  refine ⟨fun _ => var_eq_ok_iff, fun _ => var_eq_varNotFound_iff, fun _ => var_eq_envErr_iff,
    fun hnodup _ hmem hhead => var_of_mem_dict hnodup hmem hhead, varStr_reads environ name⟩

end Env

end TrantorCli
