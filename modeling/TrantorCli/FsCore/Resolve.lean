import TrantorCli.FsCore.Spelling
import TrantorCli.Lib.Checked
import TrantorCli.Lib.Cut
import TrantorCli.Lib.Interaction.Interp
import TrantorCli.Lib.UnixPath.StripPrefix

/-!
# Paths beneath a confined root

`relative_to_root` turns an absolute candidate into a path relative to the root
handle. The root is named by a prefix of the candidate's components, and what
follows it is kept with every distinction the guards make.
-/

open Interaction UnixPath

namespace TrantorCli.FsCore

/-- `Component::RootDir | Component::Normal(_)` -/
def isPlain : Component → Bool
  | .rootDir | .normal _ => true
  | .curDir | .parentDir => false

/-- The walk of `aliased_rest_by` over prefixes of the given lengths: `map_while` ends it at the
first that fails, `find` at the first that is the base. -/
def aliasedRestByFrom {ε : Type} (parts : List Component) (canonicalBase : PathBuf) :
    List ℕ → Program PathBuf (fun _ => Except ε PathBuf) (Option PathBuf)
  | [] => pure none
  | k :: ks => do
    match ← Program.ask (ofComponents (parts.take k)) with
    | .error _ => pure none
    | .ok resolved =>
      if components resolved = components canonicalBase then
        pure (some (ofComponents (parts.drop k)))
      else aliasedRestByFrom parts canonicalBase ks

/-- `aliased_rest_by`: its calls are the paths it hands to `canonicalize`. -/
def aliasedRestBy {ε : Type} (cand canonicalBase : PathBuf) :
    Program PathBuf (fun _ => Except ε PathBuf) (Option PathBuf) :=
  let parts := components cand
  let plain := (parts.takeWhile isPlain).length
  aliasedRestByFrom parts canonicalBase (List.range' 1 plain)

/-- `p.canonicalize()`, as `aliased_rest` hands it on. -/
def canonicalizing : Handler PathBuf Call (fun _ => Except IoError PathBuf) Answer := fun path =>
  (canonicalize path).run >>= fun answer => pure (answer.map (·.bytes))

/-- `aliased_rest` -/
def aliasedRest (cand : PathBuf) (canonicalBase : PlainPath) :
    Program Call Answer (Option PathBuf) :=
  (aliasedRestBy cand canonicalBase.bytes).interp canonicalizing

/-- The error of a path that does not lead beneath the root. -/
def outside : IoError := ⟨.permissionDenied, "outside preopen"⟩

/-- What `relative_to_root` leaves of `cand` after the root, before the trailing spelling. -/
def restOfRoot (base : AbsPath) (cand : PathBuf) : Sys PathBuf :=
  match stripPrefix cand base with
  | some rest => pure rest
  | none => do
    let canonicalBase ← canonicalize base.bytes
    match stripPrefix cand canonicalBase.toAbsPath with
    | some rest => pure rest
    | none => do
      match ← Sys.ofProgram (aliasedRest cand canonicalBase) with
      | some rest => pure rest
      | none => throw outside

/-- `relative_to_root` -/
def relativeToRoot (base : AbsPath) (cand : PathBuf) : Sys PathBuf := do
  let rest ← restOfRoot base cand
  let rel := if rest = [] then [46] else rest
  pure (rel ++ trailingSpelling cand)

/-- `resolve` -/
def resolve (root : Root) (dir rel : PathBuf) : Sys Target :=
  if rel = [] then throw ⟨.notFound, "an empty path names nothing"⟩
  else
    let cand := if isAbsolute rel then rel else join dir rel
    do
      match ← Sys.ofExcept root.opened with
      | none => pure (.ambient cand)
      | some base => return .beneath (← relativeToRoot base.toAbsPath cand)

/-- `with_path` -/
def withPath {α : Type} (r : Root) (d : Desc) (rel : PathBuf) (f : Target → Sys α) : Sys α := do
  let dir ← Sys.ofExcept (dirOf r d)
  let tg ← resolve r dir rel
  f tg

/-! ### What resolving asks -/

/-- The call asks for a canonical path. -/
def Call.isCanonicalize : Call → Prop
  | .canonicalize _ => True
  | _ => False

private theorem onlyCalls_aliasedRest (cand : PathBuf) (canonicalBase : PlainPath) :
    (aliasedRest cand canonicalBase).OnlyCalls Call.isCanonicalize :=
  Program.OnlyCalls.interp _ (Program.onlyCalls_true _) fun _ _ => ⟨trivial, fun _ => trivial⟩

private theorem onlyCalls_relativeToRoot (base : AbsPath) (cand : PathBuf) :
    Fallible.OnlyCalls Call.isCanonicalize (relativeToRoot base cand) := by
  refine Fallible.onlyCalls_bind ?_ fun _ => Fallible.onlyCalls_pure _
  unfold restOfRoot
  split
  · exact Fallible.onlyCalls_pure _
  · refine Fallible.onlyCalls_bind (Fallible.onlyCalls_ask trivial) fun canonicalBase => ?_
    split
    · exact Fallible.onlyCalls_pure _
    · refine Fallible.onlyCalls_bind (onlyCalls_ofProgram (onlyCalls_aliasedRest _ _))
        fun found => ?_
      split
      · exact Fallible.onlyCalls_pure _
      · exact Fallible.onlyCalls_throw _

/-- Resolving only ever asks for canonical paths. -/
theorem onlyCalls_resolve (root : Root) (dir rel : PathBuf) :
    Fallible.OnlyCalls Call.isCanonicalize (resolve root dir rel) := by
  unfold resolve
  split
  · exact Fallible.onlyCalls_throw _
  · refine Fallible.onlyCalls_bind (onlyCalls_ofExcept _) fun opened => ?_
    split
    · exact Fallible.onlyCalls_pure _
    · exact Fallible.onlyCalls_bind (onlyCalls_relativeToRoot _ _) fun _ =>
        Fallible.onlyCalls_pure _

/-! ### Which prefix is the root -/

/-- `before` is the prefix of `cand` that names the root: the base itself, its canonical form, or
the shortest prefix of plain names that has the same canonical form. -/
inductive RootPrefix (os : Os) (base : AbsPath) (cand : PathBuf) : List Component → Prop where
  | direct (hbase : components base.bytes <+: components cand) :
      RootPrefix os base cand (components base.bytes)
  | canonical {canonicalBase : PlainPath} (hbase : ¬components base.bytes <+: components cand)
      (hcanonical : os (.canonicalize base.bytes) = .ok canonicalBase)
      (hbegins : components canonicalBase.bytes <+: components cand) :
      RootPrefix os base cand (components canonicalBase.bytes)
  | aliased {canonicalBase resolved : PlainPath} {k : Nat}
      (hbase : ¬components base.bytes <+: components cand)
      (hcanonical : os (.canonicalize base.bytes) = .ok canonicalBase)
      (hbegins : ¬components canonicalBase.bytes <+: components cand)
      (hk : 1 ≤ k) (hplain : k ≤ ((components cand).takeWhile isPlain).length)
      (hshorter : ∀ j, 1 ≤ j → j < k → ∃ other : PlainPath,
        os (.canonicalize (ofComponents ((components cand).take j))) = .ok other ∧
          components other.bytes ≠ components canonicalBase.bytes)
      (hresolved : os (.canonicalize (ofComponents ((components cand).take k))) = .ok resolved)
      (hsame : components resolved.bytes = components canonicalBase.bytes) :
      RootPrefix os base cand ((components cand).take k)

variable {os : Os} {base : AbsPath} {cand : PathBuf}

private theorem RootPrefix.isPrefix {before : List Component} (h : RootPrefix os base cand before) :
    before <+: components cand := by
  cases h with
  | direct hbase => exact hbase
  | canonical _ _ hbegins => exact hbegins
  | aliased => exact List.take_prefix _ _

/-- A prefix that names the root is not empty. -/
theorem RootPrefix.ne_nil {before : List Component} (habs : isAbsolute cand = true)
    (h : RootPrefix os base cand before) : before ≠ [] := by
  cases h with
  | direct => simp [components_of_isAbsolute base.absolute]
  | @canonical canonicalBase => simp [components_of_isAbsolute canonicalBase.absolute]
  | aliased _ _ _ hk =>
    rw [components_of_isAbsolute habs]
    simp
    omega

/-- A prefix that names the root goes up nowhere, if the base does not. -/
theorem RootPrefix.plain {base : PlainPath} {before : List Component}
    (h : RootPrefix os base.toAbsPath cand before) : Component.parentDir ∉ before := by
  have hplain : ∀ path : PlainPath, Component.parentDir ∉ components path.bytes := by
    intro path
    rw [components_of_isAbsolute path.absolute]
    simpa using path.plain
  cases h with
  | direct => exact hplain base
  | canonical => exact hplain _
  | aliased _ _ _ _ hk =>
    intro hmem
    exact absurd (Cut.forall_mem_take hk _ hmem) (by decide)

/-! ### One prefix of the walk -/

section Walk

variable {ε : Type} {canonicalize : PathBuf → Except ε PathBuf} {parts : List Component}
  {canonicalBase resolved : PathBuf} {k : ℕ}

/-- The walk ends at a prefix that has no canonical form. -/
theorem walk_error {e : ε} (h : canonicalize (ofComponents (parts.take k)) = .error e)
    (ks : List ℕ) :
    (aliasedRestByFrom parts canonicalBase (k :: ks)).eval canonicalize = none ∧
      (aliasedRestByFrom parts canonicalBase (k :: ks)).trace canonicalize =
        [ofComponents (parts.take k)] := by
  simp only [aliasedRestByFrom, Program.eval_bind, Program.trace_bind, Program.ask, Program.eval,
    Program.trace, h]
  exact ⟨rfl, rfl⟩

/-- The walk ends at a prefix that is the base. -/
theorem walk_found (h : canonicalize (ofComponents (parts.take k)) = .ok resolved)
    (hsame : components resolved = components canonicalBase) (ks : List ℕ) :
    (aliasedRestByFrom parts canonicalBase (k :: ks)).eval canonicalize =
        some (ofComponents (parts.drop k)) ∧
      (aliasedRestByFrom parts canonicalBase (k :: ks)).trace canonicalize =
        [ofComponents (parts.take k)] := by
  simp only [aliasedRestByFrom, Program.eval_bind, Program.trace_bind, Program.ask, Program.eval,
    Program.trace, h, if_pos hsame]
  exact ⟨rfl, rfl⟩

/-- The walk goes on past a prefix that is not the base. -/
theorem walk_missed (h : canonicalize (ofComponents (parts.take k)) = .ok resolved)
    (hdiffers : components resolved ≠ components canonicalBase) (ks : List ℕ) :
    (aliasedRestByFrom parts canonicalBase (k :: ks)).eval canonicalize =
        (aliasedRestByFrom parts canonicalBase ks).eval canonicalize ∧
      (aliasedRestByFrom parts canonicalBase (k :: ks)).trace canonicalize =
        ofComponents (parts.take k) ::
          (aliasedRestByFrom parts canonicalBase ks).trace canonicalize := by
  conv =>
    congr
    · lhs; rw [aliasedRestByFrom]
    · lhs; rw [aliasedRestByFrom]
  simp only [Program.eval_bind, Program.trace_bind, Program.ask, Program.eval,
    Program.trace, h, if_neg hdiffers]
  exact ⟨trivial, rfl⟩

/-- The walk finds the rest after the `k`-th prefix when it is the first that names the root. -/
theorem eval_aliasedRestByFrom {start count : Nat} (hstart : start ≤ k) (hcount : k < start + count)
    (hshorter : ∀ j, start ≤ j → j < k → ∃ other,
      canonicalize (ofComponents (parts.take j)) = .ok other ∧
        components other ≠ components canonicalBase)
    (hresolved : canonicalize (ofComponents (parts.take k)) = .ok resolved)
    (hsame : components resolved = components canonicalBase) :
    (aliasedRestByFrom parts canonicalBase (List.range' start count)).eval canonicalize =
      some (ofComponents (parts.drop k)) := by
  induction count generalizing start with
  | zero => omega
  | succ count ih =>
    rw [List.range'_succ]
    by_cases hk : start = k
    · subst hk
      exact (walk_found hresolved hsame _).1
    · obtain ⟨other, hother, hdiffers⟩ := hshorter start (le_refl _) (by omega)
      rw [(walk_missed hother hdiffers _).1]
      exact ih (by omega) (by omega) fun j hj => hshorter j (by omega)

/-- What the walk finds is the rest after the first prefix that names the root. -/
theorem exists_of_aliasedRestByFrom {start count : Nat} {rest : PathBuf}
    (h : (aliasedRestByFrom parts canonicalBase (List.range' start count)).eval canonicalize =
      some rest) :
    ∃ k, start ≤ k ∧ k < start + count ∧ rest = ofComponents (parts.drop k) ∧
      (∀ j, start ≤ j → j < k → ∃ other,
        canonicalize (ofComponents (parts.take j)) = .ok other ∧
          components other ≠ components canonicalBase) ∧
      ∃ resolved, canonicalize (ofComponents (parts.take k)) = .ok resolved ∧
        components resolved = components canonicalBase := by
  induction count generalizing start with
  | zero => simp [aliasedRestByFrom] at h
  | succ count ih =>
    rw [List.range'_succ] at h
    cases hanswer : canonicalize (ofComponents (parts.take start)) with
    | error e =>
      rw [(walk_error hanswer _).1] at h
      exact absurd h (by simp)
    | ok other =>
      by_cases hsame : components other = components canonicalBase
      · rw [(walk_found hanswer hsame _).1, Option.some_inj] at h
        exact ⟨start, le_refl _, by omega, h.symm, fun j hj hj' => by omega, other, hanswer, hsame⟩
      · rw [(walk_missed hanswer hsame _).1] at h
        obtain ⟨k, hk, hk', hrest, hshorter, hresolved⟩ := ih h
        refine ⟨k, by omega, by omega, hrest, fun j hj hj' => ?_, hresolved⟩
        by_cases hjs : j = start
        · subst hjs
          exact ⟨other, hanswer, hsame⟩
        · exact hshorter j (by omega) hj'

end Walk

/-- The answers of an operating system, as a function on paths. -/
def Os.canonicalizing (os : Os) (path : PathBuf) : Except IoError PathBuf :=
  (os (.canonicalize path)).map (·.bytes)

private theorem canonicalizing_eq_ok {path bytes : PathBuf} : os.canonicalizing path = .ok bytes ↔
    ∃ resolved : PlainPath, os (.canonicalize path) = .ok resolved ∧ resolved.bytes = bytes := by
  constructor
  · intro h
    cases hanswer : os (.canonicalize path) with
    | error e => simp [Os.canonicalizing, hanswer, Except.map] at h
    | ok resolved =>
      rw [Os.canonicalizing, hanswer] at h
      exact ⟨resolved, rfl, Except.ok.inj h⟩
  · rintro ⟨resolved, hresolved, rfl⟩
    rw [Os.canonicalizing, hresolved]
    rfl

/-- `aliased_rest` is the walk over the answers of the operating system. -/
theorem eval_aliasedRest (os : Os) (cand : PathBuf) (canonicalBase : PlainPath) :
    (aliasedRest cand canonicalBase).eval os =
      (aliasedRestBy cand canonicalBase.bytes).eval os.canonicalizing :=
  Program.eval_interp canonicalizing os _

private theorem stripPrefix_eq_none (habs : isAbsolute cand = true) :
    stripPrefix cand base = none ↔ ¬components base.bytes <+: components cand := by
  constructor
  · rintro hnone ⟨parts, hparts⟩
    obtain ⟨rel, hrel, -⟩ := exists_stripPrefix habs hparts.symm
    exact absurd (hnone.symm.trans hrel) (by simp)
  · intro hno
    by_contra hsome
    obtain ⟨rel, hrel⟩ := Option.ne_none_iff_exists'.mp hsome
    obtain ⟨parts, hparts, -⟩ := stripPrefix_eq_some hrel
    exact hno ⟨parts, hparts.symm⟩

/-- Beyond the first, the components of an absolute path are inner ones. -/
theorem inner_of_mem_drop (habs : isAbsolute cand = true) {k : Nat} (hk : 1 ≤ k)
    {part : Component} (h : part ∈ (components cand).drop k) : part.Inner := by
  obtain ⟨k, rfl⟩ := Nat.exists_eq_add_of_le' hk
  rw [components_of_isAbsolute habs, List.drop_succ_cons] at h
  exact inner_of_mem_body (List.mem_of_mem_drop h)

/-- Where a prefix names the root, what follows it is left. -/
theorem eval_restOfRoot (habs : isAbsolute cand = true) {before rest : List Component}
    (h : RootPrefix os base cand before) (hparts : components cand = before ++ rest) :
    ∃ rel, Fallible.eval os (restOfRoot base cand) = .ok rel ∧ Spells rel rest := by
  cases h with
  | direct hbase =>
    obtain ⟨rel, hrel, hspells⟩ := exists_stripPrefix habs hparts
    refine ⟨rel, ?_, hspells⟩
    rw [restOfRoot, hrel]
    rfl
  | canonical hbase hcanonical hbegins =>
    obtain ⟨rel, hrel, hspells⟩ := exists_stripPrefix habs hparts
    refine ⟨rel, ?_, hspells⟩
    rw [restOfRoot, (stripPrefix_eq_none habs).mpr hbase]
    simp only
    rw [Fallible.eval_bind_of_ok os (p := canonicalize base.bytes) hcanonical, hrel,
      Fallible.eval_pure]
  | @aliased canonicalBase resolved k hbase hcanonical hbegins hk hplain hshorter hresolved hsame =>
    have hdrop : (components cand).drop k = rest := by
      have hlen : ((components cand).take k).length = k := by
        rw [List.length_take, Nat.min_eq_left]
        exact hplain.trans (List.takeWhile_prefix _).length_le
      conv_lhs => rw [hparts]
      rw [← hlen, List.drop_left' (by rw [List.length_take, List.length_take]; omega)]
    have halias : (aliasedRest cand canonicalBase).eval os = some (ofComponents rest) := by
      rw [← hdrop, eval_aliasedRest]
      refine eval_aliasedRestByFrom hk (by omega) (fun j hj hjk => ?_)
        (canonicalizing_eq_ok.mpr ⟨_, hresolved, rfl⟩) hsame
      obtain ⟨other, hother, hdiffers⟩ := hshorter j hj hjk
      exact ⟨_, canonicalizing_eq_ok.mpr ⟨other, hother, rfl⟩, hdiffers⟩
    refine ⟨ofComponents rest, ?_, spells_ofComponents fun part hpart =>
      inner_of_mem_drop habs hk (hdrop ▸ hpart)⟩
    rw [restOfRoot, (stripPrefix_eq_none habs).mpr hbase]
    simp only
    rw [Fallible.eval_bind_of_ok os (p := canonicalize base.bytes) hcanonical,
      (stripPrefix_eq_none habs).mpr hbegins]
    simp only
    rw [Fallible.eval_bind_of_ok _ (eval_ofProgram os _), halias, Fallible.eval_pure]

/-- What is left follows a prefix that names the root. -/
theorem exists_rootPrefix (habs : isAbsolute cand = true) {rel : PathBuf}
    (h : Fallible.eval os (restOfRoot base cand) = .ok rel) :
    ∃ before rest, RootPrefix os base cand before ∧ components cand = before ++ rest ∧
      Spells rel rest := by
  have hof : ∀ before, RootPrefix os base cand before →
      ∃ before rest, RootPrefix os base cand before ∧ components cand = before ++ rest ∧
        Spells rel rest := by
    intro before hbefore
    obtain ⟨rest, hrest⟩ := hbefore.isPrefix
    obtain ⟨rel', hrel', hspells⟩ := eval_restOfRoot habs hbefore hrest.symm
    rw [h, Except.ok.injEq] at hrel'
    exact ⟨before, rest, hbefore, hrest.symm, hrel' ▸ hspells⟩
  by_cases hbase : components base.bytes <+: components cand
  · exact hof _ (.direct hbase)
  rw [restOfRoot, (stripPrefix_eq_none habs).mpr hbase] at h
  simp only at h
  cases hcanonical : os (.canonicalize base.bytes) with
  | error e =>
    rw [Fallible.eval_bind_of_error os (p := canonicalize base.bytes) hcanonical] at h
    exact absurd h (by simp)
  | ok canonicalBase =>
    by_cases hbegins : components (PlainPath.toAbsPath canonicalBase).bytes <+: components cand
    · exact hof _ (.canonical hbase hcanonical hbegins)
    rw [Fallible.eval_bind_of_ok os (p := canonicalize base.bytes) hcanonical,
      (stripPrefix_eq_none habs).mpr hbegins] at h
    simp only at h
    rw [Fallible.eval_bind_of_ok _ (eval_ofProgram os _)] at h
    cases hwalk : (aliasedRest cand canonicalBase).eval os with
    | none =>
      rw [hwalk, Fallible.eval_throw] at h
      exact absurd h (by simp)
    | some rest =>
      obtain ⟨k, hk, hk', -, hshorter, bytes, hbytes, hsame⟩ :=
        exists_of_aliasedRestByFrom ((eval_aliasedRest os cand canonicalBase).symm.trans hwalk)
      obtain ⟨resolved, hresolved, rfl⟩ := canonicalizing_eq_ok.mp hbytes
      refine hof _ (.aliased hbase hcanonical hbegins hk (by omega) (fun j hj hjk => ?_)
        hresolved hsame)
      obtain ⟨_, hanswer, hdiffers⟩ := hshorter j hj hjk
      obtain ⟨other, hother, rfl⟩ := canonicalizing_eq_ok.mp hanswer
      exact ⟨other, hother, hdiffers⟩

/-- The result of `relative_to_root`: what is left, or `.`, and the trailing spelling. -/
theorem eval_relativeToRoot_of_rest {rest : PathBuf}
    (h : Fallible.eval os (restOfRoot base cand) = .ok rest) :
    Fallible.eval os (relativeToRoot base cand) =
      .ok ((if rest = [] then [46] else rest) ++ trailingSpelling cand) := by
  rw [relativeToRoot, Fallible.eval_bind_of_ok os h, Fallible.eval_pure]

/-- Every result of `relative_to_root` comes of a prefix that names the root. -/
theorem exists_of_eval_relativeToRoot (habs : isAbsolute cand = true) {rel : PathBuf}
    (h : Fallible.eval os (relativeToRoot base cand) = .ok rel) :
    ∃ before rest kept, RootPrefix os base cand before ∧ components cand = before ++ rest ∧
      Spells kept rest ∧ rel = (if kept = [] then [46] else kept) ++ trailingSpelling cand := by
  obtain ⟨kept, hkept, -⟩ := Roc.Try.bind_eq_ok.mp ((Fallible.eval_bind os _ _).symm.trans h)
  obtain ⟨before, rest, hroot, hparts, hspells⟩ := exists_rootPrefix habs hkept
  rw [eval_relativeToRoot_of_rest hkept, Except.ok.injEq] at h
  exact ⟨before, rest, kept, hroot, hparts, hspells, h.symm⟩

end TrantorCli.FsCore
