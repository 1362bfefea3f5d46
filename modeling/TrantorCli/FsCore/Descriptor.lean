import TrantorCli.FsCore.Beneath

/-!
# Directory descriptors

A directory opened through a descriptor is named by the path it was opened at.
Every descriptor that comes of the preopen names an absolute path, beneath the
base when the root is confined, and resolving through it is resolving the joined
path through the descriptor it was opened from.
-/

open Interaction UnixPath

namespace TrantorCli.FsCore

/-- `metadata_followed`: whether the name leads to a directory, and its mode. -/
def metadataFollowed (tg : Target) : Sys (Bool × UInt32) := do
  let m ← metadata tg
  pure (m.isDir, m.mode)

/-- `open_dir` -/
def openDir (r : Root) (tg : Target) (follow : Bool) : Sys Desc :=
  match tg with
  | .ambient path => do
    let _ ← openDirectory (.ambient path) follow
    pure (.dir path)
  | .beneath path => do
    let _ ← openDirectory (.beneath path) follow
    let base ← Sys.ofExcept r.base
    pure (.dir (join base.bytes path))

/-- `directory_name` -/
def directoryName : IoError := ⟨.notADirectory, "a path ending in / names a directory"⟩

/-- `is_a_directory_name` -/
def isADirectoryName : IoError := ⟨.isADirectory, "a file cannot be created over a directory"⟩

/-- `open_non_directory` -/
def openNonDirectory (tg : Target) (flags : OpenFlags) : Sys Desc := do
  if (flags.create || flags.exclusive) && namesDirectory tg.path then
    match ← Sys.ofProgram (metadataFollowed tg).run with
    | .ok (true, _) => throw isADirectoryName
    | _ => throw directoryName
  else
    return .file (← openFile tg flags)

/-- `open_with_flags_at` -/
def openWithFlagsAt (r : Root) (d : Desc) (path : PathBuf) (flags : OpenFlags) : Sys Desc :=
  withPath r d path fun tg =>
    if flags.directory then openDir r tg flags.followSymlinks else openNonDirectory tg flags

/-- The descriptors that come of the preopen by directory opens, whatever happens to the
filesystem between them. -/
inductive DirDescriptor (r : Root) : Desc → Prop where
  | preopen : DirDescriptor r .root
  | opened {os : Os} {d d' : Desc} {path : PathBuf} {flags : OpenFlags} (hd : DirDescriptor r d)
      (hflags : flags.directory = true)
      (hopen : Fallible.eval os (openWithFlagsAt r d path flags) = .ok d') : DirDescriptor r d'

/-- A directory that paths may be resolved against: it is absolute, and beneath the base when the
root is confined. -/
structure Beneath (r : Root) (dir : PathBuf) : Prop where
  absolute : isAbsolute dir = true
  base : ∀ base, r = .confined (.ok base) → components base.bytes <+: components dir

/-- Resolving a path through a descriptor. -/
def resolveAt (r : Root) (d : Desc) (path : PathBuf) : Sys Target := withPath r d path pure

variable {r : Root} {os : Os} {d d' : Desc} {dir path : PathBuf}

/-! ### Resolving -/

/-- What a resolved path is on an unconfined root: the path itself, or joined to the directory. -/
theorem resolve_unconfined {base : AbsPath} (hpath : path ≠ []) :
    resolve (.unconfined base) dir path =
      pure (.ambient (if isAbsolute path then path else join dir path)) := by
  rw [resolve, if_neg hpath]
  rfl

/-- On a confined root: what is left of it beneath the base. -/
theorem resolve_confined {base : PlainPath} (hpath : path ≠ []) :
    resolve (.confined (.ok base)) dir path =
      (relativeToRoot base.toAbsPath (if isAbsolute path then path else join dir path) >>=
        fun rel =>
        pure (.beneath rel)) := by
  rw [resolve, if_neg hpath]
  rfl

/-- Operating at a path is finding its directory, resolving it, and going on. -/
theorem eval_withPath {α : Type} (f : Target → Sys α) :
    Fallible.eval os (withPath r d path f) =
      (dirOf r d >>= fun dir => Fallible.eval os (resolve r dir path)) >>= fun tg =>
        Fallible.eval os (f tg) := by
  rw [withPath, Fallible.eval_bind, eval_ofExcept]
  cases dirOf r d with
  | error e => rfl
  | ok dir =>
    rw [Roc.Try.ok_bind, Roc.Try.ok_bind, Fallible.eval_bind]

/-- On a confined root that could not be established: its error. -/
theorem resolve_failed {e : IoError} (hpath : path ≠ []) :
    resolve (.confined (.error e)) dir path = throw e := by
  rw [resolve, if_neg hpath]
  rfl

/-- A relative path resolved against a directory beneath a confined root takes no system call, and
keeps the components below the root and the trailing spelling of the joined path. -/
theorem resolve_beneath {base : PlainPath} (hdir : Beneath (.confined (.ok base)) dir)
    (hpath : path ≠ []) (hrel : isAbsolute path = false) :
    ∃ rel rest, resolve (.confined (.ok base)) dir path = pure (.beneath rel) ∧
      isAbsolute rel = false ∧ body rel = rest ∧
      components (join dir path) = components base.bytes ++ rest ∧
      components rel = (if rest = [] then [.curDir] else rest) ∧
      trailingSpelling rel = trailingSpelling (join dir path) := by
  obtain ⟨before, hbefore⟩ := hdir.base base rfl
  have hparts : components (join dir path) = components base.bytes ++ (before ++ body path) := by
    rw [components_join hdir.absolute hrel, ← hbefore, List.append_assoc]
  obtain ⟨rel, hpure, hrelative, hbody, hcomponents, htrailing⟩ :=
    relativeToRoot_direct (isAbsolute_join hdir.absolute path) hparts
  refine ⟨rel, _, ?_, hrelative, hbody, hparts, hcomponents, htrailing⟩
  rw [resolve_confined hpath, if_neg (by simp [hrel]), hpure]
  rfl

/-! ### Opening keeps directories beneath the root -/

/-- A directory opened from a directory beneath the root, under whatever name, is beneath it. -/
theorem beneath_openDir {tg : Target} (hdir : Beneath r dir) {follow : Bool}
    (htg : Fallible.eval os (resolve r dir path) = .ok tg)
    (hopen : Fallible.eval os (openDir r tg follow) = .ok d') :
    ∃ dir', d' = .dir dir' ∧ Beneath r dir' := by
  have hpath : path ≠ [] := by
    rintro rfl
    exact absurd htg (by simp [resolve])
  have hcand : isAbsolute (if isAbsolute path then path else join dir path) = true := by
    split
    · assumption
    · exact isAbsolute_join hdir.absolute path
  cases r with
  | unconfined base =>
    rw [resolve_unconfined hpath, Fallible.eval_pure, Except.ok.injEq] at htg
    subst htg
    obtain ⟨_, -, hdone⟩ := Roc.Try.bind_eq_ok.mp ((Fallible.eval_bind os _ _).symm.trans hopen)
    rw [Fallible.eval_pure, Except.ok.injEq] at hdone
    exact ⟨_, hdone.symm, hcand, fun base h => absurd h (by simp)⟩
  | confined opened =>
    cases opened with
    | error e =>
      rw [resolve_failed hpath, Fallible.eval_throw] at htg
      exact absurd htg (by simp)
    | ok base =>
      rw [resolve_confined hpath, Fallible.eval_bind] at htg
      obtain ⟨rel, hrel, hdone⟩ := Roc.Try.bind_eq_ok.mp htg
      rw [Fallible.eval_pure, Except.ok.injEq] at hdone
      subst hdone
      obtain ⟨_, -, hopen⟩ := Roc.Try.bind_eq_ok.mp ((Fallible.eval_bind os _ _).symm.trans hopen)
      have hdone : Fallible.eval os (pure (.dir (join base.bytes rel)) : Sys Desc) = .ok d' := hopen
      rw [Fallible.eval_pure, Except.ok.injEq] at hdone
      obtain ⟨_, _, -, -, hkeeps⟩ := keepsSpelling_of_eval hcand hrel
      refine ⟨_, hdone.symm, isAbsolute_join base.absolute rel, fun base' hbase' => ?_⟩
      obtain rfl : base = base' := by simpa using hbase'
      rw [components_join base.absolute hkeeps.relative]
      exact List.prefix_append _ _

/-- The parts of a successful open of a directory. -/
theorem eval_openWithFlagsAt {flags : OpenFlags} (hflags : flags.directory = true)
    (h : Fallible.eval os (openWithFlagsAt r d path flags) = .ok d') :
    ∃ dir tg, dirOf r d = .ok dir ∧ Fallible.eval os (resolve r dir path) = .ok tg ∧
      Fallible.eval os (openDir r tg flags.followSymlinks) = .ok d' := by
  rw [openWithFlagsAt, eval_withPath] at h
  obtain ⟨tg, htg, hopen⟩ := Roc.Try.bind_eq_ok.mp h
  obtain ⟨dir, hdir, htg⟩ := Roc.Try.bind_eq_ok.mp htg
  rw [if_pos hflags] at hopen
  exact ⟨dir, tg, hdir, htg, hopen⟩

/-- Every directory that comes of the preopen is beneath the root. -/
theorem DirDescriptor.beneath (h : DirDescriptor r d) {dir : PathBuf}
    (hdir : dirOf r d = .ok dir) : Beneath r dir := by
  induction h generalizing dir with
  | preopen =>
    cases r with
    | unconfined base =>
      rw [dirOf, Root.base, Except.map, Except.ok.injEq] at hdir
      subst hdir
      exact ⟨base.absolute, fun base h => absurd h (by simp)⟩
    | confined opened =>
      cases opened with
      | error e => exact absurd hdir (by simp [dirOf, Root.base, Except.map])
      | ok base =>
        simp only [dirOf, Root.base, Except.map, Except.ok.injEq] at hdir
        subst hdir
        refine ⟨base.absolute, fun base' hbase' => ?_⟩
        obtain rfl : base = base' := by simpa using hbase'
        exact List.prefix_refl _
  | opened hd hflags hopen ih =>
    obtain ⟨dir₀, tg, hdir₀, htg, hopen⟩ := eval_openWithFlagsAt hflags hopen
    obtain ⟨dir', rfl, hbeneath⟩ := beneath_openDir (ih hdir₀) htg hopen
    rw [dirOf, Except.ok.injEq] at hdir
    exact hdir ▸ hbeneath

/-! ### Opening and joining -/

/-- `joined` is `path` followed by `rest`, with a slash between them or with the one that `path`
ends in. -/
def Joined (path rest joined : PathBuf) : Prop :=
  joined = path ++ 47 :: rest ∨ joined = join path rest

private theorem Joined.exists_init {rest joined : PathBuf} (h : Joined path rest joined)
    (hpath : path ≠ [])
    (hrest : isAbsolute rest = false) :
    ∃ init, joined = init ++ 47 :: rest ∧ body init = body path := by
  rcases h with rfl | rfl
  · exact ⟨path, rfl, rfl⟩
  · rcases join_of_relative hrest path with ⟨-, hnil⟩ | ⟨init, hinit, hbody, -⟩
    · exact absurd hnil hpath
    · exact ⟨init, hinit, hbody⟩

private theorem Joined.relative {rest joined : PathBuf} (h : Joined path rest joined)
    (hpath : path ≠ [])
    (hrel : isAbsolute path = false) (hrest : isAbsolute rest = false) :
    joined ≠ [] ∧ isAbsolute joined = false := by
  rcases h with rfl | rfl
  · rw [isAbsolute_append hpath]
    exact ⟨by simp, hrel⟩
  · unfold join
    rw [if_neg (by simp [hrest])]
    split <;> rw [isAbsolute_append hpath] <;> exact ⟨by simp [hpath], hrel⟩

/-- Joining in two steps or in one gives the same components and trailing spelling. -/
theorem join_joined {rest joined dir' : PathBuf} (h : Joined path rest joined)
    (hdir : isAbsolute dir = true) (hdir' : isAbsolute dir' = true) (hpath : path ≠ [])
    (hrel : isAbsolute path = false) (hrest : rest ≠ []) (hrestRel : isAbsolute rest = false)
    (hparts : components dir' = components (join dir path)) :
    components (join dir' rest) = components (join dir joined) ∧
      trailingSpelling (join dir' rest) = trailingSpelling (join dir joined) := by
  obtain ⟨hjoinedNe, hjoinedRel⟩ := h.relative hpath hrel hrestRel
  obtain ⟨init, hinit, hbody⟩ := h.exists_init hpath hrestRel
  have hslash : ∀ {dir path : PathBuf}, isAbsolute dir = true → isAbsolute path = false →
      ∃ init, join dir path = init ++ 47 :: path := by
    intro dir path hdir hpath
    rcases join_of_relative hpath dir with ⟨-, rfl⟩ | ⟨init, hjoin, -⟩
    · exact absurd hdir (by decide)
    · exact ⟨init, hjoin⟩
  constructor
  · rw [components_join hdir' hrestRel, components_join hdir hjoinedRel, hparts,
      components_join hdir hrel, hinit, body_append_slash, hbody, List.append_assoc]
  · obtain ⟨front, hfront⟩ := hslash hdir' hrestRel
    obtain ⟨front', hfront'⟩ := hslash hdir hjoinedRel
    have hwhole : join dir joined = (front' ++ 47 :: init) ++ 47 :: rest := by
      rw [hfront', hinit, List.append_assoc, List.cons_append]
    rw [hfront, hwhole, trailingSpelling_append_slash hrest hrestRel,
      trailingSpelling_append_slash hrest hrestRel]

/-- Resolving a relative path through a descriptor that comes of the preopen asks the system
nothing. -/
theorem DirDescriptor.trace_resolveAt (h : DirDescriptor r d) (hrel : isAbsolute path = false) :
    Fallible.trace os (resolveAt r d path) = [] := by
  rw [resolveAt, withPath]
  cases hdir : dirOf r d with
  | error e => rfl
  | ok dir =>
    rw [Fallible.trace_bind_of_ok os (eval_ofExcept os _), trace_ofExcept, List.nil_append]
    by_cases hpath : path = []
    · rw [resolve, if_pos hpath]
      rfl
    cases r with
    | unconfined base =>
      rw [resolve_unconfined hpath]
      rfl
    | confined opened =>
      cases opened with
      | error e =>
        rw [resolve_failed hpath]
        rfl
      | ok base =>
        obtain ⟨rel, _, hpure, -⟩ := resolve_beneath (h.beneath hdir) hpath hrel
        rw [hpure]
        rfl

/-- Two targets an operation treats alike, whatever it reads off the components and the trailing
spelling of their paths. -/
structure SameTarget (tg tg' : Target) : Prop where
  backend : tg' = tg.withPath tg'.path
  components : components tg.path = components tg'.path
  trailing : trailingSpelling tg.path = trailingSpelling tg'.path

/-- Resolving in a directory opened at `path` is resolving the joined path. -/
theorem resolve_opened (hbeneath : Beneath r dir) {tg₀ : Target} {follow : Bool}
    (hpath : path ≠ []) (hrel : isAbsolute path = false)
    (htg₀ : Fallible.eval os (resolve r dir path) = .ok tg₀)
    (hopen : Fallible.eval os (openDir r tg₀ follow) = .ok d') {rest joined : PathBuf}
    (hrest : rest ≠ []) (hrestRel : isAbsolute rest = false) (hjoined : Joined path rest joined) :
    ∃ dir' tg tg', d' = .dir dir' ∧ resolve r dir' rest = pure tg ∧
      resolve r dir joined = pure tg' ∧ SameTarget tg tg' := by
  obtain ⟨hjoinedNe, hjoinedRel⟩ := hjoined.relative hpath hrel hrestRel
  obtain ⟨dir', rfl, hbeneath'⟩ := beneath_openDir hbeneath htg₀ hopen
  refine ⟨dir', ?_⟩
  cases r with
  | unconfined base =>
    rw [resolve_unconfined hpath, if_neg (by simp [hrel]), Fallible.eval_pure,
      Except.ok.injEq] at htg₀
    subst htg₀
    obtain ⟨_, -, hdone⟩ := Roc.Try.bind_eq_ok.mp ((Fallible.eval_bind os _ _).symm.trans hopen)
    rw [Fallible.eval_pure, Except.ok.injEq, Desc.dir.injEq] at hdone
    subst hdone
    obtain ⟨hcomponents, htrailing⟩ := join_joined hjoined hbeneath.absolute hbeneath'.absolute
      hpath hrel hrest hrestRel rfl
    refine ⟨_, _, rfl, resolve_unconfined hrest, resolve_unconfined hjoinedNe, ?_⟩
    rw [if_neg (by simp [hrestRel]), if_neg (by simp [hjoinedRel])]
    exact ⟨rfl, hcomponents, htrailing⟩
  | confined opened =>
    cases opened with
    | error e =>
      rw [resolve_failed hpath, Fallible.eval_throw] at htg₀
      exact absurd htg₀ (by simp)
    | ok base =>
      obtain ⟨rel₀, rest₀, hpure₀, hrelative₀, hbody₀, hparts₀, -⟩ :=
        resolve_beneath hbeneath hpath hrel
      rw [hpure₀, Fallible.eval_pure, Except.ok.injEq] at htg₀
      subst htg₀
      obtain ⟨_, -, hopen⟩ := Roc.Try.bind_eq_ok.mp ((Fallible.eval_bind os _ _).symm.trans hopen)
      have hdone : Fallible.eval os (pure (.dir (join base.bytes rel₀)) : Sys Desc) =
        .ok (.dir dir') := hopen
      rw [Fallible.eval_pure, Except.ok.injEq, Desc.dir.injEq] at hdone
      subst hdone
      have hparts : components (join base.bytes rel₀) = components (join dir path) := by
        rw [components_join base.absolute hrelative₀, hbody₀, hparts₀]
      obtain ⟨hcomponents, htrailing⟩ := join_joined hjoined hbeneath.absolute hbeneath'.absolute
        hpath hrel hrest hrestRel hparts
      obtain ⟨rel, parts, hpure, -, -, hjoin, hrelParts, hrelTrailing⟩ :=
        resolve_beneath hbeneath' hrest hrestRel
      obtain ⟨rel', parts', hpure', -, -, hjoin', hrelParts', hrelTrailing'⟩ :=
        resolve_beneath hbeneath hjoinedNe hjoinedRel
      have hsame : parts = parts' := by
        rw [hjoin, hjoin', List.append_cancel_left_eq] at hcomponents
        exact hcomponents
      refine ⟨_, _, rfl, hpure, hpure', rfl, ?_, ?_⟩
      · simp only [Target.path]
        rw [hrelParts, hrelParts', hsame]
      · simp only [Target.path]
        rw [hrelTrailing, hrelTrailing', htrailing]

/-- A descriptor that comes of the preopen is beneath the root and resolves relative paths without
the system; and a path resolved through a directory just opened is the joined path resolved through
the descriptor it was opened from. -/
theorem open_commutes_join (r : Root) (d : Desc) (h : DirDescriptor r d) :
    (∀ dir, dirOf r d = .ok dir → Beneath r dir) ∧
    (∀ os path, isAbsolute path = false → Fallible.trace os (resolveAt r d path) = []) ∧
    ∀ os path flags d', path ≠ [] → isAbsolute path = false → flags.directory = true →
      Fallible.eval os (openWithFlagsAt r d path flags) = .ok d' →
      ∀ rest joined, rest ≠ [] → isAbsolute rest = false → Joined path rest joined →
        ∃ tg tg', (∀ os', Fallible.eval os' (resolveAt r d' rest) = .ok tg) ∧
          (∀ os', Fallible.eval os' (resolveAt r d joined) = .ok tg') ∧ SameTarget tg tg' := by
  refine ⟨fun dir hdir => h.beneath hdir, fun os path hrel => h.trace_resolveAt hrel, ?_⟩
  intro os path flags d' hpath hrel hflags hopen rest joined hrest hrestRel hjoined
  obtain ⟨dir, tg₀, hdir, htg₀, hopen⟩ := eval_openWithFlagsAt hflags hopen
  obtain ⟨dir', tg, tg', rfl, htg, htg', hsame⟩ :=
    resolve_opened (h.beneath hdir) hpath hrel htg₀ hopen hrest hrestRel hjoined
  have hresolve : ∀ {d : Desc} {dir path : PathBuf} {tg : Target}, dirOf r d = .ok dir →
      resolve r dir path = pure tg → ∀ os', Fallible.eval os' (resolveAt r d path) = .ok tg := by
    intro d dir path tg hdir htg os'
    rw [resolveAt, eval_withPath, hdir, Roc.Try.ok_bind, htg]
    rfl
  exact ⟨tg, tg', hresolve rfl htg, hresolve hdir htg', hsame⟩

/-- `a` opened in the confined root `/r`, then `b/` in it. -/
theorem open_commutes_join_example :
    ∃ tg tg', (∀ os', Fallible.eval os' (resolveAt (.confined (.ok ⟨⟨[47, 114], by decide⟩,
        by decide⟩)) (.dir [47, 114, 47, 97]) [98, 47]) = .ok tg) ∧
      (∀ os', Fallible.eval os' (resolveAt (.confined (.ok ⟨⟨[47, 114], by decide⟩,
        by decide⟩)) .root [97, 47, 98, 47]) = .ok tg') ∧ SameTarget tg tg' := by
  have hopen : Fallible.eval linkOs (openWithFlagsAt (.confined (.ok ⟨⟨[47, 114], by decide⟩,
      by decide⟩)) .root [97] ⟨true, false, false, false, false, false, true, true, 0⟩) =
      .ok (.dir [47, 114, 47, 97]) := by
    decide +kernel
  exact (open_commutes_join _ _ .preopen).2.2 linkOs [97] _ _ (by decide) (by decide) rfl hopen
    [98, 47] _ (by decide) (by decide) (.inl rfl)

end TrantorCli.FsCore
