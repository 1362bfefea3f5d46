import TrantorCli.Lib.UnixPath.Parent
import TrantorCli.Path.Cutting
import TrantorCli.Path.Listing

/-!
# The paths of entries

A listed path leads to its entry: it resolves to what its directory resolves to and
the name, in every spelling of the directory, and its file name is the name of the
entry, unless that ends in two dots.
-/

open Interaction UnixPath Roc

namespace TrantorCli

open FsCore

/-! ### The path of an entry -/

section Entry

variable {dir name : List UInt8}

/-- An entry is named by the directory, one slash and its name. -/
theorem exists_joinEntry (hdir : dir ≠ []) (name : List UInt8) :
    ∃ before, Host.joinEntry dir name = before ++ 47 :: name := by
  rcases List.eq_nil_or_concat' dir with rfl | ⟨before, c, rfl⟩
  · exact absurd rfl hdir
  · rw [Host.joinEntry, List.getLast?_concat]
    by_cases hc : c = 47
    · exact ⟨before, by simp [hc]⟩
    · exact ⟨before ++ [c], by simp [hc]⟩

private theorem relative_name (hname : (Component.normal name).Inner) : isAbsolute name = false :=
  hname.relative

/-- Joining a name to a directory joins paths. -/
theorem joinEntry_eq_join (hname : (Component.normal name).Inner) :
    Host.joinEntry dir name = join dir name := by
  rw [Host.joinEntry, join, if_neg (by simp [relative_name hname])]
  cases hlast : dir.getLast? with
  | none =>
    obtain rfl : dir = [] := List.getLast?_eq_none_iff.mp hlast
    simp
  | some c => by_cases hc : c = 47 <;> simp [hc]

/-- Below a directory that is not empty an entry is its components and the name. -/
theorem components_joinEntry (hdir : dir ≠ []) (hname : (Component.normal name).Inner) :
    components (Host.joinEntry dir name) = components dir ++ [.normal name] := by
  rw [joinEntry_eq_join hname, components_join_of_ne_nil hdir (relative_name hname)]
  exact congrArg (components dir ++ ·) hname.body_bytes

/-- Taken from a working directory, an entry is the entry of the directory taken from it. -/
theorem joinBytes_joinEntry (a : PathBuf) (hdir : dir ≠ []) :
    FsOps.joinBytes a (Host.joinEntry dir name) = Host.joinEntry (FsOps.joinBytes a dir) name := by
  obtain ⟨c, hlast⟩ : ∃ c, dir.getLast? = some c :=
    Option.ne_none_iff_exists'.mp (mt List.getLast?_eq_none_iff.mp hdir)
  have hjoined (before : PathBuf) :
      Host.joinEntry (before ++ dir) name = before ++ Host.joinEntry dir name := by
    have hlast' : (before ++ dir).getLast? = some c := by
      rw [List.getLast?_append, hlast]
      rfl
    rw [Host.joinEntry, Host.joinEntry, hlast, hlast']
    by_cases hc : c = 47 <;> simp [hc]
  unfold FsOps.joinBytes
  cases a.getLast? with
  | none => rfl
  | some b =>
    by_cases hb : b = 47
    · simp only [hb, if_true, hjoined]
    · simp only [hb, if_false, hjoined]

/-- An entry resolves to what its directory resolves to, and the name. -/
theorem resolve_joinEntry {s : FsOps.Process} (hresolve : FsOps.resolve s dir ≠ [])
    (name : List UInt8) :
    FsOps.resolve s (Host.joinEntry dir name) = Host.joinEntry (FsOps.resolve s dir) name := by
  have hdir : dir ≠ [] := by
    rintro rfl
    exact hresolve (by simp [FsOps.resolve])
  obtain ⟨before, hentry⟩ := exists_joinEntry hdir name
  have hentry_ne : Host.joinEntry dir name ≠ [] := by simp [hentry]
  have habs : isAbsolute (Host.joinEntry dir name) = isAbsolute dir := by
    obtain ⟨c, hlast⟩ : ∃ c, dir.getLast? = some c :=
      Option.ne_none_iff_exists'.mp (mt List.getLast?_eq_none_iff.mp hdir)
    rw [Host.joinEntry, hlast]
    by_cases hc : c = 47
    · simp [hc, isAbsolute_append hdir]
    · simp [hc, isAbsolute_append hdir]
  unfold FsOps.resolve at hresolve ⊢
  rw [habs]
  by_cases hrel : isAbsolute dir = true
  · simp [hrel]
  · rw [if_neg (by simp [hrel, hdir])] at hresolve
    rw [if_neg (by simp [hrel, hentry_ne]), if_neg (by simp [hrel, hdir])]
    cases hcwd : FsOps.cwd s with
    | error e =>
      cases e
      rw [hcwd] at hresolve
      exact absurd rfl hresolve
    | ok a => exact joinBytes_joinEntry a hdir

/-- What `filename` looks at, on the path of an entry. -/
theorem cut_entry (before : List UInt8) (hname : (Component.normal name).Inner) :
    Path.endsWithU8 (before ++ 47 :: name) 47 = false ∧
      Path.endsWithTwoU8 (before ++ 47 :: name) 46 46 = Path.endsWithTwoU8 name 46 46 ∧
      Path.findLastIndex (· == 47) (before ++ 47 :: name) = some before.length ∧
      Path.afterIndexU8 (before ++ 47 :: name) before.length = .ok name := by
  have hslash : (47 : UInt8) ∉ name := hname.noSlash
  have hne : name ≠ [] := hname.bytes_ne.1
  obtain ⟨front, last, rfl⟩ := (List.eq_nil_or_concat' name).resolve_left hne
  have hassoc : before ++ 47 :: (front ++ [last]) = (before ++ 47 :: front) ++ [last] := by simp
  refine ⟨?_, ?_, ?_, Path.afterIndex_append_cons before _ 47⟩
  · have hlast : last ≠ 47 := by
      rintro rfl
      exact hslash (by simp)
    rw [Path.endsWithU8, Path.endsWith, hassoc, List.getLast?_concat]
    exact beq_false_of_ne hlast
  · rw [Path.endsWithTwoU8, Path.endsWithTwo, Path.endsWithTwo, hassoc, List.reverse_append,
      List.reverse_append]
    -- in front of a one-byte name is the slash, which is no dot
    rcases List.eq_nil_or_concat' front with rfl | ⟨front, first, rfl⟩
    · simp
    · simp
  · apply Path.findLastIndex_append_cons (by simp)
    intro b hb
    have hb47 : b ≠ 47 := fun h => hslash (h ▸ hb)
    simpa using hb47

/-- Where the bytes of an entry's path are text, so is its name. -/
theorem valid_name {before : List UInt8} (h : Utf8.Valid (before ++ 47 :: name)) :
    Utf8.Valid name := by
  have hcut := (h.cut (by decide)).2
  exact Utf8.Valid.of_append_left FsOps.valid_slash hcut

/-- The file name of an entry's path is the name of the entry, unless that ends in two dots. -/
theorem filename_entry (hdir : dir ≠ []) (hname : (Component.normal name).Inner) :
    (Path.endsWithTwoU8 name 46 46 = true →
      Path.filename (.fromRaw (native (Host.joinEntry dir name))) = .ok (.error .endsInDots)) ∧
    (Path.endsWithTwoU8 name 46 46 = false →
      ∃ file, Path.filename (.fromRaw (native (Host.joinEntry dir name))) = .ok (.ok file) ∧
        Host.dirBytes file.toRaw = .ok name) := by
  obtain ⟨before, hentry⟩ := exists_joinEntry hdir name
  obtain ⟨hslash, hdots, hindex, hafter⟩ := cut_entry before hname
  rw [hentry, native]
  cases htext : Str.fromUtf8 (before ++ 47 :: name) with
  | error index =>
    refine ⟨fun h => ?_, fun h => ⟨.unix name, ?_, rfl⟩⟩
    · simp [Path.fromRaw, Path.filename, hslash, hdots, h]
    · simp [Path.fromRaw, Path.filename, hslash, hdots, h, hindex, hafter]
  | ok str =>
    have hbytes : str.bytes = before ++ 47 :: name := Str.bytes_of_fromUtf8 htext
    have hvalid : Utf8.Valid name := valid_name (hbytes ▸ str.valid)
    have hstr : Path.strFromValidUtf8 name = .ok ⟨name, hvalid⟩ := by
      have hname : Str.fromUtf8 name = .ok ⟨name, hvalid⟩ := Str.fromUtf8_bytes ⟨name, hvalid⟩
      rw [Path.strFromValidUtf8, hname]
    refine ⟨fun h => ?_, fun h => ⟨.utf8 ⟨name, hvalid⟩, ?_, rfl⟩⟩
    · simp [Path.fromRaw, Path.filename, hbytes, hslash, hdots, h]
    · simp [Path.fromRaw, Path.filename, hbytes, hslash, hdots, h, hindex, hafter, hstr]

/-- The bytes of a path that is made of bytes are those bytes. -/
theorem dirBytes_native (bytes : PathBuf) : Host.dirBytes (native bytes) = .ok bytes := by
  rw [native]
  cases htext : Str.fromUtf8 bytes with
  | ok text => exact congrArg Except.ok (Str.bytes_of_fromUtf8 htext)
  | error index => rfl

end Entry

/-- The path that is listed for an entry. -/
def entryPath (dir name : List UInt8) : Path := .fromRaw (native (Host.joinEntry dir name))

/-- A listed path has its bytes, resolves to its directory and the name, and has the name as its
file name, unless that ends in two dots. -/
structure LeadsToEntry (s : FsOps.Process) (dir name : List UInt8) : Prop where
  bytes : Host.dirBytes (entryPath dir name).toRaw = .ok (Host.joinEntry dir name)
  resolves : components (FsOps.resolve s (Host.joinEntry dir name)) =
    components (FsOps.resolve s dir) ++ [.normal name]
  fileName : Path.endsWithTwoU8 name 46 46 = false →
    ∃ file, Path.filename (entryPath dir name) = .ok (.ok file) ∧
      Host.dirBytes file.toRaw = .ok name
  dots : Path.endsWithTwoU8 name 46 46 = true →
    Path.filename (entryPath dir name) = .ok (.error .endsInDots)

private theorem leadsToEntry {s : FsOps.Process} {dir name : List UInt8}
    (hresolve : FsOps.resolve s dir ≠ [])
    (hname : (Component.normal name).Inner) : LeadsToEntry s dir name := by
  have hdir : dir ≠ [] := by
    rintro rfl
    exact hresolve (by simp [FsOps.resolve])
  refine ⟨?_, ?_, (filename_entry hdir hname).2, (filename_entry hdir hname).1⟩
  · rw [entryPath, Path.toRaw_fromRaw, dirBytes_native]
  · rw [resolve_joinEntry hresolve, components_joinEntry hresolve hname]

/-! ### Listing -/

/-- Two tables of answers that differ only in the order in which directories are read. -/
structure Reordered (os os' : ∀ c, PathAnswer c) : Prop where
  sys : ∀ c, os' (.sys c) = os (.sys c)
  dirs : ∀ tg found, dirAnswer os tg = .ok found →
    ∃ found', dirAnswer os' tg = .ok found' ∧ found'.Perm found

section Listing

variable {s : FsOps.Process} {path : Path} {listed : List Path}

/-- What `list!` answers, by the names of the entries. -/
theorem eval_pathList (os : ∀ c, PathAnswer c) :
    Fallible.eval os (Path.list s path) = .ok listed ↔
      ∃ dir tg found, Host.dirBytes path.toRaw = .ok dir ∧
        leadsTo os s.root .root (FsOps.resolve s dir) = .ok tg ∧
        dirAnswer os tg = .ok found ∧ Readable found ∧
        listed = ((entryNames found).mergeSort nameLe).map (entryPath dir) := by
  have hlist : Fallible.eval os (Path.list s path) =
      ((Fallible.eval os (Host.dirList s path.toRaw)).mapError DirErr.toPathErr).map fun paths =>
        paths.map Path.fromRaw := by
    rw [Path.list, Fallible.eval_bind, eval_adapt]
    cases Fallible.eval os (Host.dirList s path.toRaw) <;> rfl
  have hdirList : Fallible.eval os (Host.dirList s path.toRaw) =
      Host.dirBytes path.toRaw >>= fun dir =>
        (Fallible.eval os (FsOps.list s dir)).map fun names =>
          names.map fun name => native (Host.joinEntry dir name) := by
    rw [Host.dirList, Fallible.eval_bind]
    cases Host.dirBytes path.toRaw with
    | error e => rfl
    | ok dir =>
      change Fallible.eval os (FsOps.list s dir >>= _) = _
      rw [Fallible.eval_bind, Try.ok_bind]
      cases Fallible.eval os (FsOps.list s dir) <;> rfl
  rw [hlist, map_eq_ok]
  constructor
  · rintro ⟨paths, hpaths, rfl⟩
    rw [mapError_eq_ok, hdirList, Try.bind_eq_ok] at hpaths
    obtain ⟨dir, hdir, hpaths⟩ := hpaths
    obtain ⟨names, hnames, rfl⟩ := map_eq_ok.mp hpaths
    obtain ⟨tg, found, htg, hfound, hreadable, rfl⟩ := (eval_list os s).mp hnames
    exact ⟨dir, tg, found, hdir, htg, hfound, hreadable, by rw [List.map_map]; rfl⟩
  · rintro ⟨dir, tg, found, hdir, htg, hfound, hreadable, rfl⟩
    have hnames := (eval_list os s).mpr ⟨tg, found, htg, hfound, hreadable, rfl⟩
    refine ⟨_, ?_, by rw [List.map_map]; rfl⟩
    rw [mapError_eq_ok, hdirList, hdir, Try.ok_bind, map_eq_ok]
    exact ⟨_, hnames, rfl⟩

/-- What is listed does not depend on the order in which the entries are read. -/
theorem eval_pathList_of_reordered {os os' : ∀ c, PathAnswer c} (hos : Reordered os os')
    (h : Fallible.eval os (Path.list s path) = .ok listed) :
    Fallible.eval os' (Path.list s path) = .ok listed := by
  obtain ⟨dir, tg, found, hdir, htg, hfound, hreadable, rfl⟩ := (eval_pathList os).mp h
  obtain ⟨found', hfound', hperm⟩ := hos.dirs tg found hfound
  have hsys : sysAnswers os' = sysAnswers os := funext hos.sys
  apply (eval_pathList os').mpr
  refine ⟨dir, tg, found', hdir, by rw [leadsTo, hsys]; exact htg, hfound', ?_, ?_⟩
  · exact fun entry hentry => hreadable entry (hperm.mem_iff.mp hentry)
  · have hnames : (entryNames found').Perm (entryNames found) := hperm.filterMap _
    rw [sorted_of_perm hnames]

/-- What `list!` answers are the entries of the directory that the path leads to, each once and in
the order of their names, whatever order they are read in. Each path that is listed leads to its
entry, from any directory, absolute or relative, in any spelling. -/
theorem list_leads_to_entries (s : FsOps.Process) (os : ∀ c, PathAnswer c)
    (hos : ∀ tg found, dirAnswer os tg = .ok found → DirListing found) (path : Path)
    (listed : List Path) (h : Fallible.eval os (Path.list s path) = .ok listed) :
    ∃ dir tg found, ∃ names : List (List UInt8), Host.dirBytes path.toRaw = .ok dir ∧
      leadsTo os s.root .root (FsOps.resolve s dir) = .ok tg ∧ dirAnswer os tg = .ok found ∧
      names.Pairwise (· < ·) ∧ (∀ name, name ∈ names ↔ name ∈ entryNames found) ∧
      listed = names.map (entryPath dir) ∧ (∀ name ∈ names, LeadsToEntry s dir name) ∧
      ∀ os', Reordered os os' → Fallible.eval os' (Path.list s path) = .ok listed := by
  obtain ⟨dir, tg, found, hdir, htg, hfound, -, hlisted⟩ := (eval_pathList os).mp h
  have hlisting := hos tg found hfound
  refine ⟨dir, tg, found, (entryNames found).mergeSort nameLe, hdir, htg, hfound,
    pairwise_lt_sorted hlisting.distinct, fun name => List.mem_mergeSort, hlisted, ?_, ?_⟩
  · intro name hname
    exact leadsToEntry (ne_nil_of_leadsTo os htg)
      (hlisting.inner name (List.mem_mergeSort.mp hname))
  · exact fun os' hos' => eval_pathList_of_reordered hos' h

end Listing

/-- A directory that is read as `b`, `B` and `a`, and nothing anywhere else. -/
def outOfOrder : ∀ c, PathAnswer c
  | .readDir _ => .ok [.ok ⟨[98], .ok ⟨false, true, false⟩⟩, .ok ⟨[66], .ok ⟨true, false, false⟩⟩,
      .ok ⟨[97], .ok ⟨false, true, false⟩⟩]
  | .sys _ | .readFile _ | .writeFile _ _ | .createDirAll _ | .rename _ _ | .hardLink _ _
  | .symlink _ _ | .readLink _ => .error ⟨.notFound, ""⟩

/-- A process at the root that finds nothing. -/
def atRoot : FsOps.Process where
  slot := .lit ""
  currentDir := .ok .slash
  root := .unconfined .slash
  os := fun _ => .error ⟨.notFound, ""⟩

/-- `/d` is listed as `B`, `a` and `b`. -/
theorem list_leads_to_entries_sorted :
    ∃ dir tg found, ∃ names : List (List UInt8),
      Host.dirBytes (Path.unix [47, 100]).toRaw = .ok dir ∧
      leadsTo outOfOrder atRoot.root .root (FsOps.resolve atRoot dir) = .ok tg ∧
      dirAnswer outOfOrder tg = .ok found ∧ names.Pairwise (· < ·) ∧
      (∀ name, name ∈ names ↔ name ∈ entryNames found) ∧
      [[66], [97], [98]].map (entryPath [47, 100]) = names.map (entryPath dir) ∧
      (∀ name ∈ names, LeadsToEntry atRoot dir name) ∧
      ∀ os', Reordered outOfOrder os' → Fallible.eval os' (Path.list atRoot (.unix [47, 100])) =
        .ok ([[66], [97], [98]].map (entryPath [47, 100])) := by
  apply list_leads_to_entries atRoot outOfOrder
  · rintro tg found hfound
    obtain rfl := Except.ok.inj hfound
    refine ⟨by decide, fun name hname => ?_⟩
    obtain rfl | rfl | rfl : name = [98] ∨ name = [66] ∨ name = [97] := by
      simpa [entryNames, Except.toOption] using hname
    all_goals exact ⟨by decide, by decide⟩
  · apply (eval_pathList outOfOrder).mpr
    refine ⟨[47, 100], .ambient [47, 100], _, rfl, rfl, rfl, ?_, ?_⟩
    · intro entry hentry
      simp only [List.mem_cons, List.not_mem_nil, or_false] at hentry
      rcases hentry with rfl | rfl | rfl <;> exact ⟨_, _, rfl, rfl⟩
    · have hread : ([[98], [66], [97]] : List (List UInt8)).Perm [[66], [97], [98]] := by decide
      have hsorted : ([[66], [97], [98]] : List (List UInt8)).mergeSort nameLe =
          [[66], [97], [98]] := List.mergeSort_of_pairwise (by decide)
      exact congrArg (List.map _) (hsorted.symm.trans (sorted_of_perm hread.symm))

end TrantorCli
