import TrantorCli.FsCore.CopyRules

/-!
# Runs of a directory copy

A directory is made for its owner alone and then given its mode; when that
fails, it is removed again under the name it was made by.
-/

open Interaction UnixPath

namespace TrantorCli.FsCore

variable {Name : Type} [DecidableEq Name] {K : Kernel Name} {I : World Name → Prop}
  {w₀ w : World Name} {n : Name} {o : Object} {limit : UInt32}

omit [DecidableEq Name] in
/-- The object a directory copy reads its mode from: a link is a link unless the name ends in a
mark. -/
def Kernel.asNamed (K : Kernel Name) (w : World Name) (tg : Target) : Option Nat :=
  match tg with
  | .ambient _ => K.lstat w tg
  | .beneath path => if namesDirectory path then K.follow w tg else K.lstat w tg

omit [DecidableEq Name] in
/-- The permission bits of the object at `src`, with all of the owner's. -/
def Kernel.dirLimit (K : Kernel Name) (w₀ : World Name) (src : Target) : UInt32 :=
  match K.asNamed w₀ src with
  | some id => ((w₀.objects id).mode &&& 0o777) ||| 0o700
  | none => 0

/-- The name a directory is made under: without its trailing slashes. -/
def newName (tg : Target) : Target :=
  match slashesStripped tg.path with
  | none => tg
  | some name => tg.withPath name

/-- The name is a new directory with the source's permission bits and all of the owner's, and
nothing else has changed. -/
structure DirCopied (K : Kernel Name) (src named : Target) (w₀ w : World Name) : Prop where
  intro ::
  copied : ∃ id n o, K.asNamed w₀ src = some id ∧ (w₀.objects id).kind = .directory ∧
    K.entry named = some n ∧ Made w₀ n o w ∧ o.kind = .directory ∧
    o.mode = ((w₀.objects id).mode &&& 0o777) ||| 0o700

private theorem ensures_metadataAsNamed {tg : Target}
    {Q : Except IoError (Bool × UInt32) → World Name → Prop} (hI : I w)
    (herror : ∀ e, Q (.error e) w)
    (hok : ∀ id, K.asNamed w tg = some id →
      Q (.ok ((w.objects id).metadata.isDir, (w.objects id).metadata.mode)) w) :
    Fallible.Ensures K.alone I Q (metadataAsNamed tg) w := by
  cases tg with
  | ambient path =>
    refine Fallible.ensures_bind (ensures_symlinkMetadata hI herror fun id hid => ?_)
    exact Fallible.ensures_pure hI (hok id hid)
  | beneath path =>
    refine Fallible.ensures_bind ?_
    unfold beneathLstat
    split
    · rename_i hnames
      refine ensures_metadata hI herror fun id hid => ?_
      exact Fallible.ensures_pure hI (hok id (by rw [Kernel.asNamed, if_pos hnames, hid]))
    · rename_i hnames
      refine ensures_symlinkMetadata hI herror fun id hid => ?_
      exact Fallible.ensures_pure hI (hok id (by rw [Kernel.asNamed, if_neg hnames, hid]))

private theorem ensures_newDirectoryName {tg : Target}
    {Q : Except IoError Target → World Name → Prop}
    (hI : I w) (herror : ∀ e, Q (.error e) w) (hok : Q (.ok (newName tg)) w) :
    Fallible.Ensures K.alone I Q (newDirectoryName tg) w := by
  rw [newName] at hok
  rw [newDirectoryName]
  cases hname : slashesStripped tg.path with
  | none =>
    rw [hname] at hok
    exact Fallible.ensures_pure hI hok
  | some name =>
    rw [hname] at hok
    refine Fallible.ensures_bind (ensures_ofProgram (ensures_symlinkMetadata hI (fun e => ?_)
      fun id _ => Fallible.ensures_throw hI (herror _)))
    simp only
    split
    · exact Fallible.ensures_pure hI hok
    · exact Fallible.ensures_throw hI (herror _)

/-- Setting the mode of the directory just made. -/
theorem ensures_chmodMade {named : Target} {mode : UInt32} (h : Made w₀ n o w)
    (hentry : K.entry named = some n) (hlimit : Within o.mode limit)
    (hmode : mode &&& 0o7777 = limit) :
    Fallible.Ensures K.alone (Safe w₀ limit)
      (fun result w' => ∃ o', Made w₀ n o' w' ∧ o'.kind = o.kind ∧ Within o'.mode limit ∧
        (result = .ok () → o'.mode = limit)) (chmodMade named mode) w := by
  refine Fallible.ensures_bind (ensures_sys (by simp) (h.safe hlimit) (fun e => ?_) ?_)
  · exact ⟨o, h, rfl, hlimit, fun hok => by simp at hok⟩
  · rintro _ _ ⟨id, hid, -, rfl, rfl⟩
    obtain rfl : w₀.nextObject = id := Option.some_inj.mp ((h.lstat hentry).symm.trans hid)
    have hopen := h.openHandle w₀.nextObject
    have hopened : (w.openHandle w₀.nextObject).handles w.nextHandle = some w₀.nextObject :=
      Function.update_self _ _ _
    refine ⟨hopen.safe hlimit, ensures_sys (by simp) (hopen.safe hlimit) (fun e => ?_) ?_⟩
    · exact ⟨o, hopen, rfl, hlimit, fun hok => by simp at hok⟩
    · rintro _ _ ⟨id, hid, rfl⟩
      obtain rfl : w₀.nextObject = id := Option.some_inj.mp (hopened.symm.trans hid)
      have hchmod := hopen.chmod mode
      have hwithin : Within (mode &&& 0o7777) limit := by
        rw [Within, hmode, Words.uint32_and_again]
      exact ⟨hchmod.safe hwithin, _, hchmod, rfl, hwithin, fun _ => hmode⟩

/-- The cleanup of a directory copy leaves every name as it was. -/
theorem ensures_removeDir (hK : K.CleanupSucceeds) {named : Target} (h : Made w₀ n o w)
    (hentry : K.entry named = some n) (hkind : o.kind = .directory)
    (hlimit : Within o.mode limit) :
    (removeDir named).run.Ensures K.alone (Safe w₀ limit) (fun _ w' => Untouched w₀ w') w := by
  have hkind' : (w.objects w₀.nextObject).kind = .directory := by rw [h.object, hkind]
  obtain ⟨-, -, hremove⟩ := hK.onName w named n _ hentry h.entry h.mem
  refine ensures_cleanup (by simp [Call.isCanonicalize]) hremove
    ⟨(), _, n, _, hentry, h.entry, hkind', rfl⟩ (h.safe hlimit) ?_
  rintro _ _ ⟨n', id, hn', hid, -, rfl⟩
  obtain rfl : n = n' := Option.some_inj.mp (hentry.symm.trans hn')
  exact ⟨h.safe_remove hlimit id, h.remove id⟩

/-- A directory copy, whichever of its calls fail. -/
theorem ensures_copyDir (hK : K.CleanupSucceeds) (hw : w₀.Start) (src dst : Target) :
    Fallible.Ensures K.alone (Safe w₀ (K.dirLimit w₀ src))
      (fun result w => match result with
        | .ok _ => DirCopied K src (newName dst) w₀ w
        | .error _ => Untouched w₀ w) (copyDir src dst) w₀ := by
  have hrefl := Untouched.refl w₀
  have hsafe : Safe w₀ (K.dirLimit w₀ src) w₀ := hrefl.safe hw.made
  refine Fallible.ensures_bind (ensures_metadataAsNamed hsafe (fun _ => hrefl) fun id hid => ?_)
  simp only
  split
  · exact Fallible.ensures_throw hsafe hrefl
  · rename_i hdir
    have hkind : (w₀.objects id).kind = .directory := by simpa [Object.metadata] using hdir
    have hlimit : K.dirLimit w₀ src = ((w₀.objects id).mode &&& 0o777) ||| 0o700 := by
      rw [Kernel.dirLimit, hid]
    have hmode : ((w₀.objects id).metadata.mode &&& 0o777 &&& ~~~specialBits) ||| ownerAll =
        K.dirLimit w₀ src := by
      rw [hlimit, copied_mode (.inr hkind), UInt32.and_assoc]
      rfl
    rw [hmode]
    refine Fallible.ensures_bind (ensures_newDirectoryName hsafe (fun _ => hrefl) ?_)
    refine Fallible.ensures_bind (ensures_sys (by simp) hsafe (fun _ => hrefl) ?_)
    rintro _ _ ⟨n, dev, ino, hentry, hfree, rfl⟩
    have hmade : Made w₀ n ⟨.directory, [],
        (ownerAll &&& ~~~w₀.umask &&& 0o1777) ||| K.inherited n, dev, ino⟩
        (w₀.make n ⟨.directory, [],
          (ownerAll &&& ~~~w₀.umask &&& 0o1777) ||| K.inherited n, dev, ino⟩) :=
      made_make hfree hw.made _
    -- what the umask leaves of the owner's bits is among the final ones
    have hcreated : Within ((ownerAll &&& ~~~w₀.umask &&& 0o1777) ||| K.inherited n)
        (K.dirLimit w₀ src) := by
      rw [Within, hlimit, Words.uint32_or_and, K.inherited_special, UInt32.or_zero,
        UInt32.and_assoc ownerAll, UInt32.and_assoc ownerAll]
      exact Words.uint32_and_or_self _ _ _
    have hfinal : K.dirLimit w₀ src &&& 0o7777 = K.dirLimit w₀ src := by
      rw [hlimit, Words.uint32_or_and, UInt32.and_assoc]
      rfl
    refine ⟨hmade.safe hcreated, Fallible.ensures_bind (ensures_ofProgram
      ((ensures_chmodMade hmade hentry hcreated hfinal).mono ?_))⟩
    rintro result w' - ⟨o', ho', hkind', hwithin, hdone⟩
    cases result with
    | ok u =>
      refine Fallible.ensures_pure (ho'.safe hwithin) ⟨id, n, o', hid, hkind, hentry, ho',
        hkind', ?_⟩
      rw [hdone rfl, hlimit]
    | error e =>
      refine Fallible.ensures_bind (ensures_ofProgram
        ((ensures_removeDir hK ho' hentry hkind' hwithin).mono fun _ w'' hI huntouched => ?_))
      exact Fallible.ensures_throw hI huntouched

end TrantorCli.FsCore
