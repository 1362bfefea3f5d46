import TrantorCli.FsCore.CopyRules

/-!
# Runs of a file copy

A file copy that fails after it has made its file takes it off again, and one
that succeeds has filled it and set its mode. Until then the file's mode is the
one it was created with, which the umask can only narrow.
-/

open Interaction UnixPath

namespace TrantorCli.FsCore

variable {Name : Type} [DecidableEq Name] {K : Kernel Name} {I : World Name → Prop}
  {w₀ w : World Name} {n : Name} {o : Object} {limit : UInt32}

omit [DecidableEq Name] in
/-- The permission bits of the object that `src` leads to. -/
def Kernel.fileLimit (K : Kernel Name) (w₀ : World Name) (src : Target) : UInt32 :=
  match K.follow w₀ src with
  | some id => (w₀.objects id).mode &&& 0o777
  | none => 0

/-- The destination is a new regular file with the source's bytes and permission bits, and nothing
else has changed. -/
structure FileCopied (K : Kernel Name) (src dst : Target) (w₀ w : World Name) : Prop where
  intro ::
  copied : ∃ id n o, K.follow w₀ src = some id ∧ (w₀.objects id).kind = .regular ∧
    K.entry dst = some n ∧ Made w₀ n o w ∧ o.kind = .regular ∧
    o.contents = (w₀.objects id).contents ∧ o.mode = (w₀.objects id).mode &&& 0o777

/-- The state in the middle of a file copy: the source and the new file are open. -/
structure Copying (w₀ : World Name) (n : Name) (o : Object) (src : Nat) (w : World Name) : Prop
    extends Made w₀ n o w where
  source : w.handles w₀.nextHandle = some src
  created : w.handles (w₀.nextHandle + 1) = some w₀.nextObject

/-- The file is created with the source open. -/
theorem copying_make {id : Nat} (hw : w₀.Start) (hfree : w₀.entries n = none) (o : Object) :
    Copying w₀ n o id (((w₀.openHandle id).make n o).openHandle w₀.nextObject) := by
  have hmade : Made w₀ n o (w₀.make n o) := made_make hfree hw.made o
  refine ⟨⟨hmade.free, hmade.entries, hmade.object, hmade.objects, hmade.made⟩, ?_,
    Function.update_self _ _ _⟩
  have hsource : (w₀.openHandle id).handles w₀.nextHandle = some id := Function.update_self _ _ _
  exact (Function.update_of_ne (Nat.ne_of_lt (Nat.lt_succ_self _)) _ _).trans hsource

private theorem Copying.change {src : Nat} (h : Copying w₀ n o src w) (o' : Object) :
    Copying w₀ n o' src (w.change w₀.nextObject o') :=
  ⟨h.toMade.change o', h.source, h.created⟩

private theorem Copying.chmod {src : Nat} (h : Copying w₀ n o src w) (mode : UInt32) :
    Copying w₀ n { o with mode := mode &&& 0o7777 } src (w.chmod w₀.nextObject mode) :=
  ⟨h.toMade.chmod mode, h.source, h.created⟩

/-- Writing at the end of the new file. -/
theorem Copying.append {src : Nat} (h : Copying w₀ n o src w) (data : List UInt8) :
    Copying w₀ n { o with contents := o.contents ++ data } src (w.append w₀.nextObject data) := by
  rw [World.append, h.object]
  exact h.change _

/-- Creating the destination makes a regular file with at most the given mode, or changes
nothing. -/
theorem ensures_createDestination {dst : Target} {mode : UInt32}
    {Q : Except IoError Handle → World Name → Prop} (hI : I w) (herror : ∀ e, Q (.error e) w)
    (hmade : ∀ m dev ino, K.entry dst = some m → w.entries m = none →
      I ((w.make m ⟨.regular, [], mode &&& ~~~w.umask &&& 0o7777, dev, ino⟩).openHandle
          w.nextObject) ∧
        Q (.ok w.nextHandle)
          ((w.make m ⟨.regular, [], mode &&& ~~~w.umask &&& 0o7777, dev, ino⟩).openHandle
            w.nextObject)) :
    Fallible.Ensures K.alone I Q (createDestination dst mode) w := by
  cases dst with
  | ambient path =>
    refine ensures_sys (by simp) hI herror ?_
    rintro _ _ ⟨m, dev, ino, hentry, hfree, rfl, rfl⟩
    exact hmade m dev ino hentry hfree
  | beneath path =>
    refine Fallible.ensures_bind (ensures_ofProgram (ensures_sys (by simp) hI ?_ ?_))
    · exact fun e => Fallible.ensures_throw hI (herror _)
    · rintro _ _ ⟨m, dev, ino, hentry, hfree, rfl, rfl⟩
      obtain ⟨hI', hQ⟩ := hmade m dev ino hentry hfree
      exact ⟨hI', Fallible.ensures_pure hI' hQ⟩

/-- Copying data writes all of the source to the new file, or fails after a part of it. -/
theorem ensures_copyData {src : Nat} (h : Copying w₀ n o src w) (hsrc : src < w₀.nextObject)
    (hlimit : Within o.mode limit) {Q : Except IoError Unit → World Name → Prop}
    (herror : ∀ e part w', Copying w₀ n { o with contents := o.contents ++ part } src w' →
      Q (.error e) w')
    (hok : ∀ w',
      Copying w₀ n { o with contents := o.contents ++ (w₀.objects src).contents } src w' →
        Q (.ok ()) w') :
    Fallible.Ensures K.alone (Safe w₀ limit) Q (copyData w₀.nextHandle (w₀.nextHandle + 1)) w := by
  refine Fallible.ensures_ask (h.safe hlimit) fun answer w' hperform => ?_
  cases answer with
  | error e =>
    rcases hperform.2 with rfl | ⟨read, written, part, -, hwritten, -, rfl⟩
    · exact ⟨h.safe hlimit, herror e [] w' (by rw [List.append_nil]; exact h)⟩
    · obtain rfl : w₀.nextObject = written := Option.some_inj.mp (h.created.symm.trans hwritten)
      have happend := h.append part
      exact ⟨happend.safe hlimit, herror e part _ happend⟩
  | ok _ =>
    obtain ⟨read, written, hread, hwritten, rfl⟩ := hperform
    obtain rfl : w₀.nextObject = written := Option.some_inj.mp (h.created.symm.trans hwritten)
    obtain rfl : src = read := Option.some_inj.mp (h.source.symm.trans hread)
    have happend := h.append (w.objects src).contents
    rw [h.objects src hsrc] at happend ⊢
    exact ⟨happend.safe hlimit, hok _ happend⟩

/-- Filling the new file and setting its mode. -/
theorem ensures_copyContents {src : Nat} (h : Copying w₀ n o src w) (hsrc : src < w₀.nextObject)
    (hlimit : Within o.mode limit) :
    Fallible.Ensures K.alone (Safe w₀ limit)
      (fun result w' => ∃ o', Copying w₀ n o' src w' ∧ o'.kind = o.kind ∧ Within o'.mode limit ∧
        (result = .ok () → o'.contents = o.contents ++ (w₀.objects src).contents ∧
          o'.mode = limit &&& 0o7777))
      (copyContents w₀.nextHandle (w₀.nextHandle + 1) limit) w := by
  refine Fallible.ensures_bind (ensures_copyData h hsrc hlimit ?_ ?_)
  · intro e part w₁ hpart
    exact ⟨_, hpart, rfl, hlimit, fun hok => by simp at hok⟩
  · intro w₁ hfilled
    refine ensures_sys (by simp) (hfilled.safe hlimit) (fun e => ?_) ?_
    · exact ⟨_, hfilled, rfl, hlimit, fun hok => by simp at hok⟩
    · rintro _ _ ⟨id, hid, rfl⟩
      obtain rfl : w₀.nextObject = id := Option.some_inj.mp (hfilled.created.symm.trans hid)
      have hdone := hfilled.chmod limit
      have hwithin : Within (limit &&& 0o7777) limit := within_and _ _
      exact ⟨hdone.safe hwithin, _, hdone, rfl, hwithin, fun _ => ⟨rfl, rfl⟩⟩

/-- The cleanup of a file copy leaves every name as it was. -/
theorem ensures_removeIfSame (hK : K.CleanupSucceeds) {src : Nat} {dst : Target}
    (h : Copying w₀ n o src w) (hentry : K.entry dst = some n) (hkind : o.kind = .regular)
    (hlimit : Within o.mode limit) :
    (removeIfSame dst (w₀.nextHandle + 1)).Ensures K.alone (Safe w₀ limit)
      (fun _ w' => Untouched w₀ w') w := by
  have hsafe : Safe w₀ limit w := h.safe hlimit
  have hlstat : K.lstat w dst = some w₀.nextObject := h.lstat hentry
  have hkind' : (w.objects w₀.nextObject).kind ≠ .directory := by
    rw [h.object, hkind]
    decide
  obtain ⟨hstat, hremove, -⟩ := hK.onName w dst n _ hentry h.entry h.mem
  -- `fstat` answers for the new file
  refine Program.Ensures.bind (ensures_cleanup (by simp [Call.isCanonicalize])
    (hK.fileMetadata w _ _ h.created h.mem) ⟨_, w, _, h.created, rfl, rfl⟩ hsafe ?_)
  rintro _ _ ⟨id, hid, rfl, rfl⟩
  obtain rfl : w₀.nextObject = id := Option.some_inj.mp (h.created.symm.trans hid)
  refine ⟨hsafe, ?_⟩
  -- the name still holds it
  refine Program.Ensures.bind (ensures_cleanup (by simp [Call.isCanonicalize]) hstat
    ⟨_, _, _, hlstat, rfl, rfl⟩ hsafe ?_)
  rintro _ _ ⟨id, hid, rfl, rfl⟩
  obtain rfl : w₀.nextObject = id := Option.some_inj.mp (hlstat.symm.trans hid)
  refine ⟨hsafe, ?_⟩
  simp only
  rw [if_pos trivial]
  -- so it is unlinked
  refine Program.Ensures.bind (ensures_cleanup (by simp [Call.isCanonicalize]) hremove
    ⟨(), _, n, _, hentry, h.entry, hkind', rfl⟩ hsafe ?_)
  rintro _ _ ⟨n', id, hn', hid, -, rfl⟩
  obtain rfl : n = n' := Option.some_inj.mp (hentry.symm.trans hn')
  have hremoved : Safe w₀ limit (World.remove _ n id) := h.safe_remove hlimit id
  exact ⟨hremoved, hremoved, h.remove id⟩

/-- A file copy, whichever of its calls fail. -/
theorem ensures_copyFile (hK : K.CleanupSucceeds) (hw : w₀.Start) (src dst : Target) :
    Fallible.Ensures K.alone (Safe w₀ (K.fileLimit w₀ src))
      (fun result w => match result with
        | .ok _ => FileCopied K src dst w₀ w
        | .error _ => Untouched w₀ w) (copyFile src dst) w₀ := by
  have hrefl := Untouched.refl w₀
  refine Fallible.ensures_bind (ensures_sys (by simp) (hrefl.safe hw.made) (fun _ => hrefl) ?_)
  rintro _ _ ⟨id, hfollow, rfl, rfl⟩
  have hopen : Untouched w₀ (w₀.openHandle id) := ⟨rfl, fun _ _ => rfl⟩
  have hsafe : Safe w₀ (K.fileLimit w₀ src) (w₀.openHandle id) := hopen.safe hw.made
  have hsource : (w₀.openHandle id).handles w₀.nextHandle = some id := Function.update_self _ _ _
  refine ⟨hsafe, Fallible.ensures_bind (ensures_sys (by simp) hsafe (fun _ => hopen) ?_)⟩
  rintro _ _ ⟨id', hid', rfl, rfl⟩
  obtain rfl : id = id' := Option.some_inj.mp (hsource.symm.trans hid')
  refine ⟨hsafe, ?_⟩
  simp only
  split
  · exact Fallible.ensures_throw hsafe hopen
  · rename_i hfile
    have hkind : (w₀.objects id).kind = .regular := by
      simpa [Object.metadata, World.openHandle] using hfile
    have hlimit : K.fileLimit w₀ src = (w₀.objects id).mode &&& 0o777 := by
      rw [Kernel.fileLimit, hfollow]
    have hmode : ((w₀.openHandle id).objects id).metadata.mode &&& ~~~specialBits &&& 0o7777 =
        K.fileLimit w₀ src := by
      rw [hlimit, ← copied_mode (.inl hkind), UInt32.and_assoc]
      rfl
    rw [hmode]
    refine Fallible.ensures_bind (ensures_createDestination hsafe (fun _ => hopen) ?_)
    intro n dev ino hentry hfree
    have hcopying : Copying w₀ n
        ⟨.regular, [], K.fileLimit w₀ src &&& ~~~w₀.umask &&& 0o7777, dev, ino⟩ id
        (((w₀.openHandle id).make n ⟨.regular, [],
          K.fileLimit w₀ src &&& ~~~w₀.umask &&& 0o7777, dev, ino⟩).openHandle w₀.nextObject) :=
      copying_make hw hfree _
    -- the umask only takes bits away
    have hcreated : Within (K.fileLimit w₀ src &&& ~~~w₀.umask &&& 0o7777)
        (K.fileLimit w₀ src) := by
      rw [UInt32.and_assoc]
      exact within_and _ _
    refine ⟨hcopying.safe hcreated, ?_⟩
    simp only
    refine Fallible.ensures_bind (ensures_ofProgram
      ((ensures_copyContents hcopying (K.follow_known _ _ _ hfollow) hcreated).mono ?_))
    rintro result w' - ⟨o', ho', hkind', hwithin, hdone⟩
    cases result with
    | ok u =>
      obtain ⟨hcontents, hmode'⟩ := hdone rfl
      refine Fallible.ensures_pure (ho'.safe hwithin) ⟨id, n, o', hfollow, hkind, hentry,
        ho'.toMade, hkind', hcontents, ?_⟩
      rw [hmode', hlimit, UInt32.and_assoc]
      rfl
    | error e =>
      refine Fallible.ensures_bind (ensures_ofProgram
        ((ensures_removeIfSame hK ho' hentry hkind' hwithin).mono fun _ w'' hI huntouched => ?_))
      exact Fallible.ensures_throw hI huntouched

end TrantorCli.FsCore
