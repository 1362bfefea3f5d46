import TrantorCli.FsCore.CopyRace
import TrantorCli.Lib.Words

/-!
# What the calls of a copy leave

With nobody else acting, a call that fails changes nothing, and one that
succeeds changes only what the copy has made. The rules below say so for each
call a copy makes, in the form the copies are put together from.
-/

open Interaction UnixPath

namespace TrantorCli.FsCore

variable {Name : Type}

/-- The permission bits of `mode` are among those of `limit`. -/
def Within (mode limit : UInt32) : Prop := mode &&& 0o777 &&& limit = mode &&& 0o777

/-- The calls that a cleanup makes on what the program has made do not fail. -/
structure Kernel.CleanupSucceeds (K : Kernel Name) : Prop where
  fileMetadata : ∀ w file id, w.handles file = some id → id ∈ w.made →
    ¬K.mayFail (.fileMetadata file) w
  onName : ∀ w tg n id, K.entry tg = some n → w.entries n = some id → id ∈ w.made →
    ¬K.mayFail (.symlinkMetadata tg) w ∧ ¬K.mayFail (.removeFile tg) w ∧
      ¬K.mayFail (.removeDir tg) w

/-- Every name holds the same object, with the same contents and mode. -/
structure Untouched (w₀ w : World Name) : Prop where
  entries : w.entries = w₀.entries
  objects : ∀ id, id < w₀.nextObject → w.objects id = w₀.objects id

/-- Every name that held something holds the same object, with the same contents and mode. -/
structure Kept (w₀ w : World Name) : Prop where
  entries : ∀ n id, w₀.entries n = some id → w.entries n = some id
  objects : ∀ id, id < w₀.nextObject → w.objects id = w₀.objects id

/-- What holds at every step of a copy: nothing there before is touched, and the one object that is
made has no permission bits beyond `limit`. -/
structure Safe (w₀ : World Name) (limit : UInt32) (w : World Name) : Prop extends Kept w₀ w where
  made : ∀ id ∈ w.made, id = w₀.nextObject
  within : ∀ id ∈ w.made, Within (w.objects id).mode limit

variable {w₀ w : World Name} {n : Name} {o : Object} {limit : UInt32}

/-- Masking takes no bit from outside. -/
theorem within_and (limit mask : UInt32) : Within (limit &&& mask) limit := by
  rw [Within, UInt32.and_assoc limit, Words.uint32_and_again]

/-- What is as it was is untouched. -/
theorem Untouched.refl (w : World Name) : Untouched w w := ⟨rfl, fun _ _ => rfl⟩

/-- What is untouched is kept. -/
theorem Untouched.kept (h : Untouched w₀ w) : Kept w₀ w :=
  ⟨fun n id hid => by rw [h.entries, hid], h.objects⟩

/-- Nothing is wrong while nothing has been made. -/
theorem Untouched.safe (h : Untouched w₀ w) (hmade : w.made = []) : Safe w₀ limit w :=
  ⟨h.kept, by simp [hmade], by simp [hmade]⟩

variable [DecidableEq Name]

/-- The object `o` has been made at the entry `n`, and nothing else has changed. -/
structure Made (w₀ : World Name) (n : Name) (o : Object) (w : World Name) : Prop where
  free : w₀.entries n = none
  entries : w.entries = Function.update w₀.entries n (some w₀.nextObject)
  object : w.objects w₀.nextObject = o
  objects : ∀ id, id < w₀.nextObject → w.objects id = w₀.objects id
  made : w.made = [w₀.nextObject]

/-- Making an object at a free entry, when nothing has been made yet. -/
theorem made_make (hfree : w.entries n = none) (hmade : w.made = []) (o : Object) :
    Made w n o (w.make n o) :=
  ⟨hfree, rfl, Function.update_self _ _ _,
    fun _ hid => Function.update_of_ne (Nat.ne_of_lt hid) _ _, congrArg (w.nextObject :: ·) hmade⟩

/-- An object of narrow mode is safe to have been made. -/
theorem Made.safe (h : Made w₀ n o w) (hlimit : Within o.mode limit) : Safe w₀ limit w := by
  refine ⟨⟨fun m id hid => ?_, h.objects⟩, by simp [h.made], fun id hid => ?_⟩
  · have hne : m ≠ n := by
      rintro rfl
      exact absurd (h.free.symm.trans hid) (by simp)
    rw [h.entries, Function.update_of_ne hne, hid]
  · rw [h.made, List.mem_singleton] at hid
    rw [hid, h.object]
    exact hlimit

/-- The name leads to the object that was made. -/
theorem Made.entry (h : Made w₀ n o w) : w.entries n = some w₀.nextObject := by
  rw [h.entries, Function.update_self]

/-- The object that was made is on record. -/
theorem Made.mem (h : Made w₀ n o w) : w₀.nextObject ∈ w.made := by
  rw [h.made]
  exact List.mem_singleton_self _

/-- A change of the object just made. -/
theorem Made.change (h : Made w₀ n o w) (o' : Object) :
    Made w₀ n o' (w.change w₀.nextObject o') := by
  refine ⟨h.free, h.entries, Function.update_self _ _ _, fun id hid => ?_, h.made⟩
  exact (Function.update_of_ne (Nat.ne_of_lt hid) _ _).trans (h.objects id hid)

/-- Opening changes no name and no object. -/
theorem Made.openHandle (h : Made w₀ n o w) (id : Nat) : Made w₀ n o (w.openHandle id) :=
  ⟨h.free, h.entries, h.object, h.objects, h.made⟩

/-- A change of mode leaves it the object that was made. -/
theorem Made.chmod (h : Made w₀ n o w) (mode : UInt32) :
    Made w₀ n { o with mode := mode &&& 0o7777 } (w.chmod w₀.nextObject mode) := by
  have hchange := h.change { o with mode := mode &&& 0o7777 }
  rw [← h.object] at hchange ⊢
  exact ⟨hchange.free, hchange.entries, hchange.object, hchange.objects, hchange.made⟩

/-- Taking off what was made leaves nothing. -/
theorem Made.remove (h : Made w₀ n o w) (id : Nat) : Untouched w₀ (w.remove n id) := by
  refine ⟨?_, h.objects⟩
  have hentries : (w.remove n id).entries = Function.update w.entries n none := rfl
  rw [hentries, h.entries, Function.update_idem, ← h.free, Function.update_eq_self]

/-- What was taken off is as safe as what was made. -/
theorem Made.safe_remove (h : Made w₀ n o w) (hlimit : Within o.mode limit) (id : Nat) :
    Safe w₀ limit (w.remove n id) :=
  ⟨(h.remove id).kept, (h.safe hlimit).made, (h.safe hlimit).within⟩

/-- The name of what was made holds it. -/
theorem Made.lstat {K : Kernel Name} {tg : Target} (h : Made w₀ n o w)
    (hentry : K.entry tg = some n) : K.lstat w tg = some w₀.nextObject := by
  rw [Kernel.lstat, hentry]
  exact h.entry

/-- Before, the name of what was made held nothing. -/
theorem Made.lstat_before {K : Kernel Name} {tg : Target} (h : Made w₀ n o w)
    (hentry : K.entry tg = some n) : K.lstat w₀ tg = none := by
  rw [Kernel.lstat, hentry]
  exact h.free

/-- The mode `copy_file` and `copy_dir` read off their source. -/
theorem copied_mode {o : Object} (h : o.kind = .regular ∨ o.kind = .directory) :
    o.metadata.mode &&& 0o777 = o.mode &&& 0o777 := by
  have hformat : o.kind.format &&& 0o777 = 0 := by
    rcases h with h | h <;> rw [h] <;> decide
  rw [Object.metadata, Words.uint32_or_and, hformat, UInt32.zero_or]

/-! ### Rules for the calls -/

variable {K : Kernel Name} {I : World Name → Prop}

/-- A kernel without others is alone. -/
theorem alone_alone (K : Kernel Name) : K.alone.Alone := fun _ _ h => h

/-- What a program ensures, it ensures as one that cannot fail. -/
theorem ensures_ofProgram {α : Type} {p : Program Call Answer α}
    {Q : Except IoError α → World Name → Prop}
    (h : p.Ensures K.alone I (fun a w' => Q (.ok a) w') w) :
    Fallible.Ensures K.alone I Q (Sys.ofProgram p) w :=
  Program.Ensures.bind (h.mono fun _ _ hI hQ => ⟨hI, hQ⟩)

/-- What an operation ensures, its report ensures. -/
theorem ensures_dirUnit {p : Sys Unit} {Q : Except IOErr Unit → World Name → Prop}
    (h : Fallible.Ensures K.alone I (fun result w' => Q (result.mapError ioerr) w') p w) :
    Fallible.Ensures K.alone I Q (dirUnit p) w :=
  Program.Ensures.bind (h.mono fun _ _ hI hQ => ⟨hI, hQ⟩)

/-- A call that copies no data either fails and changes nothing, or succeeds. -/
theorem ensures_sys {c : Call} {Q : Except IoError (Reply c) → World Name → Prop}
    (hc : ∀ src dst, c ≠ .copyData src dst) (hI : I w) (herror : ∀ e, Q (.error e) w)
    (hok : ∀ reply w', K.success c w reply w' → I w' ∧ Q (.ok reply) w') :
    Fallible.Ensures K.alone I Q (sys c) w := by
  refine Fallible.ensures_ask hI fun answer w' hperform => ?_
  cases answer with
  | error e =>
    obtain rfl : w' = w := Kernel.eq_of_failure hc hperform
    exact ⟨hI, herror e⟩
  | ok reply => exact hok reply w' hperform

/-- A call that may not fail and can succeed does. -/
theorem success_of_perform {c : Call} {answer : Answer c} {w' : World Name}
    (hc : ¬c.isCanonicalize) (hmay : ¬K.mayFail c w) (hcan : ∃ reply w', K.success c w reply w')
    (hperform : K.perform c w answer w') :
    ∃ reply, answer = .ok reply ∧ K.success c w reply w' := by
  cases answer with
  | ok reply => exact ⟨reply, rfl, hperform⟩
  | error e =>
    have hfail : K.mayFail c w ∨ ¬∃ reply w', K.success c w reply w' := by
      cases c with
      | canonicalize path => exact absurd trivial hc
      | _ => exact hperform.1
    exact absurd hfail (by simp [hmay, hcan])

/-- A call of a cleanup succeeds. -/
theorem ensures_cleanup {c : Call} {Q : Answer c → World Name → Prop} (hc : ¬c.isCanonicalize)
    (hmay : ¬K.mayFail c w) (hcan : ∃ reply w', K.success c w reply w') (hI : I w)
    (hok : ∀ reply w', K.success c w reply w' → I w' ∧ Q (.ok reply) w') :
    (sys c).run.Ensures K.alone I Q w := by
  refine ⟨hI, fun answer w' hperform => ?_⟩
  obtain ⟨reply, rfl, hsuccess⟩ := success_of_perform hc hmay hcan hperform
  exact hok reply w' hsuccess

/-- A program that only asks for canonical paths has one result and changes nothing. -/
theorem ensures_canonicalize {α : Type} {p : Program Call Answer α} {Q : α → World Name → Prop}
    (hp : p.OnlyCalls Call.isCanonicalize) (hI : I w) (hQ : Q (p.eval (K.os w)) w) :
    p.Ensures K.alone I Q w := by
  induction p with
  | done a => exact ⟨hI, hQ⟩
  | call c next ih =>
    cases c with
    | canonicalize path =>
      refine ⟨hI, fun reply w' hperform => ?_⟩
      have hsame : K.canonicalize w path = reply ∧ w' = w := by
        cases reply with
        | ok base => exact hperform
        | error e => exact hperform
      obtain ⟨rfl, rfl⟩ := hsame
      exact ih _ (hp.2 _) hQ
    | _ => exact hp.1.elim

/-- Resolving a path changes nothing and answers as the kernel does. -/
theorem ensures_resolve {r : Root} {dir path : PathBuf}
    {Q : Except IoError Target → World Name → Prop}
    (hI : I w) (hQ : Q (Fallible.eval (K.os w) (resolve r dir path)) w) :
    Fallible.Ensures K.alone I Q (resolve r dir path) w :=
  ensures_canonicalize (onlyCalls_resolve r dir path) hI hQ

/-- Following a name changes nothing. -/
theorem ensures_metadata {tg : Target} {Q : Except IoError Metadata → World Name → Prop}
    (hI : I w) (herror : ∀ e, Q (.error e) w)
    (hok : ∀ id, K.follow w tg = some id → Q (.ok (w.objects id).metadata) w) :
    Fallible.Ensures K.alone I Q (metadata tg) w := by
  refine ensures_sys (by simp) hI herror ?_
  rintro _ _ ⟨id, hid, rfl, rfl⟩
  exact ⟨hI, hok id hid⟩

/-- Looking at a name changes nothing. -/
theorem ensures_symlinkMetadata {tg : Target} {Q : Except IoError Metadata → World Name → Prop}
    (hI : I w) (herror : ∀ e, Q (.error e) w)
    (hok : ∀ id, K.lstat w tg = some id → Q (.ok (w.objects id).metadata) w) :
    Fallible.Ensures K.alone I Q (symlinkMetadata tg) w := by
  refine ensures_sys (by simp) hI herror ?_
  rintro _ _ ⟨id, hid, rfl, rfl⟩
  exact ⟨hI, hok id hid⟩

end TrantorCli.FsCore
