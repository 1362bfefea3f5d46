import TrantorCli.FsOps

/-!
# The slot of the working directory

Whatever is asked for and whatever the operating system answers, the slot is empty
or holds an absolute path at which there was a directory when it was stored. So a
path resolves to an absolute one or to the empty path, which names nothing.
-/

open Interaction UnixPath Roc

namespace TrantorCli.FsOps

open FsCore

/-- A call of `set_cwd!`, and what the operating system is at that time. -/
structure SetCwd where
  currentDir : Except IoError AbsPath
  root : Root
  os : Os
  path : Str

/-- The process in which the call is made. -/
def SetCwd.process (c : SetCwd) (slot : Str) : Process := ⟨slot, c.currentDir, c.root, c.os⟩

/-- The slot that a call leaves. -/
def SetCwd.leaves (slot : Str) (c : SetCwd) : Str := (setCwd (c.process slot) c.path).2.slot

/-- The slot that calls leave, from the one a process starts with. -/
def slotAfter (calls : List SetCwd) : Str := calls.foldl SetCwd.leaves ⟨[], .nil⟩

/-- The call reported that, links followed, there is a directory at `slot`. -/
def SetCwd.Reported (c : SetCwd) (slot : Str) : Prop :=
  Fallible.eval c.os (statAt c.root .root slot.bytes true) = .ok .dir

/-- The slot is empty, or it is absolute and was reported as a directory by the call that stored
it. -/
def Usable (calls : List SetCwd) (slot : Str) : Prop :=
  slot.bytes = [] ∨
    isAbsolute slot.bytes = true ∧
      ∃ before c after, calls = before ++ c :: after ∧ c.Reported slot ∧
        setCwd (c.process (slotAfter before)) c.path = (.ok (), c.process slot)

variable {s : Process}

/-! ### Resolving -/

private theorem isAbsolute_of_head? {path : PathBuf} (h : path.head? = some 47) :
    isAbsolute path = true := by
  rw [isAbsolute, h]
  rfl

private theorem head?_of_isAbsolute {path : PathBuf} (h : isAbsolute path = true) :
    path.head? = some 47 := by
  simpa [isAbsolute] using h

/-- An absolute path is not empty. -/
theorem ne_nil_of_isAbsolute {path : PathBuf} (h : isAbsolute path = true) : path ≠ [] := by
  rintro rfl
  cases h

/-- A path joined to an absolute one is absolute. -/
theorem isAbsolute_joinBytes {a : PathBuf} (ha : isAbsolute a = true) (b : PathBuf) :
    isAbsolute (joinBytes a b) = true := by
  have hhead := head?_of_isAbsolute ha
  have hne := ne_nil_of_isAbsolute ha
  apply isAbsolute_of_head?
  rw [joinBytes, List.getLast?_eq_some_getLast hne]
  simp only
  split
  · rw [List.head?_append, hhead]
    rfl
  · rw [List.head?_append, List.head?_append, hhead]
    rfl

/-- Bytes that are absolute stay so when they are read as text. -/
theorem isAbsolute_fromUtf8Lossy {path : PathBuf} (h : isAbsolute path = true) :
    isAbsolute (Str.fromUtf8Lossy path).bytes = true := by
  cases path with
  | nil => cases h
  | cons byte rest =>
    obtain rfl : byte = 47 := by simpa using head?_of_isAbsolute h
    exact isAbsolute_of_head? (Utf8.head?_encode_lossy (by decide) rest)

/-- What a working directory is, when there is one. -/
theorem cwd_cases (hslot : s.slot.bytes = [] ∨ isAbsolute s.slot.bytes = true) :
    (∃ dir, cwd s = .ok dir ∧ isAbsolute dir = true ∧
      ¬(s.slot.bytes = [] ∧ ∃ e, s.currentDir = .error e)) ∨
    (cwd s = .error .cwdUnavailable ∧ s.slot.bytes = [] ∧ ∃ e, s.currentDir = .error e) := by
  by_cases hempty : s.slot.bytes = []
  · cases hdir : s.currentDir with
    | ok dir => exact .inl ⟨dir.bytes, cwd_of_process hempty hdir, dir.absolute, by simp⟩
    | error e =>
      refine .inr ⟨?_, hempty, e, rfl⟩
      rw [cwd, if_pos (by simpa using hempty), cliEnvCwd, hdir]
      rfl
  · exact .inl ⟨s.slot.bytes, cwd_of_slot hempty, hslot.resolve_left hempty, fun h => hempty h.1⟩

private theorem resolve_of_isAbsolute {path : PathBuf} (h : isAbsolute path = true) (s : Process) :
    resolve s path = path := by
  rw [resolve, h]
  rfl

/-- What a path resolves to. -/
theorem resolve_cases (hslot : s.slot.bytes = [] ∨ isAbsolute s.slot.bytes = true)
    (path : PathBuf) :
    (isAbsolute (resolve s path) = true ∧ path ≠ [] ∧
      ¬(isAbsolute path = false ∧ s.slot.bytes = [] ∧ ∃ e, s.currentDir = .error e)) ∨
    (resolve s path = [] ∧
      (path = [] ∨ isAbsolute path = false ∧ s.slot.bytes = [] ∧
        ∃ e, s.currentDir = .error e)) := by
  cases habs : isAbsolute path with
  | true =>
    exact .inl ⟨by rw [resolve_of_isAbsolute habs, habs], ne_nil_of_isAbsolute habs, by simp⟩
  | false =>
    by_cases hnil : path = []
    · subst hnil
      exact .inr ⟨rfl, .inl rfl⟩
    · obtain ⟨dir, hcwd, hdir, hnot⟩ | ⟨hcwd, hnone⟩ := cwd_cases hslot
      · rw [resolve_of_relative hnil habs hcwd]
        exact .inl ⟨isAbsolute_joinBytes hdir path, hnil, fun h => hnot h.2⟩
      · refine .inr ⟨?_, .inr ⟨rfl, hnone⟩⟩
        rw [resolve, habs, hcwd, if_neg (by simpa using hnil)]

/-- A resolved path resolves to itself, whatever the process is by then. -/
theorem resolve_resolve (hslot : s.slot.bytes = [] ∨ isAbsolute s.slot.bytes = true)
    (path : PathBuf) (s' : Process) : resolve s' (resolve s path) = resolve s path := by
  obtain ⟨habs, -⟩ | ⟨hnil, -⟩ := resolve_cases hslot path
  · exact resolve_of_isAbsolute habs s'
  · rw [hnil]
    rfl

/-! ### One call -/

/-- A call stores an absolute path at which it was told there is a directory, or fails and leaves
everything as it was. -/
theorem setCwd_cases (hslot : s.slot.bytes = [] ∨ isAbsolute s.slot.bytes = true) (text : Str) :
    (∃ slot : Str, setCwd s text = (.ok (), { s with slot := slot }) ∧
      isAbsolute slot.bytes = true ∧
      Fallible.eval s.os (statAt s.root .root slot.bytes true) = .ok .dir) ∨
    ∃ e, setCwd s text = (.error e, s) := by
  obtain ⟨slot, hlossy⟩ : ∃ slot, Str.fromUtf8Lossy (resolve s text.bytes) = slot := ⟨_, rfl⟩
  cases hkind : followedKind s slot.bytes with
  | error e => exact .inr ⟨e, by simp only [setCwd, Str.toUtf8_eq, hlossy, hkind]⟩
  | ok kind =>
    by_cases hdir : kind = .dir
    · subst hdir
      have habs : isAbsolute slot.bytes = true := by
        obtain ⟨habs, -⟩ | ⟨hnil, -⟩ := resolve_cases hslot text.bytes
        · rw [← hlossy]
          exact isAbsolute_fromUtf8Lossy habs
        · -- Nothing is at the empty path, so it was not taken for a directory.
          have hempty : slot.bytes = [] := by
            rw [← hlossy, hnil]
            simp [Str.fromUtf8Lossy, Utf8.lossy]
          rw [hempty] at hkind
          exact absurd hkind (followedKind_nil s)
      refine .inl ⟨slot, by simp only [setCwd, Str.toUtf8_eq, hlossy, hkind], habs, ?_⟩
      rw [followedKind, resolve_of_isAbsolute habs] at hkind
      exact hkind
    · exact .inr ⟨.notADirectory, by simp only [setCwd, Str.toUtf8_eq, hlossy, hkind]⟩

/-! ### Every sequence of calls -/

private theorem slotAfter_append (calls : List SetCwd) (c : SetCwd) :
    slotAfter (calls ++ [c]) = c.leaves (slotAfter calls) := by
  rw [slotAfter, List.foldl_append]
  rfl

/-- What was usable stays so when a later call leaves it. -/
theorem Usable.append {calls : List SetCwd} {slot : Str} (h : Usable calls slot) (c : SetCwd) :
    Usable (calls ++ [c]) slot := by
  obtain hempty | ⟨habs, before, c', after, hcalls, hreported, hstored⟩ := h
  · exact .inl hempty
  · exact .inr ⟨habs, before, c', after ++ [c], by simp [hcalls], hreported, hstored⟩

private theorem usable_slotAfter (calls : List SetCwd) : Usable calls (slotAfter calls) := by
  induction calls using List.reverseRecOn with
  | nil => exact .inl rfl
  | append_singleton calls c ih =>
    have hslot : (c.process (slotAfter calls)).slot.bytes = [] ∨
        isAbsolute (c.process (slotAfter calls)).slot.bytes = true :=
      ih.imp_right fun h => h.1
    rw [slotAfter_append, SetCwd.leaves]
    obtain ⟨slot, hset, habs, hreported⟩ | ⟨e, hset⟩ := setCwd_cases hslot c.path
    · rw [hset]
      exact .inr ⟨habs, calls, c, [], rfl, hreported, hset⟩
    · rw [hset]
      exact ih.append c

/-- After any calls of `set_cwd!`, with any arguments and whatever the operating system answered:
the slot is usable, a call that fails leaves it, and a path resolves to an absolute one, or to the
empty one exactly when it is empty or is relative while there is no working directory. Absolute
paths and resolved ones are left alone. -/
theorem slot_usable (calls : List SetCwd) :
    Usable calls (slotAfter calls) ∧
    (∀ (c : SetCwd) (e : IOErr), (setCwd (c.process (slotAfter calls)) c.path).1 = .error e →
      c.leaves (slotAfter calls) = slotAfter calls) ∧
    ∀ s : Process, s.slot = slotAfter calls → ∀ path,
      (isAbsolute (resolve s path) = true ∨ resolve s path = []) ∧
      (resolve s path = [] ↔ path = [] ∨
        isAbsolute path = false ∧ s.slot.bytes = [] ∧ ∃ e, s.currentDir = .error e) ∧
      (isAbsolute path = true → resolve s path = path) ∧
      ∀ s', resolve s' (resolve s path) = resolve s path := by
  have husable := usable_slotAfter calls
  have hslot : (slotAfter calls).bytes = [] ∨ isAbsolute (slotAfter calls).bytes = true :=
    husable.imp_right fun h => h.1
  refine ⟨husable, fun c e he => ?_, fun s hs path => ?_⟩
  · rw [SetCwd.leaves]
    obtain ⟨slot, hset, -⟩ | ⟨e', hset⟩ :=
      setCwd_cases (s := c.process (slotAfter calls)) hslot c.path
    · rw [hset] at he
      cases he
    · rw [hset]
      rfl
  · rw [← hs] at hslot
    refine ⟨?_, ?_, fun habs => resolve_of_isAbsolute habs s, resolve_resolve hslot path⟩
    · obtain ⟨habs, -⟩ | ⟨hnil, -⟩ := resolve_cases hslot path
      · exact .inl habs
      · exact .inr hnil
    · obtain ⟨habs, hne, hnot⟩ | ⟨hnil, hwhy⟩ := resolve_cases hslot path
      · refine iff_of_false (ne_nil_of_isAbsolute habs) ?_
        rintro (hpath | hpath)
        · exact hne hpath
        · exact hnot hpath
      · exact iff_of_true hnil hwhy

end TrantorCli.FsOps
