import Mathlib.Logic.Function.Basic
import TrantorCli.FsCore.Basic
import TrantorCli.Lib.Interaction.Run

/-!
# A kernel for the system calls

The namespace is a map from names to objects. Objects have identities that are
never used twice; what was made, changed in mode and removed by the program is
kept in the state, to be talked about. Any call may fail, and then changes
nothing, but for a copy of data, which may have written a part.
-/

open Interaction UnixPath

namespace TrantorCli.FsCore

/-- The kinds of objects. -/
inductive Kind where
  | regular
  | directory
  | symlink
  /-- A FIFO, socket or device. -/
  | special
  deriving DecidableEq, Repr

/-- The bits of `st_mode` that tell the kind. -/
def Kind.format : Kind → UInt32
  | .regular => 0o100000
  | .directory => 0o040000
  | .symlink => 0o120000
  | .special => 0o010000

/-- A file, directory or link. -/
structure Object where
  kind : Kind
  contents : List UInt8
  /-- The permission bits and the special bits. -/
  mode : UInt32
  dev : UInt64
  ino : UInt64
  deriving DecidableEq, Repr

/-- What `stat` tells of an object. -/
def Object.metadata (o : Object) : Metadata :=
  ⟨o.kind == .directory, o.kind == .regular, o.kind == .symlink, o.kind.format ||| o.mode, o.dev,
    o.ino⟩

/-- The state of the filesystem and of the program's open files. -/
structure World (Name : Type) where
  entries : Name → Option Nat
  objects : Nat → Object
  /-- The identity of the next object to be made. -/
  nextObject : Nat
  handles : Handle → Option Nat
  nextHandle : Handle
  umask : UInt32
  /-- The objects the program made. -/
  made : List Nat
  /-- The objects whose mode the program changed. -/
  chmodded : List Nat
  /-- The objects the program removed. -/
  removed : List Nat

/-- What a kernel does beyond keeping the state: how it walks paths, and when it fails. -/
structure Kernel (Name : Type) where
  /-- The entry a path spells, unless it ends in a slash, `.` or `..` or cannot be walked. -/
  entry : Target → Option Name
  /-- The object a path leads to, links followed. -/
  follow : World Name → Target → Option Nat
  follow_known : ∀ w tg id, follow w tg = some id → id < w.nextObject
  canonicalize : World Name → PathBuf → Except IoError PlainPath
  /-- A call that could succeed fails. -/
  mayFail : Call → World Name → Prop
  /-- The special bits a directory takes over from the one it is made in. -/
  inherited : Name → UInt32
  inherited_special : ∀ n, inherited n &&& 0o777 = 0

variable {Name : Type} [DecidableEq Name]

namespace World

/-- Opens an object. -/
def openHandle (w : World Name) (id : Nat) : World Name :=
  { w with handles := Function.update w.handles w.nextHandle (some id),
           nextHandle := w.nextHandle + 1 }

/-- Makes an object at an entry. -/
def make (w : World Name) (n : Name) (o : Object) : World Name :=
  { w with entries := Function.update w.entries n (some w.nextObject),
           objects := Function.update w.objects w.nextObject o,
           nextObject := w.nextObject + 1,
           made := w.nextObject :: w.made }

/-- Changes an object. -/
def change (w : World Name) (id : Nat) (o : Object) : World Name :=
  { w with objects := Function.update w.objects id o }

/-- Takes an object off its entry. -/
def remove (w : World Name) (n : Name) (id : Nat) : World Name :=
  { w with entries := Function.update w.entries n none, removed := id :: w.removed }

/-- Writes `data` at the end of an object. -/
def append (w : World Name) (id : Nat) (data : List UInt8) : World Name :=
  w.change id { w.objects id with contents := (w.objects id).contents ++ data }

/-- Sets the mode of an object. -/
def chmod (w : World Name) (id : Nat) (mode : UInt32) : World Name :=
  { w.change id { w.objects id with mode := mode &&& 0o7777 } with
    chmodded := id :: w.chmodded }

end World

namespace Kernel

variable (K : Kernel Name)

/-- The object at a name: what its entry holds, or what a path without an entry leads to. -/
def lstat (w : World Name) (tg : Target) : Option Nat :=
  match K.entry tg with
  | some n => w.entries n
  | none => K.follow w tg

/-- What a call may answer and do when it succeeds. Nothing is said of the calls a copy does not
make. -/
def success : (c : Call) → World Name → Reply c → World Name → Prop
  | .canonicalize path, w, answer, w' => K.canonicalize w path = .ok answer ∧ w' = w
  | .metadata tg, w, m, w' => ∃ id, K.follow w tg = some id ∧ m = (w.objects id).metadata ∧ w' = w
  | .symlinkMetadata tg, w, m, w' =>
    ∃ id, K.lstat w tg = some id ∧ m = (w.objects id).metadata ∧ w' = w
  | .openDirectory tg follow, w, file, w' =>
    ∃ id, (if follow then K.follow w tg else K.lstat w tg) = some id ∧
      (w.objects id).kind = .directory ∧ file = w.nextHandle ∧ w' = w.openHandle id
  | .openRead tg, w, file, w' =>
    ∃ id, K.follow w tg = some id ∧ file = w.nextHandle ∧ w' = w.openHandle id
  | .createNew tg mode, w, file, w' =>
    ∃ n dev ino, K.entry tg = some n ∧ w.entries n = none ∧ file = w.nextHandle ∧
      w' = (w.make n ⟨.regular, [], mode &&& ~~~w.umask &&& 0o7777, dev, ino⟩).openHandle
        w.nextObject
  | .createDir tg mode, w, _, w' =>
    ∃ n dev ino, K.entry tg = some n ∧ w.entries n = none ∧
      w' = w.make n ⟨.directory, [], (mode &&& ~~~w.umask &&& 0o1777) ||| K.inherited n, dev, ino⟩
  | .removeDir tg, w, _, w' =>
    ∃ n id, K.entry tg = some n ∧ w.entries n = some id ∧ (w.objects id).kind = .directory ∧
      w' = w.remove n id
  | .removeFile tg, w, _, w' =>
    ∃ n id, K.entry tg = some n ∧ w.entries n = some id ∧ (w.objects id).kind ≠ .directory ∧
      w' = w.remove n id
  | .fileMetadata file, w, m, w' =>
    ∃ id, w.handles file = some id ∧ m = (w.objects id).metadata ∧ w' = w
  | .copyData src dst, w, _, w' =>
    ∃ read written, w.handles src = some read ∧ w.handles dst = some written ∧
      w' = w.append written (w.objects read).contents
  | .setPermissions file mode, w, _, w' =>
    ∃ id, w.handles file = some id ∧ w' = w.chmod id mode
  | .openFile _ _, _, _, _ => True
  | .removeDirAll _, _, _, _ => True

/-- What a failing call may have done. -/
def failure (c : Call) (w : World Name) (e : IoError) (w' : World Name) : Prop :=
  match c with
  | .canonicalize path => K.canonicalize w path = .error e ∧ w' = w
  | .copyData src dst =>
    (K.mayFail c w ∨ ¬∃ reply w', K.success c w reply w') ∧
      (w' = w ∨ ∃ read written part, w.handles src = some read ∧ w.handles dst = some written ∧
        part <+: (w.objects read).contents ∧ w' = w.append written part)
  | c => (K.mayFail c w ∨ ¬∃ reply w', K.success c w reply w') ∧ w' = w

/-- What a call may answer and do. -/
def perform (c : Call) (w : World Name) (answer : Answer c) (w' : World Name) : Prop :=
  match answer with
  | .ok reply => K.success c w reply w'
  | .error e => K.failure c w e w'

/-- A failed call changes nothing, unless it copies data. -/
theorem eq_of_failure {K : Kernel Name} {c : Call} {w w' : World Name} {e : IoError}
    (hc : ∀ src dst, c ≠ .copyData src dst) (h : K.failure c w e w') : w' = w := by
  cases c with
  | copyData src dst => exact absurd rfl (hc src dst)
  | _ => exact h.2

/-- The kernel with nobody else acting on the filesystem. -/
def alone : System Call Answer (World Name) := ⟨K.perform, fun _ _ => False⟩

/-- The answers to `canonicalize` in one state; nothing else is answered. -/
def os (w : World Name) : Os
  | .canonicalize path => K.canonicalize w path
  | _ => .error ⟨.other, ""⟩

end Kernel

end TrantorCli.FsCore
