import TrantorCli.OpenFiles.Ownership

/-!
# Every hosted call keeps the accounts

What each hosted call opens it closes, boxes or hands on, whichever of its steps
fails, and so does any sequence of them.
-/

open Interaction UnixPath

namespace TrantorCli.OpenFiles

open FsCore

variable {others : Files → Files → Prop} {start : Nat → Prop} {s t : Host} {w : Files} {fd : Nat}

/-! ### The descriptors of a program -/

/-- A descriptor was opened that was free, or none. -/
def Opens {ε : Type} (w : Files) : Except ε Nat → Files → Prop
  | .ok fd, t => 3 ≤ fd ∧ w.table fd = none ∧ ∃ o, t.table = Function.update w.table fd (some o)
  | .error _, t => t.table = w.table

/-- The stream has the descriptor, or it was closed. -/
def Keeps (w : Files) (fd : Nat) : Except OsError Output → Files → Prop
  | .ok out, t => out.fd = fd ∧ t.table = w.table
  | .error _, t => t.table = Function.update w.table fd none

/-- A call of finding the root or of opening a name that opens nothing itself. -/
def OpensNothing : RootCall → Prop
  | .openAmbientDir _ => False
  | .path (.sys (.openFile _ _)) | .path (.sys (.openDirectory _ _)) => False
  | .path (.sys (.openRead _)) | .path (.sys (.createNew _ _)) => False
  | _ => True

/-- A call that is made aside from the descriptors. -/
def HostCall.IsAside : HostCall → Prop
  | .aside _ => True
  | _ => False

/-- A call that leaves the descriptors alone. -/
def FdCall.LeavesTable : FdCall → Prop
  | .seek .. | .write .. | .getAppend _ => True
  | .openFile .. | .dup _ | .close _ => False

private theorem table_of_leavesTable {c : FdCall} {w w' : Files} {answer : FdAnswer c}
    (hc : c.LeavesTable)
    (h : perform c w answer w') : w'.table = w.table := by
  cases c with
  | openFile | dup | close => exact hc.elim
  | seek fd pos =>
    rcases h with ⟨o, -, -, -, rfl⟩ | ⟨e, -, rfl, -⟩ <;> rfl
  | write fd buf =>
    rcases h with ⟨n, o, -, -, -, rfl⟩ | ⟨e, -, rfl⟩ <;> rfl
  | getAppend fd =>
    rcases h with ⟨o, -, -, rfl⟩ | ⟨e, -, rfl⟩ <;> rfl

section Files

variable (hothers : ∀ w w', others w w' → w'.table = w.table)
include hothers

private theorem table_of_meanwhile {w' : Files} (h : (kernel others).Meanwhile w w') :
    w'.table = w.table :=
  h.keeps (I := fun w' => w'.table = w.table)
    (fun w w' hw hother => (hothers w w' hother).trans hw) rfl

private theorem table_of_onlyCalls {ε α : Type} {p : Fallible FdCall FdAnswer ε α}
    (hp : Fallible.OnlyCalls FdCall.LeavesTable p) :
    Fallible.EnsuresAmid (kernel others) (fun _ t => t.table = w.table) p w :=
  Program.ensuresAmid_of_onlyCalls
    (fun _ _ _ _ hc hperform hs => (table_of_leavesTable hc hperform).trans hs)
    (fun s t hs hother => (hothers s t hother).trans hs) hp rfl

private theorem dup_opens (src : Nat) :
    Fallible.EnsuresAmid (kernel others) (Opens w) (dup src) w := by
  refine dup_ensuresAmid (fun t hst new o _ hlow hfree u htu => ?_) fun t hst e =>
    table_of_meanwhile hothers hst
  have htable := table_of_meanwhile hothers hst
  refine ⟨hlow, by rw [← htable, hfree], o, ?_⟩
  rw [table_of_meanwhile hothers htu, ← htable]
  rfl

private theorem clonedFile_opens (d : Desc) :
    Fallible.EnsuresAmid (kernel others) (Opens w) (clonedFile d) w := by
  cases d with
  | file src => exact dup_opens hothers src
  | dir _ | root => exact fun t hst => table_of_meanwhile hothers hst

private theorem dupOwned_opens (handoff : Handoff) :
    Fallible.EnsuresAmid (kernel others) (Opens w) (dupOwned handoff) w := by
  cases handoff with
  | notAFile => exact fun t hst => table_of_meanwhile hothers hst
  | fd src =>
    refine Program.EnsuresAmid.bind
      (Program.EnsuresAmid.mono (dup_opens hothers src) fun result t ht => ?_)
    cases result with
    | ok new =>
      obtain ⟨hlow, hfree, o, htable⟩ := ht
      exact fun u htu => ⟨hlow, hfree, o, by rw [table_of_meanwhile hothers htu, htable]⟩
    | error e => exact fun u htu => (table_of_meanwhile hothers htu).trans ht

private theorem orDrop_keeps {α : Type} {p : FdSys α} {make : α → FdSys Output}
    (hp : Fallible.OnlyCalls FdCall.LeavesTable p)
    (hmake : ∀ a, ∃ out : Output, make a = pure out ∧ out.fd = fd) :
    Fallible.EnsuresAmid (kernel others) (Keeps w fd) (orDrop fd p >>= make) w := by
  refine Fallible.ensuresAmid_bind (orDrop_ensuresAmid
    ((table_of_onlyCalls hothers hp).mono fun result t ht => ?_))
  cases result with
  | ok a =>
    obtain ⟨out, hout, hfd⟩ := hmake a
    intro u htu
    simp only [hout]
    exact fun v huv => ⟨hfd, by rw [table_of_meanwhile hothers (htu.trans huv), ht]⟩
  | error e =>
    intro u htu v huv x hvx
    rw [Keeps, table_of_meanwhile hothers (huv.trans hvx)]
    change Function.update u.table fd none = _
    rw [table_of_meanwhile hothers htu, ht]

omit hothers in
private theorem seekIfPositioned_onlyCalls (fd : Nat) (pos : SeekFrom) :
    Fallible.OnlyCalls FdCall.LeavesTable (seekIfPositioned fd pos) := by
  refine ⟨trivial, fun result => ?_⟩
  cases result with
  | ok _ => trivial
  | error e =>
    change Program.OnlyCalls _ (if e.espipe then
      (pure (.ok ()) : Program FdCall FdAnswer (Except OsError Unit)) else pure (.error e))
    split <;> trivial

private theorem positionedAt_keeps (offset : UInt64) :
    Fallible.EnsuresAmid (kernel others) (Keeps w fd) (positionedAt offset fd) w := by
  exact orDrop_keeps hothers (seekIfPositioned_onlyCalls fd _) fun _ => ⟨_, rfl, rfl⟩

private theorem appending_keeps :
    Fallible.EnsuresAmid (kernel others) (Keeps w fd) (appending fd) w := by
  refine orDrop_keeps hothers ⟨trivial, fun _ => trivial⟩ fun append => ?_
  cases append with
  | true => exact ⟨_, rfl, rfl⟩
  | false => exact ⟨_, rfl, rfl⟩

private theorem streamsWrite_table (rounds : Nat) (out : Output) (bytes : List UInt8) :
    Fallible.EnsuresAmid (kernel others) (fun _ t => t.table = w.table)
      (streamsWrite rounds out bytes) w := by
  refine table_of_onlyCalls hothers (writeAll_onlyCalls (fun buf => ?_) rounds bytes)
  rw [Output.write]
  split
  · exact Fallible.onlyCalls_bind (seekIfPositioned_onlyCalls _ _) fun _ =>
      ⟨trivial, fun _ => trivial⟩
  · exact ⟨trivial, fun _ => trivial⟩

end Files

/-! ### The host's programs -/

/-- What a program on descriptors ensures, the host ensures when it runs it. -/
theorem onFds_ensuresAmid {ε α : Type} {p : Fallible FdCall FdAnswer ε α}
    {Q : Except ε α → Files → Prop} {R : Except ε α → Host → Prop}
    (h : Fallible.EnsuresAmid (kernel others) Q p s.files)
    (hR : ∀ result files, Q result files → R result { s with files }) :
    Program.EnsuresAmid (host others) R (onFds p) s := by
  have hmeanwhile : ∀ {s t : Host}, (host others).Meanwhile s t →
      ∃ files, (kernel others).Meanwhile s.files files ∧ t = { s with files } := by
    intro s t hst
    induction hst with
    | refl => exact ⟨s.files, .refl, rfl⟩
    | tail _ hlast ih =>
      obtain ⟨files, hfiles, rfl⟩ := ih
      obtain ⟨files', hother, rfl⟩ := hlast
      exact ⟨files', hfiles.tail hother, rfl⟩
  have hlift : ∀ (p : Program FdCall FdAnswer (Except ε α)) (s : Host),
      p.EnsuresAmid (kernel others) Q s.files →
      (∀ result files, Q result files → R result { s with files }) →
      (p.interp fun c => .call (.fd c) .done).EnsuresAmid (host others) R s := by
    intro p
    induction p with
    | done a =>
      intro s h hR t hst
      obtain ⟨files, hfiles, rfl⟩ := hmeanwhile hst
      exact hR a files (h files hfiles)
    | call c next ih =>
      intro s h hR t hst reply t' hperform
      obtain ⟨files, hfiles, rfl⟩ := hmeanwhile hst
      obtain ⟨files', hperform, rfl⟩ := hperform
      exact ih reply { s with files := files' } (h files hfiles reply files' hperform) hR
  exact hlift _ s h hR

/-- What a result holds. -/
def heldBy {ε α : Type} (holds : α → Option Nat) : Except ε α → Option Nat
  | .ok a => holds a
  | .error _ => none

/-- What a hosted call leaves: of what it opened it holds nothing but the number it answers. -/
def Answered (start : Nat → Prop) : HostResult → Host → Prop
  | .fd n, t => 3 ≤ n ∧ Accounted start (some n) t
  | _, t => Accounted start none t

section Hosted

variable (hothers : ∀ w w', others w w' → w'.table = w.table)
include hothers

private theorem Accounted.meanwhile {held : Option Nat} (h : Accounted start held s)
    (hst : (host others).Meanwhile s t) : Accounted start held t := by
  refine hst.keeps (fun s t h hother => ?_) h
  obtain ⟨files, hfiles, rfl⟩ := hother
  exact h.of_table (hothers _ _ hfiles)

/-- What is held when the borrow ends is held when the handle was given back, be it the last. -/
theorem lending_ensuresAmid {α : Type} {p : HostProgram α} {P : α → Prop} {held : α → Option Nat}
    (box : Nat)
    (h : p.EnsuresAmid (host others) (fun a t => P a ∧ Accounted start (held a) t) s) :
    (lending box p).EnsuresAmid (host others) (fun a t => P a ∧ Accounted start (held a) t) s := by
  refine Program.EnsuresAmid.bind (h.mono fun a t ht u htu reply v hperform x hvx => ⟨ht.1, ?_⟩)
  have hu := ht.2.meanwhile hothers htu
  rcases hperform with rfl | ⟨b, hbox, rfl⟩
  · exact hu.meanwhile hothers hvx
  · exact (hu.dropped hbox).meanwhile hothers hvx

/-- What was made goes into a box that owns what the call held for it. -/
theorem boxing_ensuresAmid {α : Type} {b : α → Boxed} {holds : α → Option Nat}
    (hb : ∀ a, (b a).owns = holds a)
    (result : Except OsError α) (h : Accounted start (heldBy holds result) s) :
    (boxing b result).EnsuresAmid (host others) (Answered start) s := by
  cases result with
  | error e => exact fun t hst => h.meanwhile hothers hst
  | ok a =>
    intro t hst n u hperform v huv
    obtain ⟨hnew, rfl⟩ := hperform
    exact ((h.meanwhile hothers hst).boxed hnew (hb a)).meanwhile hothers huv

private theorem boxing_nothing {α : Type} {b : α → Boxed} {a : α} (hb : (b a).owns = none)
    (hs : Accounted start none s) :
    (boxing b (.ok a)).EnsuresAmid (host others) (Answered start) s := by
  intro t hst n u hperform v huv
  obtain ⟨hnew, rfl⟩ := hperform
  exact ((hs.meanwhile hothers hst).boxed hnew hb).meanwhile hothers huv

omit hothers in
/-- A duplicate is held by the call that made it. -/
theorem onFds_opens {ε : Type} {p : Fallible FdCall FdAnswer ε Nat} (hs : Accounted start none s)
    (hp : Fallible.EnsuresAmid (kernel others) (Opens s.files) p s.files) :
    (onFds p).EnsuresAmid (host others) (fun result t => (∀ fd, result = .ok fd → 3 ≤ fd) ∧
      Accounted start (heldBy some result) t) s := by
  refine onFds_ensuresAmid hp fun result files hresult => ?_
  cases result with
  | ok fd =>
    obtain ⟨hlow, hfree, o, htable⟩ := hresult
    refine ⟨?_, hs.acquire hfree htable⟩
    rintro _ ⟨⟩
    exact hlow
  | error e => exact ⟨nofun, hs.of_table hresult⟩

/-- The clone of a descriptor's file, with the descriptor given back. -/
theorem withDescriptor_cloned (box : Nat) (hs : Accounted start none s) :
    (withDescriptor box clonedFile).EnsuresAmid (host others) (fun result t =>
      (∀ fd, result = .ok fd → 3 ≤ fd) ∧ Accounted start (heldBy some result) t) s := by
  intro t hst d u hperform
  obtain ⟨-, rfl⟩ := hperform
  exact lending_ensuresAmid hothers box
    (onFds_opens (hs.meanwhile hothers hst) (clonedFile_opens hothers d))

private theorem readViaStream_accounted (box : Nat) (hs : Accounted start none s) :
    (Hosted.readViaStream box).EnsuresAmid (host others) (Answered start) s := by
  refine Program.EnsuresAmid.bind
    ((withDescriptor_cloned hothers box hs).mono fun result t ht => ?_)
  exact boxing_ensuresAmid hothers (fun _ => rfl) result ht.2

/-- A stream is made of the duplicate, or the duplicate is closed. -/
theorem viaStream_accounted {make : Nat → FdSys Output} (box : Nat)
    (hmake : ∀ w fd, Fallible.EnsuresAmid (kernel others) (Keeps w fd) (make fd) w)
    (hs : Accounted start none s) :
    (withDescriptor box clonedFile >>= Hosted.viaStream make).EnsuresAmid (host others)
      (Answered start) s := by
  refine Program.EnsuresAmid.bind
    ((withDescriptor_cloned hothers box hs).mono fun result t ht => ?_)
  cases result with
  | error e => exact fun u htu => ht.2.meanwhile hothers htu
  | ok fd =>
    have hmade : (onFds (make fd)).EnsuresAmid (host others)
        (fun result u => Accounted start (heldBy (fun o => some o.fd) result) u) t := by
      refine onFds_ensuresAmid (hmake t.files fd) fun result files hresult => ?_
      cases result with
      | ok out =>
        obtain ⟨rfl, htable⟩ := hresult
        exact ht.2.of_table htable
      | error e => exact ht.2.release hresult
    refine Program.EnsuresAmid.bind (hmade.mono fun result u hu => ?_)
    have howns : ∀ out, (Boxed.output out true).owns = some out.fd := fun _ => rfl
    exact boxing_ensuresAmid hothers howns result hu

/-- The duplicate is the answer. -/
theorem handing_accounted (result : Except HandoffError Nat)
    (hs : (∀ fd, result = .ok fd → 3 ≤ fd) ∧ Accounted start (heldBy some result) s) :
    (handing result).EnsuresAmid (host others) (Answered start) s := by
  cases result with
  | ok fd => exact fun t hst => ⟨hs.1 fd rfl, hs.2.meanwhile hothers hst⟩
  | error e => exact fun t hst => hs.2.meanwhile hothers hst

private theorem inputFd_accounted (box : Nat) (hs : Accounted start none s) :
    (Hosted.inputFd box).EnsuresAmid (host others) (Answered start) s := by
  have hdup : (withInput box inputFd).EnsuresAmid (host others) (fun result t =>
      (∀ fd, result = .ok fd → 3 ≤ fd) ∧ Accounted start (heldBy some result) t) s := by
    intro t hst i u hperform
    obtain ⟨-, rfl⟩ := hperform
    exact lending_ensuresAmid hothers box
      (onFds_opens (hs.meanwhile hothers hst) (dupOwned_opens hothers i.handoff))
  exact Program.EnsuresAmid.bind (hdup.mono fun result t ht => handing_accounted hothers result ht)

private theorem outputFd_accounted (box : Nat) (hs : Accounted start none s) :
    (Hosted.outputFd box).EnsuresAmid (host others) (Answered start) s := by
  have hdup : (withOutput box outputFd).EnsuresAmid (host others) (fun result t =>
      (∀ fd, result = .ok fd → 3 ≤ fd) ∧ Accounted start (heldBy some result) t) s := by
    intro t hst o u hperform
    obtain ⟨-, rfl⟩ := hperform
    exact lending_ensuresAmid hothers box
      (onFds_opens (hs.meanwhile hothers hst) (dupOwned_opens hothers o.handoff))
  exact Program.EnsuresAmid.bind (hdup.mono fun result t ht => handing_accounted hothers result ht)

private theorem descriptorFd_accounted (box : Nat) (hs : Accounted start none s) :
    (Hosted.descriptorFd box).EnsuresAmid (host others) (Answered start) s := by
  refine Program.EnsuresAmid.bind
    ((readViaStream_accounted hothers box hs).mono fun answer t ht => ?_)
  rcases answer with n | n | _ | e | _
  · exact inputFd_accounted hothers n ht
  · exact fun u htu => ⟨ht.1, ht.2.meanwhile hothers htu⟩
  · exact fun u htu => Accounted.meanwhile hothers ht htu
  · cases e <;> exact fun u htu => Accounted.meanwhile hothers ht htu
  · exact fun u htu => Accounted.meanwhile hothers ht htu

private theorem write_accounted (rounds box : Nat) (bytes : List UInt8)
    (hs : Accounted start none s) :
    (Hosted.write rounds box bytes).EnsuresAmid (host others) (Answered start) s := by
  have hwrite : (withOutput box fun o => streamsWrite rounds o bytes).EnsuresAmid (host others)
      (fun _ t => True ∧ Accounted start none t) s := by
    intro t hst o u hperform
    obtain ⟨-, rfl⟩ := hperform
    refine lending_ensuresAmid hothers box
      (onFds_ensuresAmid (streamsWrite_table hothers rounds o bytes) fun _ files htable =>
        ⟨trivial, ?_⟩)
    exact (hs.meanwhile hothers hst).of_table htable
  refine Program.EnsuresAmid.bind (hwrite.mono fun result t ht => ?_)
  rcases result with (_ | e) | _ <;> exact fun u htu => ht.2.meanwhile hothers htu

/-! ### Opening at a path -/

omit hothers in
/-- A call of finding the root or of opening a name that opens nothing is made as it is. -/
theorem opening_of_opensNothing {c : RootCall} (h : OpensNothing c) :
    opening c = .call (.aside c) .done := by
  cases c with
  | currentDir => rfl
  | openAmbientDir base => exact h.elim
  | path c =>
    cases c with
    | sys c => cases c <;> first | rfl | exact h.elim
    | _ => rfl

/-- Looking at names changes nothing about the descriptors. -/
theorem onNames_accounted {α : Type} {held : Option Nat} {p : Sys α}
    (hp : Fallible.OnlyCalls (fun c => OpensNothing (.path (.sys c))) p)
    (hs : Accounted start held s) :
    (onNames p).EnsuresAmid (host others) (fun _ t => Accounted start held t) s := by
  have hcalls : (onNames p).OnlyCalls HostCall.IsAside := by
    refine Program.OnlyCalls.interp _ hp fun c hc => ?_
    rw [opening_of_opensNothing hc]
    exact ⟨trivial, fun _ => trivial⟩
  refine Program.ensuresAmid_of_onlyCalls (fun c s reply t hc hperform hs => ?_)
    (fun s t hs hother => hs.meanwhile hothers (.single hother)) hcalls hs
  cases c with
  | aside c =>
    obtain rfl : t = s := hperform
    exact hs
  | _ => exact hc.elim

/-- What was opened under a name is held. -/
theorem opened_accounted (path : PathBuf) (flags : OpenFlags)
    (hs : Accounted start none s) : (opened path flags).EnsuresAmid (host others)
      (fun result t => Accounted start (heldBy some result) t) s := by
  intro t hst reply u hperform v huv
  have ht := hs.meanwhile hothers hst
  obtain ⟨files, hopen, rfl⟩ := hperform
  rcases hopen with ⟨fd, file, positioned, rfl, hfree, rfl⟩ | ⟨e, rfl, rfl⟩
  · exact (ht.acquire hfree rfl).meanwhile hothers huv
  · exact ht.meanwhile hothers huv

/-- The root is found and its directory kept, or there was one or none from before. -/
theorem openedRoot_accounted (hs : Accounted start none s) :
    openedRoot.EnsuresAmid (host others) (fun _ t => Accounted start none t) s := by
  have hfind : ∀ {s : Host}, Accounted start none s → (Confinement.init.interp opening).EnsuresAmid
      (host others) (fun found t => Accounted start (heldBy (·.dir) found) t) s := by
    intro s hs t hst reply u hperform
    obtain rfl : u = t := hperform
    have hu := hs.meanwhile hothers hst
    cases reply with
    | error e => exact fun v huv => hu.meanwhile hothers huv
    | ok base =>
      have hopened := opened_accounted hothers base.bytes (readOnly true true) hu
      intro v huv answer w hperform
      have hw := hopened v huv answer w hperform
      cases answer <;> exact hw
  intro t hst kept u hperform
  obtain ⟨-, rfl⟩ := hperform
  have hu := hs.meanwhile hothers hst
  cases kept with
  | some found => exact fun v huv => hu.meanwhile hothers huv
  | none =>
    refine Program.EnsuresAmid.bind
      ((hfind hu).mono fun found v hv x hvx reply y hperform z hyz => ?_)
    obtain ⟨hnone, rfl⟩ := hperform
    refine Accounted.meanwhile hothers (Accounted.keep (hv.meanwhile hothers hvx) hnone ?_) hyz
    intro fd
    cases found <;> simp [heldBy]

/-- Asking for the root changes nothing else about the descriptors. -/
theorem root_accounted (policy : Policy) (hs : Accounted start none s) :
    policy.root.EnsuresAmid (host others) (fun _ t => Accounted start none t) s := by
  cases policy with
  | unconfined base => exact fun t hst => hs.meanwhile hothers hst
  | confined =>
    exact Program.EnsuresAmid.bind ((openedRoot_accounted hothers hs).mono fun _ t ht u htu =>
      Accounted.meanwhile hothers ht htu)

/-- `dir_of` may ask for the root. -/
theorem dirOf_accounted (policy : Policy) (d : Desc) (hs : Accounted start none s) :
    (policy.dirOf d).EnsuresAmid (host others) (fun _ t => Accounted start none t) s := by
  cases d with
  | root =>
    exact Program.EnsuresAmid.bind ((root_accounted hothers policy hs).mono fun _ t ht u htu =>
      Accounted.meanwhile hothers ht htu)
  | _ => exact fun t hst => hs.meanwhile hothers hst

omit hothers in
/-- `Fallible.ensuresAmid_bind` of a program that the host runs. -/
theorem onNames_bind {α β : Type} {p : Sys α} {f : α → Sys β} {Q : Except IoError β → Host → Prop}
    (h : (onNames p).EnsuresAmid (host others) (fun result t =>
      match result with
      | .ok a => (onNames (f a)).EnsuresAmid (host others) Q t
      | .error e => ∀ u, (host others).Meanwhile t u → Q (.error e) u) s) :
    (onNames (p >>= f)).EnsuresAmid (host others) Q s := by
  have hbind : onNames (p >>= f) = ExceptT.run (Fallible.interp _ p >>= fun a => _) :=
    congrArg ExceptT.run (Fallible.interp_bind (fun c => opening (.path (.sys c))) p f)
  rw [hbind]
  refine Fallible.ensuresAmid_bind (Program.EnsuresAmid.mono h fun result t ht => ?_)
  cases result <;> exact ht

/-- What a descriptor that is made owns. -/
abbrev HeldByDesc (start : Nat → Prop) (result : Except IoError Desc) (t : Host) : Prop :=
  Accounted start (heldBy (fun d => (Boxed.descriptor d).owns) result) t

/-- A directory is closed again, and its descriptor owns nothing. -/
theorem openDir_accounted (r : Root) (tg : Target) (follow : Bool) (hs : Accounted start none s) :
    (onNames (openDir r tg follow)).EnsuresAmid (host others) (HeldByDesc start) s := by
  have hdirectory : (onNames (openDirectory tg follow)).EnsuresAmid (host others)
      (fun _ t => Accounted start none t) s := by
    refine Program.EnsuresAmid.bind (Program.EnsuresAmid.bind
      ((opened_accounted hothers _ _ hs).mono fun answer t ht => ?_))
    cases answer with
    | error e =>
      exact fun u htu v huv => Accounted.meanwhile hothers ht (htu.trans huv)
    | ok fd =>
      intro u htu reply v hperform x hvx y hxy
      obtain ⟨files, hclose, rfl⟩ := hperform
      obtain rfl : files = u.files.setTable fd none := hclose
      have hu := Accounted.meanwhile hothers ht htu
      exact (hu.release rfl).meanwhile hothers (hvx.trans hxy)
  unfold openDir
  split
  · refine onNames_bind (hdirectory.mono fun answer t ht => ?_)
    cases answer <;> exact fun u htu => Accounted.meanwhile hothers ht htu
  · refine onNames_bind (hdirectory.mono fun answer t ht => ?_)
    cases answer with
    | error e => exact fun u htu => Accounted.meanwhile hothers ht htu
    | ok fd => cases r.base <;> exact fun u htu => Accounted.meanwhile hothers ht htu

/-- A file's descriptor owns what was opened. -/
theorem openNonDirectory_accounted (tg : Target) (flags : OpenFlags)
    (hs : Accounted start none s) :
    (onNames (openNonDirectory tg flags)).EnsuresAmid (host others) (HeldByDesc start) s := by
  unfold openNonDirectory
  split
  · have hlook : Fallible.OnlyCalls (fun c => OpensNothing (.path (.sys c)))
        (Sys.ofProgram (metadataFollowed tg).run) :=
      onlyCalls_ofProgram (Fallible.onlyCalls_bind (Fallible.onlyCalls_ask trivial)
        fun _ => Fallible.onlyCalls_pure _)
    refine onNames_bind ((onNames_accounted hothers hlook hs).mono fun result t ht => ?_)
    rcases result with e | e | ⟨(_ | _), mode⟩ <;>
      exact fun u htu => Accounted.meanwhile hothers ht htu
  · refine onNames_bind (Program.EnsuresAmid.bind
      ((opened_accounted hothers _ _ hs).mono fun answer t ht => ?_))
    cases answer <;> exact fun u htu v huv => Accounted.meanwhile hothers ht (htu.trans huv)

/-- What is opened at a path the descriptor for it owns. -/
theorem openedAt_accounted (policy : Policy) (path : PathBuf) (flags : OpenFlags)
    (dir : Except IoError PathBuf) (hs : Accounted start none s) :
    (openedAt policy path flags dir).EnsuresAmid (host others) (HeldByDesc start) s := by
  cases dir with
  | error e => exact fun t hst => hs.meanwhile hothers hst
  | ok dir =>
    have hroot : (if path = [] then (.done (.unconfined .slash) : HostProgram Root)
        else policy.root).EnsuresAmid (host others) (fun _ t => Accounted start none t) s := by
      split
      · exact fun t hst => hs.meanwhile hothers hst
      · exact root_accounted hothers policy hs
    refine Program.EnsuresAmid.bind (hroot.mono fun r t ht => ?_)
    have hresolve : Fallible.OnlyCalls (fun c => OpensNothing (.path (.sys c)))
        (resolve r dir path) :=
      (onlyCalls_resolve r dir path).mono fun c hc => by
        cases c <;> trivial
    refine onNames_bind ((onNames_accounted hothers hresolve ht).mono fun result u hu => ?_)
    cases result with
    | error e => exact fun v huv => Accounted.meanwhile hothers hu huv
    | ok tg =>
      simp only
      split
      · exact openDir_accounted hothers r tg _ hu
      · exact openNonDirectory_accounted hothers tg flags hu

private theorem openWithFlagsAt_accounted (policy : Policy) (box : Nat) (path : PathBuf)
    (flags : OpenFlags) (hs : Accounted start none s) :
    (Hosted.openWithFlagsAt policy box path flags).EnsuresAmid (host others)
      (Answered start) s := by
  intro t hst d u hperform
  obtain ⟨-, rfl⟩ := hperform
  have hdir := (dirOf_accounted hothers policy d (hs.meanwhile hothers hst)).mono
    (R := fun _ t => True ∧ Accounted start none t) fun _ _ h => ⟨trivial, h⟩
  refine Program.EnsuresAmid.bind (Program.EnsuresAmid.bind
    ((lending_ensuresAmid hothers box hdir).mono fun dir v hv => ?_))
  refine (openedAt_accounted hothers policy path flags dir hv.2).mono fun result w hw => ?_
  refine boxing_ensuresAmid hothers (fun _ => rfl) (result.mapError (⟨·, false⟩)) ?_
  cases result <;> exact hw

/-- Of what a hosted call opens it holds nothing in the end but the number it answers. -/
theorem hostOp_accounted (policy : Policy) (rounds : Nat) (op : HostOp)
    (hop : ∀ fd, op ≠ .closeFd fd) (hs : Accounted start none s) :
    (op.run policy rounds).EnsuresAmid (host others) (Answered start) s := by
  cases op with
  | openWithFlagsAt box path flags =>
    exact openWithFlagsAt_accounted hothers policy box path flags hs
  | preopens => exact boxing_nothing hothers rfl hs
  | getStdin => exact boxing_nothing hothers rfl hs
  | getStdout => exact boxing_nothing hothers rfl hs
  | getStderr => exact boxing_nothing hothers rfl hs
  | readViaStream box => exact readViaStream_accounted hothers box hs
  | writeViaStream box offset =>
    exact viaStream_accounted hothers box (fun w fd => positionedAt_keeps hothers offset) hs
  | appendViaStream box =>
    exact viaStream_accounted hothers box (fun w fd => appending_keeps hothers) hs
  | write box bytes => exact write_accounted hothers rounds box bytes hs
  | outputFd box => exact outputFd_accounted hothers box hs
  | inputFd box => exact inputFd_accounted hothers box hs
  | descriptorFd box => exact descriptorFd_accounted hothers box hs
  | closeFd fd => exact absurd rfl (hop fd)
  | drop box =>
    intro t hst reply u hperform v huv
    have ht := hs.meanwhile hothers hst
    rcases hperform with rfl | ⟨b, hbox, rfl⟩
    · exact ht.meanwhile hothers huv
    · exact (ht.dropped hbox).meanwhile hothers huv

/-- A number that was given back is closed. -/
theorem closeFd_accounted (hs : Accounted start (some fd) s) :
    (Hosted.closeFd fd).EnsuresAmid (host others) (fun _ t => Accounted start none t) s := by
  intro t hst reply u hperform v huv
  obtain ⟨files, hclose, rfl⟩ := hperform
  obtain rfl : files = t.files.setTable fd none := hclose
  exact ((hs.meanwhile hothers hst).release rfl).meanwhile hothers huv

end Hosted

/-! ### An app's calls -/

/-- A hosted call of an app, or a step of others. A number that is answered is the app's from then
on, and it gives back only what is its own. -/
inductive HostStep (policy : Policy) (rounds : Nat) (others : Files → Files → Prop) :
    Host → Host → Prop
  | call {op : HostOp} {answer : HostResult} {s t : Host} (hop : ∀ fd, op ≠ .closeFd fd)
      (hrun : Reaches (host others) (op.run policy rounds, s) (.done answer, t))
      (hanswer : ∀ n, answer ≠ .fd n) : HostStep policy rounds others s t
  | handOn {op : HostOp} {n : Nat} {s t : Host} (hop : ∀ fd, op ≠ .closeFd fd)
      (hrun : Reaches (host others) (op.run policy rounds, s) (.done (.fd n), t)) :
      HostStep policy rounds others s { t with handed := (n, t.files.table n) :: t.handed }
  | giveBack {fd : Nat} {behind : Option Nat} {answer : HostResult} {s t : Host}
      (hmem : (fd, behind) ∈ s.handed)
      (hrun : Reaches (host others) ((HostOp.closeFd fd).run policy rounds,
        { s with handed := s.handed.filter (·.1 ≠ fd) }) (.done answer, t)) :
      HostStep policy rounds others s t
  | others {s t : Host} (h : (host others).others s t) : HostStep policy rounds others s t

/-- Whatever an app calls and in whatever order, whichever calls of the system fail and whenever a
handle is the last of its box: each open descriptor was there from the start, belongs to one box,
is the directory that a confined root keeps or was handed on; and a number that was handed on is
never a standard stream's and stands for the open file it stood for then, until it is given back.
With all boxes gone and all numbers back, what is open is what was open from the start, and the
directory of the root. -/
theorem descriptors_accounted {w w' : Host} (policy : Policy) (rounds : Nat)
    (hothers : ∀ w w', others w w' → w'.table = w.table) (hboxes : ∀ n, w.boxes n = none)
    (hroot : w.root = none) (hhanded : w.handed = [])
    (hrun : Relation.ReflTransGen (HostStep policy rounds others) w w') :
    Accounted (fun fd => w.files.table fd ≠ none) none w' ∧
      ((∀ n, w'.boxes n = none) → w'.handed = [] → ∀ fd, w'.files.table fd ≠ none ↔
        w.files.table fd ≠ none ∨ ∃ found, w'.root = some (.ok found) ∧ found.dir = fd) := by
  have hstart : Accounted (fun fd => w.files.table fd ≠ none) none w := by
    refine ⟨⟨fun fd => if w.files.table fd = none then none else some .start, fun fd => ?_,
      fun fd k => ?_⟩, ?_⟩
    · split <;> simp_all
    · cases k <;> simp [Host.Has, hboxes, hroot, hhanded]
    · simp [hhanded]
  have hlast : Accounted (fun fd => w.files.table fd ≠ none) none w' := by
    induction hrun with
    | refl => exact hstart
    | tail _ hstep ih =>
      cases hstep with
      | @call op answer s t hop hrun hanswer =>
        have ht := (hostOp_accounted hothers policy rounds op hop ih).reaches hrun
        cases answer with
        | fd n => exact absurd rfl (hanswer n)
        | _ => exact ht
      | handOn hop hrun =>
        obtain ⟨hlow, ht⟩ := (hostOp_accounted hothers policy rounds _ hop ih).reaches hrun
        exact ht.handOn hlow
      | giveBack hmem hrun => exact (closeFd_accounted hothers (ih.giveBack hmem)).reaches hrun
      | others hother => exact ih.meanwhile hothers (.single hother)
  refine ⟨hlast, fun hnone hback fd => ?_⟩
  obtain ⟨⟨owner, howner⟩, -⟩ := hlast
  rw [Ne, howner.isOpen]
  constructor
  · intro hopen
    obtain ⟨who, hwho⟩ := Option.ne_none_iff_exists'.mp hopen
    have hhas := (howner.has fd who).mp hwho
    cases who with
    | start => exact .inl hhas
    | root => exact .inr hhas
    | _ => simp_all [Host.Has]
  · rintro (hfirst | hkept) hfree
    · exact absurd ((howner.has fd .start).mpr hfirst) (by simp [hfree])
    · exact absurd ((howner.has fd .root).mpr hkept) (by simp [hfree])

/-- A process with its standard streams, and nothing boxed. -/
def standardStreams : Host where
  files := ⟨fun fd => if fd < 3 then some fd else none, fun o => ⟨o, 0, false, true⟩, 3,
    fun _ => [], []⟩
  boxes _ := none
  root := none
  handed := []

/-- The app has the preopen, in box 7. -/
def withPreopen : Host :=
  { standardStreams with
    boxes := Function.update standardStreams.boxes 7 (some (.descriptor .root)) }

/-- The directory of the root was opened under the number 3. -/
def withDir : Host :=
  { withPreopen with files := withPreopen.files.openNew 3 9 true (readOnly true true) }

/-- The root is kept. -/
def withRoot : Host := { withDir with root := some (.ok ⟨.slash, 3⟩) }

/-- `f` was opened beneath the root under the number 4. -/
def withFile : Host :=
  { withRoot with files := withRoot.files.openNew 4 10 true (readOnly false true) }

/-- The file is in box 8. -/
def withBox : Host :=
  { withFile with boxes := Function.update withFile.boxes 8 (some (.descriptor (.file 4))) }

/-- A stream on a duplicate of the file, which is what is handed on. -/
def duplicate : Boxed := .input ⟨5, .fd 5⟩ true

/-- The file was duplicated. -/
def withDuplicate : Host := { withBox with files := withBox.files.setTable 5 (some 4) }

/-- The stream is in box 9. -/
def withStream : Host :=
  { withDuplicate with boxes := Function.update withDuplicate.boxes 9 (some duplicate) }

/-- The number 6 was made for who is to have the file, and the stream is gone. -/
def afterHandOff : Host :=
  { withStream with files := withStream.files.setTable 6 (some 4) }.drop 9 duplicate

/-- The app has the number. -/
def handedOn : Host := { afterHandOff with handed := [(6, some 4)] }

/-- The app let go of the file too. -/
def afterDrop : Host := handedOn.drop 8 (.descriptor (.file 4))

/-- The others of these runs leave the app's numbers alone. -/
abbrev besideOthers : System HostCall HostReply Host := host fun w w' => w'.table = w.table

private theorem opens_beneath :
    Reaches besideOthers
      ((HostOp.openWithFlagsAt 7 [102] (readOnly false true)).run .confined 1, withPreopen)
      (.done (.box 8), withBox) := by
  have hborrow : besideOthers.perform (.descriptor 7) withPreopen Desc.root withPreopen :=
    ⟨rfl, rfl⟩
  have hkept : besideOthers.perform .kept withPreopen none withPreopen := ⟨rfl, rfl⟩
  have hfound : besideOthers.perform (.aside .currentDir) withPreopen (.ok PlainPath.slash)
      withPreopen := rfl
  have hdir : besideOthers.perform (.fd (.openFile PlainPath.slash.bytes (readOnly true true)))
      withPreopen (.ok (3 : Nat)) withDir := ⟨_, .inl ⟨3, 9, true, rfl, rfl, rfl⟩, rfl⟩
  have hkeep : besideOthers.perform (.keep (.ok ⟨.slash, 3⟩)) withDir () withRoot := ⟨rfl, rfl⟩
  have hgiven : besideOthers.perform (.release 7) withRoot () withRoot := .inl rfl
  have hagain : besideOthers.perform .kept withRoot (some (.ok ⟨.slash, 3⟩)) withRoot :=
    ⟨rfl, rfl⟩
  have hfile : besideOthers.perform (.fd (.openFile [102] (readOnly false true))) withRoot
      (.ok (4 : Nat)) withFile := ⟨_, .inl ⟨4, 10, true, rfl, rfl, rfl⟩, rfl⟩
  have hbox : besideOthers.perform (.new (.descriptor (.file 4))) withFile (8 : Nat) withBox :=
    ⟨rfl, rfl⟩
  exact .head (.call hborrow) (.head (.call hkept) (.head (.call hfound) (.head (.call hdir)
    (.head (.call hkeep) (.head (.call hgiven) (.head (.call hagain) (.head (.call hfile)
    (.head (.call hbox) .refl))))))))

private theorem hands_on :
    Reaches besideOthers ((HostOp.descriptorFd 8).run .confined 1, withBox)
      (.done (.fd 6), afterHandOff) := by
  have hborrow : besideOthers.perform (.descriptor 8) withBox (Desc.file 4) withBox := ⟨rfl, rfl⟩
  have hdup : besideOthers.perform (.fd (.dup 4)) withBox (.ok (5 : Nat)) withDuplicate :=
    ⟨_, .inl ⟨5, 4, rfl, rfl, by decide, rfl, rfl⟩, rfl⟩
  have hgiven : besideOthers.perform (.release 8) withDuplicate () withDuplicate := .inl rfl
  have hbox : besideOthers.perform (.new duplicate) withDuplicate (9 : Nat) withStream :=
    ⟨rfl, rfl⟩
  have hstream : besideOthers.perform (.input 9) withStream (⟨5, .fd 5⟩ : Input) withStream :=
    ⟨⟨true, rfl⟩, rfl⟩
  have hhand : besideOthers.perform (.fd (.dup 5)) withStream (.ok (6 : Nat))
      { withStream with files := withStream.files.setTable 6 (some 4) } :=
    ⟨_, .inl ⟨6, 4, rfl, rfl, by decide, rfl, rfl⟩, rfl⟩
  have hlast : besideOthers.perform (.release 9)
      { withStream with files := withStream.files.setTable 6 (some 4) } () afterHandOff :=
    .inr ⟨duplicate, rfl, rfl⟩
  exact .head (.call hborrow) (.head (.call hdup) (.head (.call hgiven) (.head (.call hbox)
    (.head (.call hstream) (.head (.call hhand) (.head (.call hlast) .refl))))))

/-- The confined root is found to open `f` beneath it, and a duplicate of the file is handed on;
then the boxes are gone. -/
theorem descriptors_accounted_beneath : ∃ w' : Host, w'.handed = [(6, some 4)] ∧
    w'.root = some (.ok ⟨.slash, 3⟩) ∧
    Accounted (fun fd => standardStreams.files.table fd ≠ none) none w' ∧
    ((∀ n, w'.boxes n = none) → w'.handed = [] → ∀ fd, w'.files.table fd ≠ none ↔
      standardStreams.files.table fd ≠ none ∨
        ∃ found, w'.root = some (.ok found) ∧ found.dir = fd) := by
  refine ⟨afterDrop, rfl, rfl,
    descriptors_accounted .confined 1 (fun _ _ (h : _ = _) => h) (fun _ => rfl) rfl rfl ?_⟩
  have hpreopens : Reaches besideOthers (HostOp.preopens.run .confined 1, standardStreams)
      (.done (.box 7), withPreopen) := .single (.call ⟨rfl, rfl⟩)
  have hgone : besideOthers.perform (.release 8) handedOn () afterDrop :=
    .inr ⟨.descriptor (.file 4), rfl, rfl⟩
  have hdrop : Reaches besideOthers ((HostOp.drop 8).run .confined 1, handedOn)
      (.done .done, afterDrop) := .single (.call hgone)
  exact .head (.call (by simp) hpreopens (by simp))
    (.head (.call (by simp) opens_beneath (by simp))
    (.head (.handOn (by simp) hands_on) (.single (.call (by simp) hdrop (by simp)))))

end TrantorCli.OpenFiles
