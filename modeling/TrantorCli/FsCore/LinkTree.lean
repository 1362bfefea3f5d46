import TrantorCli.FsCore.Operations
import TrantorCli.Lib.FileTree.Changes
import TrantorCli.Lib.Interaction.Traced
import TrantorCli.Lib.UnixPath.Parent

/-!
# Names beneath a root, as a tree

The calls beneath a confined root walk a tree of names without leaving the root.
Others follow the links in the tree as the kernel does. An entry the program sets
keeps them inside when the confined walk could follow it before.
-/

open FileTree Interaction UnixPath

namespace TrantorCli.FsCore

/-- The path names the entry `name` of `dir`, walked beneath the root. -/
def Names (t : Tree) (root : Nat) (path : PathBuf) (dir : Nat) (name : List UInt8) : Prop :=
  ∃ before, components path = before ++ [.normal name] ∧
    Leads (stepBeneath t root) (root, before) dir

/-- The contents of a link. -/
def contentsOf (t : Tree) (id : Nat) : Option PathBuf :=
  match t.node id with
  | .link contents => some contents
  | _ => none

/-- What setting a name does when it succeeds. -/
inductive Sets (t : Tree) (root : Nat) : PathCall → Tree → Prop where
  | symlink {contents link : PathBuf} {dir : Nat} {name : List UInt8}
      (hlink : Names t root link dir name)
      (hdir : (t.node dir).isDir = true) (hfree : t.lookup dir name = none) :
      Sets t root (.symlink contents (.beneath link))
        ((t.create (.link contents)).set dir name (some t.next))
  | hardLink {src dst : PathBuf} {dir dir' id : Nat} {name name' : List UInt8}
      (hsrc : Names t root src dir name) (hdst : Names t root dst dir' name')
      (hdir : (t.node dir').isDir = true) (hfound : t.lookup dir name = some id)
      (hid : (t.node id).isDir = false) (hfree : t.lookup dir' name' = none) :
      Sets t root (.hardLink (.beneath src) (.beneath dst)) (t.set dir' name' (some id))
  /-- Two names of one object stay as they are. -/
  | renameSame {src dst : PathBuf} {dir dir' id : Nat} {name name' : List UInt8}
      (hsrc : Names t root src dir name) (hdst : Names t root dst dir' name')
      (hfound : t.lookup dir name = some id) (hsame : t.lookup dir' name' = some id) :
      Sets t root (.rename (.beneath src) (.beneath dst)) t
  /-- What was at the new name is a directory only if what is renamed is one. -/
  | rename {src dst : PathBuf} {dir dir' id : Nat} {name name' : List UInt8}
      (hsrc : Names t root src dir name) (hdst : Names t root dst dir' name')
      (hdir : (t.node dir').isDir = true) (hfound : t.lookup dir name = some id)
      (hother : t.lookup dir' name' ≠ some id)
      (hold : ∀ old, t.lookup dir' name' = some old → (t.node old).isDir = (t.node id).isDir) :
      Sets t root (.rename (.beneath src) (.beneath dst))
        (((t.set dir name none).set dir' name' (some id)).reparent id dir')

/-- A call on a name that is only looked at, beneath the root, or one that sets a name. Nothing is
said of the calls that neither make nor move a link. -/
def treePerform (root : Nat) : (c : PathCall) → Tree → PathAnswer c → Tree → Prop
  | .sys (.canonicalize _), t, _, t' => t' = t
  | .sys (.metadata (.beneath path)), t, answer, t' =>
    t' = t ∧ ∀ m, answer = .ok m →
      ∃ target, Leads (stepBeneath t root) (root, components path) target
  | .sys (.symlinkMetadata (.beneath path)), t, answer, t' =>
    t' = t ∧ ∀ m, answer = .ok m → namesDirectory path = false → ∀ dir name id,
      Names t root path dir name → t.lookup dir name = some id →
        m.isSymlink = (contentsOf t id).isSome
  | .readLink (.beneath path), t, answer, t' =>
    t' = t ∧ ∀ contents, answer = .ok contents → ∀ dir name id, Names t root path dir name →
      t.lookup dir name = some id → contentsOf t id = some contents
  | .symlink contents link, t, answer, t' =>
    (answer = .ok () ∧ Sets t root (.symlink contents link) t') ∨ (answer ≠ .ok () ∧ t' = t)
  | .hardLink src dst, t, answer, t' =>
    (answer = .ok () ∧ Sets t root (.hardLink src dst) t') ∨ (answer ≠ .ok () ∧ t' = t)
  | .rename src dst, t, answer, t' =>
    (answer = .ok () ∧ Sets t root (.rename src dst) t') ∨ (answer ≠ .ok () ∧ t' = t)
  | _, _, _, _ => True

/-- The tree as a system nobody else acts on, any of whose calls may fail. -/
def treeSystem (root : Nat) : System PathCall PathAnswer Tree where
  perform := treePerform root
  others _ _ := False

/-- A name was looked at in vain although something is there. -/
def Unseen (t : Tree) (root : Nat) : Told PathCall PathAnswer → Prop
  | ⟨.sys (.symlinkMetadata (.beneath path)), answer⟩ => (∃ e, answer = .error e) ∧
    ∃ dir name id, Names t root path dir name ∧ t.lookup dir name = some id
  | _ => False

/-- Whoever follows an entry that was not in its directory before ends inside the root, or where an
older entry of the same object led. -/
def NewNamesStay (root : Nat) (t t' : Tree) : Prop :=
  ∀ dir name id, t'.lookup dir name = some id → t.lookup dir name ≠ some id →
    ∀ target, Leads (step t') (dir, [.normal name]) target →
      Inside t' root target ∨ ∃ dir' name', t.lookup dir' name' = some id ∧
        Leads (step t) (dir', [.normal name']) target

variable {t t' : Tree} {root dir id link : Nat} {name : List UInt8} {path contents : PathBuf}

/-- What a link contains is what its node holds. -/
theorem contentsOf_eq_some : contentsOf t id = some contents ↔ t.node id = .link contents := by
  unfold contentsOf
  split
  · rename_i contents' hnode
    rw [hnode, Option.some_inj, Node.link.injEq]
  · rename_i hno
    simp only [reduceCtorEq, false_iff]
    exact hno contents

/-- The contents of links tell what `contentsOf` tells. -/
theorem contentsOf_congr
    (h : ∀ contents, t'.node id = .link contents ↔ t.node id = .link contents) :
    contentsOf t' id = contentsOf t id := by
  refine Option.ext fun contents => ?_
  exact contentsOf_eq_some.trans ((h contents).trans contentsOf_eq_some.symm)

/-! ### Names -/

private theorem Names.inside (ht : Sound t) (hroot : root < t.next)
    (h : Names t root path dir name) :
    Inside t root dir := by
  obtain ⟨before, -, hleads⟩ := h
  exact inside_of_leads ht hroot .base hleads

/-- A path names one entry. -/
theorem Names.unique {path' : PathBuf} {dir' : Nat} {name' : List UInt8}
    (h : Names t root path dir name)
    (h' : Names t root path' dir' name') (hparent : parent path = parent path') : dir' = dir := by
  obtain ⟨before, hparts, hleads⟩ := h
  obtain ⟨before', hparts', hleads'⟩ := h'
  have hbefore : before = before' := by
    simpa [parent, hparts, hparts'] using hparent
  subst hbefore
  exact leads_unique (fun _ _ hc => .inl hc) (stepBeneath_nil t root) (stepBeneath_nil t root)
    hleads hleads'

/-- What the confined walk of a name's directory and a link's contents reaches, the walk of the
contents reaches from the directory the name is in. -/
theorem Names.leads_contents (h : Names t root path dir name) (hdir : (t.node dir).isDir = true)
    (hcontents : isAbsolute contents = false) {target : Nat}
    (hleads : Leads (stepBeneath t root)
      (root, components (join (((parent path).map ofComponents).getD [46]) contents)) target) :
    Leads (stepBeneath t root) (dir, components contents) target := by
  obtain ⟨before, hparts, hbefore⟩ := h
  have hparent : parent path = some before := by simp [parent, hparts]
  rw [hparent, Option.map_some, Option.getD_some, components_join_ofComponents hparts hcontents]
    at hleads
  obtain ⟨mid, hmid, hrest⟩ := leads_append (stepBeneath_local t root) hleads
  obtain rfl := leads_unique (fun _ _ hc => .inl hc) (stepBeneath_nil t root)
    (stepBeneath_nil t root)
    hbefore hmid
  by_cases hnil : before = []
  · rwa [if_pos hnil] at hrest
  · rw [if_neg hnil] at hrest
    unfold components
    rw [if_neg (by simp [hcontents])]
    split
    · obtain ⟨n, hn⟩ := hrest
      refine ⟨n + 1, ?_⟩
      have hstays :
          stepBeneath t root (mid, .curDir :: body contents) = some (mid, body contents) := by
        cases hnode : t.node mid with
        | dir parent entries => simp [stepBeneath, step, hnode]
        | _ => simp [hnode, Node.isDir] at hdir
      rw [walk, hstays, Option.bind_some, hn]
    · exact hrest

/-- Contents that could be followed beneath the root are relative. -/
theorem relative_of_leads {before : PathBuf} {target : Nat}
    (h : Leads (stepBeneath t root) (root, components (join before contents)) target) :
    isAbsolute contents = false := by
  by_contra habs
  rw [Bool.not_eq_false] at habs
  obtain ⟨n, hn⟩ := h
  rw [join, if_pos habs, components_of_isAbsolute habs] at hn
  cases n with
  | zero => simp [walk] at hn
  | succ n => simp [walk, stepBeneath] at hn

/-! ### Following a name -/

/-- Following a name that is a link is walking its contents from the directory it is in. -/
theorem leads_link (hentry : t.lookup dir name = some link) (hnode : t.node link = .link contents)
    {target : Nat} : Leads (step t) (dir, [.normal name]) target ↔
      contents ≠ [] ∧ Leads (step t) (dir, components contents) target := by
  have hstep : step t (dir, [.normal name]) =
      if contents = [] then none else some (dir, components contents) := by
    rw [step, hentry]
    simp only [hnode, List.append_nil]
  constructor
  · rintro ⟨n, hn⟩
    cases n with
    | zero => simp [walk] at hn
    | succ n =>
      rw [walk, hstep] at hn
      split at hn
      · simp at hn
      · rename_i hne
        exact ⟨hne, n, hn⟩
  · rintro ⟨hne, n, hn⟩
    refine ⟨n + 1, ?_⟩
    rw [walk, hstep, if_neg hne, Option.bind_some, hn]

/-- Any other name leads to its object. -/
theorem leads_other (hentry : t.lookup dir name = some id) (hnode : contentsOf t id = none)
    {target : Nat} : Leads (step t) (dir, [.normal name]) target ↔ target = id := by
  have hstep : step t (dir, [.normal name]) = some (id, []) := by
    have hno : ∀ contents, t.node id ≠ .link contents := fun contents hlink =>
      absurd (contentsOf_eq_some.mpr hlink) (by simp [hnode])
    rw [step, hentry]
    simp only
  constructor
  · rintro ⟨n, hn⟩
    cases n with
    | zero => simp [walk] at hn
    | succ n =>
      rw [walk, hstep, Option.bind_some] at hn
      exact congrArg Prod.fst (walk_of_stuck (step_nil t id) hn).2
  · rintro rfl
    exact ⟨1, by rw [walk, hstep, Option.bind_some, walk]⟩

/-! ### Names that are set -/

/-- The contents of a link at a new name could be followed beneath the root, or lead from the old
name where they lead from the new one. -/
def Checked (t : Tree) (root dir id : Nat) (contents : PathBuf) : Prop :=
  (∃ found, Leads (stepBeneath t root) (dir, components contents) found) ∨
    ∃ dir' name', t.lookup dir' name' = some id ∧ t.node id = .link contents ∧ ∀ target,
      Leads (step t) (dir, components contents) target →
        Leads (step t) (dir', components contents) target

/-- One name that is set for a link that was checked. -/
theorem newNamesStay_of_link (ht : Sound t) (ht' : Sound t') (hroot : root < t'.next)
    (hadd : OnlyAdds t t' dir name) (hdir : dir < t.next) (hinside : Inside t' root dir)
    (hentry : t'.lookup dir name = some id) (hnode : t'.node id = .link contents)
    (hchecked : Checked t root dir id contents) : NewNamesStay root t t' := by
  intro dir' name' id' hfound hnew target hleads
  by_cases hsame : (dir', name') = (dir, name)
  · obtain ⟨rfl, rfl⟩ := Prod.mk.inj hsame
    obtain rfl := Option.some_inj.mp (hentry.symm.trans hfound)
    obtain ⟨hne, hleads⟩ := (leads_link hentry hnode).mp hleads
    rcases hchecked with ⟨found, hchecked⟩ | ⟨dir', name', hold, hnode', hway⟩
    · exact .inl (hadd.inside_of_checked ht ht' hroot hdir hinside hentry hnode hne hchecked hleads)
    · have hbefore := hadd.leads_before ht hdir hentry hnode hne hleads
      exact .inr ⟨dir', name', hold, (leads_link hold hnode').mpr ⟨hne, hway target hbefore⟩⟩
  · exact absurd (hadd.entry dir' name' id' hsame hfound) hnew

/-- One name that is set for another object that had a name. -/
theorem newNamesStay_of_other {dir' : Nat} {name' : List UInt8}
    (hadd : ∀ d n found, (d, n) ≠ (dir, name) → t'.lookup d n = some found →
      t.lookup d n = some found)
    (hentry : t'.lookup dir name = some id) (hnode : contentsOf t' id = none)
    (hold : t.lookup dir' name' = some id) (hnode' : contentsOf t id = none) :
    NewNamesStay root t t' := by
  intro d n found hfound hnew target hleads
  by_cases hsame : (d, n) = (dir, name)
  · obtain ⟨rfl, rfl⟩ := Prod.mk.inj hsame
    obtain rfl := Option.some_inj.mp (hentry.symm.trans hfound)
    rw [leads_other hentry hnode] at hleads
    exact .inr ⟨dir', name', hold, (leads_other hold hnode').mpr hleads⟩
  · exact absurd (hadd d n found hsame hfound) hnew

/-- A new link whose contents could be followed. -/
theorem newNamesStay_symlink (ht : Sound t) (hroot : root < t.next)
    (hlink : Names t root path dir name)
    (hdir : (t.node dir).isDir = true) (hfree : t.lookup dir name = none) {target : Nat}
    (hleads : Leads (stepBeneath t root)
      (root, components (join (((parent path).map ofComponents).getD [46]) contents)) target) :
    NewNamesStay root t ((t.create (.link contents)).set dir name (some t.next)) := by
  have hfile : (Node.link contents).isDir = false := rfl
  have hlt : dir < t.next := (hlink.inside ht hroot).lt ht hroot
  have hadd := (onlyAdds_set (t.create (.link contents)) dir name (some t.next)).of_create hfile
  have hself : (t.create (.link contents)).node t.next = .link contents :=
    Function.update_self _ _ _
  have hdir' : ((t.create (.link contents)).node dir).isDir = true := by
    rwa [node_create t _ (Nat.ne_of_lt hlt)]
  refine newNamesStay_of_link ht ?_ ?_ hadd hlt ?_ (lookup_set_self hdir')
    ((node_set_link t.next).mpr hself)
    (.inl ⟨target, hlink.leads_contents hdir (relative_of_leads hleads) hleads⟩)
  · refine (ht.create hfile).set fun found hfound => ?_
    obtain rfl := Option.some_inj.mp hfound
    exact ⟨Nat.lt_succ_self _, by rw [hself]; rfl⟩
  · rw [next_set]
    exact Nat.lt_succ_of_lt hroot
  · refine (hlink.inside ht hroot).of_dirs (fun id name' found hid hfound _ => ?_) hdir
    have hne : (id, name') ≠ (dir, name) := by
      intro hsame
      obtain ⟨rfl, rfl⟩ := Prod.mk.inj hsame
      exact absurd (hfree.symm.trans hfound) (by simp)
    rw [lookup_set_of_ne hne, Tree.lookup, node_create t _ (Nat.ne_of_lt (hid.lt ht hroot)),
      ← Tree.lookup,
      hfound]

/-- A second name for an object, checked when it is a link. -/
theorem newNamesStay_hardLink (ht : Sound t) (hroot : root < t.next) {dir' : Nat}
    {name' : List UInt8}
    (hdst : Names t root path dir' name') (hdir : (t.node dir').isDir = true)
    (hfound : t.lookup dir name = some id) (hlt : id < t.next) (hid : (t.node id).isDir = false)
    (hfree : t.lookup dir' name' = none)
    (hchecked : ∀ contents, t.node id = .link contents → Checked t root dir' id contents) :
    NewNamesStay root t (t.set dir' name' (some id)) := by
  have hadd := onlyAdds_set t dir' name' (some id)
  cases hnode : contentsOf t id with
  | none =>
    refine newNamesStay_of_other hadd.entry (lookup_set_self hdir) ?_ hfound hnode
    rw [contentsOf_congr fun _ => node_set_link id, hnode]
  | some contents =>
    rw [contentsOf_eq_some] at hnode
    refine newNamesStay_of_link ht ?_ ?_ hadd ((hdst.inside ht hroot).lt ht hroot) ?_
      (lookup_set_self hdir) ((node_set_link id).mpr hnode) (hchecked contents hnode)
    · refine ht.set fun found hsome => ?_
      obtain rfl := Option.some_inj.mp hsome
      exact ⟨hlt, hid⟩
    · rwa [next_set]
    · refine (hdst.inside ht hroot).of_dirs (fun d n found _ hentry _ => ?_) hdir
      have hne : (d, n) ≠ (dir', name') := by
        intro hsame
        obtain ⟨rfl, rfl⟩ := Prod.mk.inj hsame
        exact absurd (hfree.symm.trans hentry) (by simp)
      rw [lookup_set_of_ne hne, hentry]

/-- An object moved to another name, checked when it is a link. -/
theorem newNamesStay_rename (ht : Sound t) (hroot : root < t.next) {dir' : Nat} {name' : List UInt8}
    (hdst : Names t root path dir' name') (hdir : (t.node dir').isDir = true)
    (hfound : t.lookup dir name = some id) (hlt : id < t.next)
    (hold : ∀ old, t.lookup dir' name' = some old → (t.node old).isDir = (t.node id).isDir)
    (hchecked : ∀ contents, t.node id = .link contents → Checked t root dir' id contents) :
    NewNamesStay root t (((t.set dir name none).set dir' name' (some id)).reparent id dir') := by
  have hdir' : ((t.set dir name none).node dir').isDir = true := by rwa [isDir_set]
  have hadd := (onlyAdds_set (t.set dir name none) dir' name' (some id)).of_unset
  cases hnode : contentsOf t id with
  | none =>
    have hnames : ∀ d n found, (d, n) ≠ (dir', name') →
        (((t.set dir name none).set dir' name' (some id)).reparent id dir').lookup d n =
          some found →
        t.lookup d n = some found := by
      intro d n found hne hentry
      rw [lookup_reparent] at hentry
      exact hadd.entry d n found hne hentry
    refine newNamesStay_of_other hnames ?_ ?_ hfound hnode
    · rw [lookup_reparent, lookup_set_self hdir']
    · rw [contentsOf_congr fun _ => node_reparent_link dir' id,
        contentsOf_congr fun _ => node_set_link id,
        contentsOf_congr fun _ => node_set_link id, hnode]
  | some contents =>
    rw [contentsOf_eq_some] at hnode
    have hfile : (t.node id).isDir = false := by rw [hnode]; rfl
    rw [reparent_eq (by rwa [isDir_set, isDir_set])]
    refine newNamesStay_of_link ht ?_ ?_ hadd ((hdst.inside ht hroot).lt ht hroot) ?_
      (lookup_set_self hdir') ?_ (hchecked contents hnode)
    · refine (ht.set fun found hsome => ?_).set fun found hsome => ?_
      · exact absurd hsome (by simp)
      · obtain rfl := Option.some_inj.mp hsome
        rw [next_set, isDir_set]
        exact ⟨hlt, hfile⟩
    · rwa [next_set, next_set]
    · refine (hdst.inside ht hroot).of_dirs (fun d n found _ hentry hfoundDir => ?_) hdir
      have hne : (d, n) ≠ (dir', name') := by
        intro hsame
        obtain ⟨rfl, rfl⟩ := Prod.mk.inj hsame
        exact absurd ((hold found hentry).symm.trans hfoundDir) (by simp [hfile])
      have hne' : (d, n) ≠ (dir, name) := by
        intro hsame
        obtain ⟨rfl, rfl⟩ := Prod.mk.inj hsame
        obtain rfl := Option.some_inj.mp (hfound.symm.trans hentry)
        exact absurd hfoundDir (by simp [hfile])
      rw [lookup_set_of_ne hne, lookup_set_of_ne hne', hentry]
    · rw [node_set_link, node_set_link, hnode]

/-- The contents of a link at `path` can be followed beneath the root. -/
def TargetInside (t : Tree) (root : Nat) (path contents : PathBuf) : Prop :=
  ∃ target, Leads (stepBeneath t root)
    (root, components (join (((parent path).map ofComponents).getD [46]) contents)) target

/-- A link at `src` is absolute, stays in its directory, or can be followed from `dst`. -/
def StaysInside (t : Tree) (root : Nat) (src dst : PathBuf) : Prop :=
  ∀ dir name id contents, Names t root src dir name → t.lookup dir name = some id →
    t.node id = .link contents →
      isAbsolute contents = true ∨ parent src = parent dst ∨ TargetInside t root dst contents

/-- What was found of a link is what a walk through its new name needs. -/
theorem StaysInside.checked {src dst : PathBuf} {dir' : Nat} {name' : List UInt8}
    (h : StaysInside t root src dst) (hsrc : Names t root src dir name)
    (hdst : Names t root dst dir' name') (hdir : (t.node dir').isDir = true)
    (hfound : t.lookup dir name = some id) (hnode : t.node id = .link contents) :
    Checked t root dir' id contents := by
  rcases h dir name id contents hsrc hfound hnode with habs | hparent | ⟨target, hleads⟩
  · refine .inr ⟨dir, name, hfound, hnode, fun target hleads => ?_⟩
    obtain ⟨n, hn⟩ := hleads
    rw [components_of_isAbsolute habs] at hn ⊢
    cases n with
    | zero => simp [walk] at hn
    | succ n => exact ⟨n + 1, hn⟩
  · obtain rfl := hsrc.unique hdst hparent
    exact .inr ⟨_, name, hfound, hnode, fun target hleads => hleads⟩
  · exact .inl ⟨target, hdst.leads_contents hdir (relative_of_leads hleads) hleads⟩

/-- What was found before a name is set. -/
def FoundInside (t : Tree) (root : Nat) : PathCall → Prop
  | .symlink contents link => TargetInside t root link.path contents
  | .hardLink src dst | .rename src dst => StaysInside t root src.path dst.path
  | _ => True

/-- A name that is set after what it leads to was found inside keeps everybody inside. -/
theorem newNamesStay_of_sets (ht : Sound t) (hroot : root < t.next) {c : PathCall}
    (hfound : FoundInside t root c) (h : Sets t root c t') : NewNamesStay root t t' := by
  have hid : ∀ {path : PathBuf} {dir id : Nat} {name : List UInt8}, Names t root path dir name →
      t.lookup dir name = some id → id < t.next := fun hname hentry =>
    ht.entry _ _ _ ((hname.inside ht hroot).lt ht hroot) hentry
  cases h with
  | symlink hlink hdir hfree =>
    obtain ⟨target, hleads⟩ := hfound
    exact newNamesStay_symlink ht hroot hlink hdir hfree hleads
  | hardLink hsrc hdst hdir hentry hfile hfree =>
    exact newNamesStay_hardLink ht hroot hdst hdir hentry (hid hsrc hentry) hfile hfree
      fun contents hnode => StaysInside.checked hfound hsrc hdst hdir hentry hnode
  | renameSame => exact fun dir name id hentry hnew => absurd hentry hnew
  | rename hsrc hdst hdir hentry _ hold =>
    exact newNamesStay_rename ht hroot hdst hdir hentry (hid hsrc hentry) hold
      fun contents hnode => StaysInside.checked hfound hsrc hdst hdir hentry hnode

end TrantorCli.FsCore
