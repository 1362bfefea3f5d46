import Mathlib.Logic.Function.Basic
import TrantorCli.Lib.FileTree

/-!
# Changing a tree of names

Entries are set and taken away, and new objects are made. A walk that ends in the
changed tree took no step the tree before does not have, unless it went through
the entry that was set. It cannot come back to that entry when it starts there.
-/

open UnixPath

namespace FileTree

/-- The tree with another entry of a directory, or without it. -/
def Tree.set (t : Tree) (dir : Nat) (name : List UInt8) (child : Option Nat) : Tree :=
  match t.node dir with
  | .dir parent entries =>
    { t with node := Function.update t.node dir (.dir parent (Function.update entries name child)) }
  | _ => t

/-- The tree with another object, which nothing leads to yet. -/
def Tree.create (t : Tree) (new : Node) : Tree :=
  { t with node := Function.update t.node t.next new, next := t.next + 1 }

/-- The tree where a directory is below another parent. -/
def Tree.reparent (t : Tree) (id parent : Nat) : Tree :=
  match t.node id with
  | .dir _ entries => { t with node := Function.update t.node id (.dir parent entries) }
  | _ => t

/-- Whether an object is a directory. -/
def Node.isDir : Node → Bool
  | .dir _ _ => true
  | _ => false

/-- Everything a walk can use of `t'` it can use of `t`, but for one entry. -/
structure OnlyAdds (t t' : Tree) (dir : Nat) (name : List UInt8) : Prop where
  root : t'.root = t.root
  isDir : ∀ id parent entries, t'.node id = .dir parent entries →
    ∃ entries', t.node id = .dir parent entries'
  link : ∀ id < t.next, ∀ contents, t'.node id = .link contents ↔ t.node id = .link contents
  entry : ∀ id name' child, (id, name') ≠ (dir, name) → t'.lookup id name' = some child →
    t.lookup id name' = some child

variable {t t' : Tree} {dir base id link target : Nat} {name : List UInt8} {child : Option Nat}
  {contents : PathBuf}

/-! ### One change -/

/-- Only a directory has entries. -/
theorem exists_dir_of_lookup {found : Nat} (h : t.lookup id name = some found) :
    ∃ parent entries, t.node id = .dir parent entries ∧ entries name = some found := by
  unfold Tree.lookup at h
  split at h
  · rename_i parent entries hnode
    exact ⟨parent, entries, hnode, h⟩
  · exact absurd h (by simp)

private theorem lookup_set {parent : Nat} {entries : List UInt8 → Option Nat}
    (hdir : t.node dir = .dir parent entries) (id : Nat) (name' : List UInt8) :
    (t.set dir name child).lookup id name' =
      if (id, name') = (dir, name) then child else t.lookup id name' := by
  simp only [Tree.set, hdir, Tree.lookup, Prod.mk.injEq]
  by_cases hid : id = dir
  · subst hid
    simp only [Function.update_self, true_and]
    by_cases hname : name' = name
    · subst hname
      simp
    · simp [hname, hdir]
  · simp [hid]

/-- Another entry is as it was. -/
theorem lookup_set_of_ne {name' : List UInt8} (h : (id, name') ≠ (dir, name)) :
    (t.set dir name child).lookup id name' = t.lookup id name' := by
  cases hnode : t.node dir with
  | dir parent entries => rw [lookup_set hnode, if_neg h]
  | file => rw [Tree.set, hnode]
  | link contents => rw [Tree.set, hnode]

/-- The entry that was set is found. -/
theorem lookup_set_self (hdir : (t.node dir).isDir = true) :
    (t.set dir name child).lookup dir name = child := by
  cases hnode : t.node dir with
  | dir parent entries => rw [lookup_set hnode, if_pos rfl]
  | file => simp [hnode, Node.isDir] at hdir
  | link contents => simp [hnode, Node.isDir] at hdir

/-- Setting an entry changes no other object, and leaves the directory where it is. -/
theorem node_set (t : Tree) (dir : Nat) (name : List UInt8) (child : Option Nat) (id : Nat) :
    (t.set dir name child).node id = t.node id ∨ ∃ parent entries entries',
      t.node id = .dir parent entries ∧ (t.set dir name child).node id = .dir parent entries' := by
  unfold Tree.set
  split
  · rename_i parent entries hnode
    by_cases hid : id = dir
    · subst hid
      exact .inr ⟨parent, entries, _, hnode, Function.update_self _ _ _⟩
    · exact .inl (Function.update_of_ne hid _ _)
  · exact .inl rfl

/-- The root is as it was. -/
@[simp] theorem root_set : (t.set dir name child).root = t.root := by
  unfold Tree.set
  split <;> rfl

/-- No object is added. -/
@[simp] theorem next_set : (t.set dir name child).next = t.next := by
  unfold Tree.set
  split <;> rfl

/-- A link is as it was. -/
theorem node_set_link (id : Nat) :
    (t.set dir name child).node id = .link contents ↔ t.node id = .link contents := by
  rcases node_set t dir name child id with h | ⟨parent, entries, entries', h, h'⟩
  · rw [h]
  · simp [h, h']

private theorem dir_of_set {parent : Nat} {entries : List UInt8 → Option Nat}
    (h : (t.set dir name child).node id = .dir parent entries) :
    ∃ entries', t.node id = .dir parent entries' := by
  rcases node_set t dir name child id with hsame | ⟨parent', entries', entries'', hnode, hnode'⟩
  · exact ⟨entries, hsame ▸ h⟩
  · rw [h] at hnode'
    obtain ⟨rfl, -⟩ := Node.dir.inj hnode'
    exact ⟨entries', hnode⟩

/-- Setting an entry adds that entry at most. -/
theorem onlyAdds_set (t : Tree) (dir : Nat) (name : List UInt8) (child : Option Nat) :
    OnlyAdds t (t.set dir name child) dir name := by
  refine ⟨root_set, fun id parent entries h => dir_of_set h,
    fun id _ contents => node_set_link id, ?_⟩
  intro id name' found hne hfound
  rwa [lookup_set_of_ne hne] at hfound

/-- Taking an entry away first adds nothing. -/
theorem OnlyAdds.of_unset {other : Nat} {name' : List UInt8}
    (h : OnlyAdds (t.set other name' none) t' dir name) : OnlyAdds t t' dir name := by
  have hfirst := onlyAdds_set t other name' none
  refine ⟨h.root.trans hfirst.root, ?_, ?_, ?_⟩
  · intro id parent entries hnode
    obtain ⟨entries', hnode'⟩ := h.isDir id parent entries hnode
    exact hfirst.isDir id parent entries' hnode'
  · intro id hid contents
    exact (h.link id (by rwa [next_set]) contents).trans (hfirst.link id hid contents)
  · intro id name'' found hne hfound
    have hmid := h.entry id name'' found hne hfound
    by_cases hsame : (id, name'') = (other, name')
    · obtain ⟨rfl, rfl⟩ := Prod.mk.inj hsame
      obtain ⟨parent, entries, hnode, -⟩ := exists_dir_of_lookup hmid
      obtain ⟨entries', hnode'⟩ := dir_of_set hnode
      rw [lookup_set_self (by rw [hnode']; rfl)] at hmid
      exact absurd hmid (by simp)
    · exact hfirst.entry id name'' found hsame hmid

/-- What is made leaves the other objects as they are. -/
theorem node_create (t : Tree) (new : Node) (hid : id ≠ t.next) :
    (t.create new).node id = t.node id :=
  Function.update_of_ne hid _ _

/-- A new object is no directory that was there. -/
theorem ne_next_of_dir {new : Node} (hnew : new.isDir = false) {parent : Nat}
    {entries : List UInt8 → Option Nat} (h : (t.create new).node id = .dir parent entries) :
    id ≠ t.next := by
  rintro rfl
  have hself : (t.create new).node t.next = new := Function.update_self _ _ _
  rw [hself] at h
  exact absurd hnew (by simp [h, Node.isDir])

private theorem lookup_create {new : Node} (hnew : new.isDir = false) {found : Nat}
    (h : (t.create new).lookup id name = some found) :
    t.lookup id name = some found ∧ id ≠ t.next := by
  obtain ⟨parent, entries, hnode, hentry⟩ := exists_dir_of_lookup h
  have hne := ne_next_of_dir hnew hnode
  rw [node_create t new hne] at hnode
  exact ⟨by rwa [Tree.lookup, hnode], hne⟩

/-- Making an object first, which is no directory, adds nothing to what was there. -/
theorem OnlyAdds.of_create {new : Node} (hnew : new.isDir = false)
    (h : OnlyAdds (t.create new) t' dir name) : OnlyAdds t t' dir name := by
  refine ⟨h.root, ?_, ?_, ?_⟩
  · intro id parent entries hnode
    obtain ⟨entries', hnode'⟩ := h.isDir id parent entries hnode
    rw [node_create t new (ne_next_of_dir hnew hnode')] at hnode'
    exact ⟨entries', hnode'⟩
  · intro id hid contents
    rw [← node_create t new (Nat.ne_of_lt hid)]
    exact h.link id (Nat.lt_succ_of_lt hid) contents
  · intro id name' found hne hfound
    exact (lookup_create hnew (h.entry id name' found hne hfound)).1

/-- A directory stays one, and nothing becomes one. -/
theorem isDir_set (t : Tree) (dir : Nat) (name : List UInt8) (child : Option Nat) (id : Nat) :
    ((t.set dir name child).node id).isDir = (t.node id).isDir := by
  rcases node_set t dir name child id with h | ⟨parent, entries, entries', h, h'⟩
  · rw [h]
  · rw [h, h', Node.isDir, Node.isDir]

/-- Only a directory is put below a parent. -/
theorem reparent_eq (h : (t.node id).isDir = false) (parent : Nat) : t.reparent id parent = t := by
  unfold Tree.reparent
  split
  · rename_i hnode
    exact absurd h (by simp [hnode, Node.isDir])
  · rfl

/-- Entries are as they were. -/
@[simp] theorem lookup_reparent (parent found : Nat) :
    (t.reparent id parent).lookup found name = t.lookup found name := by
  unfold Tree.reparent
  split
  · rename_i entries hnode
    by_cases hid : found = id
    · subst hid
      simp [Tree.lookup, hnode]
    · simp [Tree.lookup, hid]
  · rfl

/-- A link is as it was, whatever is put below a parent. -/
theorem node_reparent_link (parent found : Nat) :
    (t.reparent id parent).node found = .link contents ↔ t.node found = .link contents := by
  unfold Tree.reparent
  split
  · rename_i entries hnode
    by_cases hid : found = id
    · subst hid
      simp [hnode]
    · simp [hid]
  · rfl

/-! ### What is sound stays so -/

/-- An entry for an object that is not a directory keeps the tree sound, and so does none. -/
theorem Sound.set (ht : Sound t) (hchild : ∀ found, child = some found →
    found < t.next ∧ (t.node found).isDir = false) : Sound (t.set dir name child) := by
  have hentry : ∀ id name' found, (t.set dir name child).lookup id name' = some found →
      child = some found ∨ t.lookup id name' = some found := by
    intro id name' found hfound
    by_cases hsame : (id, name') = (dir, name)
    · obtain ⟨rfl, rfl⟩ := Prod.mk.inj hsame
      obtain ⟨parent, entries, hnode, -⟩ := exists_dir_of_lookup hfound
      obtain ⟨entries', hnode'⟩ := dir_of_set hnode
      exact .inl (by rwa [lookup_set_self (by rw [hnode']; rfl)] at hfound)
    · exact .inr (by rwa [lookup_set_of_ne hsame] at hfound)
  refine ⟨by simpa using ht.root, ?_, ?_, ?_⟩
  · intro id parent entries hid hnode
    rw [next_set] at hid ⊢
    obtain ⟨entries', hnode'⟩ := dir_of_set hnode
    exact ht.parent id parent entries' hid hnode'
  · intro id name' found hid hfound
    rw [next_set] at hid ⊢
    rcases hentry id name' found hfound with hnew | hold
    · exact (hchild found hnew).1
    · exact ht.entry id name' found hid hold
  · intro id name' found parent entries hid hfound hnode
    rw [next_set] at hid
    obtain ⟨entries', hnode'⟩ := dir_of_set hnode
    rcases hentry id name' found hfound with hnew | hold
    · have hfile := (hchild found hnew).2
      rw [hnode'] at hfile
      exact absurd hfile (by simp [Node.isDir])
    · exact ht.child id name' found parent entries' hid hold hnode'

/-- A new object that is no directory keeps the tree sound. -/
theorem Sound.create (ht : Sound t) {new : Node} (hnew : new.isDir = false) :
    Sound (t.create new) := by
  have hlookup : ∀ id name found, id < (t.create new).next →
      (t.create new).lookup id name = some found → id < t.next ∧ t.lookup id name = some found := by
    intro id name found hid hfound
    obtain ⟨hfound, hne⟩ := lookup_create hnew hfound
    exact ⟨Nat.lt_of_le_of_ne (Nat.le_of_lt_succ hid) hne, hfound⟩
  refine ⟨Nat.lt_succ_of_lt ht.root, ?_, ?_, ?_⟩
  · intro id parent entries hid hnode
    have hne := ne_next_of_dir hnew hnode
    rw [node_create t new hne] at hnode
    exact Nat.lt_succ_of_lt
      (ht.parent id _ _ (Nat.lt_of_le_of_ne (Nat.le_of_lt_succ hid) hne) hnode)
  · intro id name found hid hfound
    obtain ⟨hlt, hfound⟩ := hlookup id name found hid hfound
    exact Nat.lt_succ_of_lt (ht.entry id name found hlt hfound)
  · intro id name found parent entries hid hfound hnode
    obtain ⟨hlt, hfound⟩ := hlookup id name found hid hfound
    rw [node_create t new (ne_next_of_dir hnew hnode)] at hnode
    exact ht.child id name found parent entries hlt hfound hnode

/-- A directory stays inside as long as the entries of directories stay. -/
theorem Inside.of_dirs (hkeep : ∀ id name found, Inside t base id → t.lookup id name = some found →
      (t.node found).isDir = true → t'.lookup id name = some found)
    (h : Inside t base id) (hdir : (t.node id).isDir = true) : Inside t' base id := by
  induction h with
  | base => exact .base
  | @entry id name child h hentry ih =>
    obtain ⟨parent, entries, hnode, -⟩ := exists_dir_of_lookup hentry
    exact .entry (ih (by rw [hnode]; rfl)) (hkeep _ _ _ h hentry hdir)

/-! ### Walks in the changed tree -/

/-- A step that does not use the entry that was set was there before. -/
theorem OnlyAdds.step {c c' : Walk} (h : OnlyAdds t t' dir name) (ht : Sound t) (hc : c.1 < t.next)
    (hother : ∀ rest, c ≠ (dir, .normal name :: rest)) (hstep : step t' c = some c') :
    step t c = some c' ∧ c'.1 < t.next := by
  obtain ⟨id, parts⟩ := c
  cases parts with
  | nil => exact absurd hstep (by simp)
  | cons part rest =>
    cases part with
    | rootDir =>
      rw [FileTree.step, h.root] at hstep
      obtain rfl := Option.some_inj.mp hstep
      exact ⟨rfl, ht.root⟩
    | curDir =>
      rw [FileTree.step] at hstep ⊢
      split at hstep
      · rename_i parent entries hnode
        obtain ⟨entries', hnode'⟩ := h.isDir id parent entries hnode
        obtain rfl := Option.some_inj.mp hstep
        rw [hnode']
        exact ⟨rfl, hc⟩
      · exact absurd hstep (by simp)
    | parentDir =>
      rw [FileTree.step] at hstep ⊢
      split at hstep
      · rename_i parent entries hnode
        obtain ⟨entries', hnode'⟩ := h.isDir id parent entries hnode
        obtain rfl := Option.some_inj.mp hstep
        rw [hnode']
        exact ⟨rfl, ht.parent id parent entries' hc hnode'⟩
      · exact absurd hstep (by simp)
    | normal name' =>
      rw [FileTree.step] at hstep ⊢
      cases hchild : t'.lookup id name' with
      | none => simp [hchild] at hstep
      | some found =>
        have hne : (id, name') ≠ (dir, name) := by
          intro hsame
          obtain ⟨rfl, rfl⟩ := Prod.mk.inj hsame
          exact hother rest rfl
        have hfound := h.entry id name' found hne hchild
        have hlt := ht.entry id name' found hc hfound
        have hkinds := h.link found hlt
        rw [hchild] at hstep
        rw [hfound]
        simp only at hstep ⊢
        cases hnode : t.node found with
        | link contents =>
          rw [(hkinds contents).mpr hnode] at hstep
          simp only at hstep ⊢
          refine ⟨hstep, ?_⟩
          split at hstep
          · exact absurd hstep (by simp)
          · obtain rfl := Option.some_inj.mp hstep
            exact hc
        | _ =>
          have hno : ∀ contents, t'.node found ≠ .link contents := fun contents hlink =>
            absurd (hnode.symm.trans ((hkinds contents).mp hlink)) (by simp)
          simp only at hstep ⊢
          obtain rfl := Option.some_inj.mp hstep
          exact ⟨rfl, hlt⟩

/-- A walk from the entry that was set, which is a link, went the same way before. -/
theorem OnlyAdds.walk_before (h : OnlyAdds t t' dir name) (ht : Sound t) (hdir : dir < t.next)
    (hentry : t'.lookup dir name = some link) (hnode : t'.node link = .link contents)
    (hne : contents ≠ []) {n : Nat}
    (hwalk : walk (FileTree.step t') n (dir, components contents) = some (target, [])) :
    ∀ m ≤ n, ∃ c, walk (FileTree.step t') m (dir, components contents) = some c ∧
      walk (FileTree.step t) m (dir, components contents) = some c ∧ c.1 < t.next := by
  intro m
  induction m with
  | zero => exact fun _ => ⟨_, rfl, rfl, hdir⟩
  | succ m ih =>
    intro hm
    obtain ⟨c, hc, hbefore, hlt⟩ := ih (Nat.le_of_succ_le hm)
    obtain ⟨c', hc', -⟩ := walk_of_le hm hwalk
    have hstep := hc'
    rw [walk_succ, hc, Option.bind_some] at hstep
    have hother : ∀ rest, c ≠ (dir, .normal name :: rest) := by
      rintro rest rfl
      have hagain : FileTree.step t' (dir, .normal name :: rest) =
          some (dir, components contents ++ rest) := by
        rw [FileTree.step, hentry]
        simp only [hnode, if_neg hne]
      obtain rfl := Option.some_inj.mp (hagain.symm.trans hstep)
      exact not_comes_back (step_local t') (step_nil t') hwalk hm hc'
    obtain ⟨hstep', hlt'⟩ := h.step ht hlt hother hstep
    refine ⟨c', hc', ?_, hlt'⟩
    rw [walk_succ, hbefore, Option.bind_some, hstep']

/-- Where a link leads once it is set, it led before. -/
theorem OnlyAdds.leads_before (h : OnlyAdds t t' dir name) (ht : Sound t) (hdir : dir < t.next)
    (hentry : t'.lookup dir name = some link) (hnode : t'.node link = .link contents)
    (hne : contents ≠ [])
    (hleads : Leads (FileTree.step t') (dir, components contents) target) :
    Leads (FileTree.step t) (dir, components contents) target := by
  obtain ⟨n, hn⟩ := hleads
  obtain ⟨c, hc, hbefore, -⟩ := h.walk_before ht hdir hentry hnode hne hn n (Nat.le_refl n)
  obtain rfl := Option.some_inj.mp (hc.symm.trans hn)
  exact ⟨n, hbefore⟩

/-- Where the confined walk went before and the kernel goes now, the confined walk goes now. -/
theorem stepBeneath_of_step {c c' : Walk} (hbefore : stepBeneath t base c = some c')
    (hnow : step t' c = some c') : stepBeneath t' base c = some c' := by
  obtain ⟨id, parts⟩ := c
  cases parts with
  | nil => exact absurd hnow (by simp)
  | cons part rest =>
    cases part with
    | rootDir => exact absurd hbefore (by simp [stepBeneath])
    | curDir => exact hnow
    | parentDir =>
      rw [stepBeneath] at hbefore ⊢
      split at hbefore
      · exact absurd hbefore (by simp)
      · rename_i hbase
        rwa [if_neg hbase]
    | normal name =>
      rw [step] at hnow
      rw [stepBeneath]
      split at hnow
      · exact absurd hnow (by simp)
      · split at hnow
        · split at hnow
          · exact absurd hnow (by simp)
          · exact hnow
        · exact hnow

/-- A link whose contents the confined walk could follow leads whoever follows it to what is
inside. -/
theorem OnlyAdds.inside_of_checked (h : OnlyAdds t t' dir name) (ht : Sound t) (ht' : Sound t')
    (hbase : base < t'.next) (hdir : dir < t.next) (hinside : Inside t' base dir)
    (hentry : t'.lookup dir name = some link) (hnode : t'.node link = .link contents)
    (hne : contents ≠ []) {found : Nat}
    (hchecked : Leads (stepBeneath t base) (dir, components contents) found)
    (hleads : Leads (FileTree.step t') (dir, components contents) target) :
    Inside t' base target := by
  obtain ⟨n, hn⟩ := hleads
  have hway := h.walk_before ht hdir hentry hnode hne hn
  have hall : ∀ m ≤ n, ∀ c, walk (FileTree.step t') m (dir, components contents) = some c →
      Leads (stepBeneath t base) c found ∧ Inside t' base c.1 := by
    intro m
    induction m with
    | zero =>
      intro _ c hc
      obtain rfl := Option.some_inj.mp hc
      exact ⟨hchecked, hinside⟩
    | succ m ih =>
      intro hm c' hc'
      obtain ⟨c, hc, hbefore, -⟩ := hway m (Nat.le_of_succ_le hm)
      obtain ⟨⟨k, hk⟩, hin⟩ := ih (Nat.le_of_succ_le hm) c hc
      obtain ⟨d, hd, hbefore', -⟩ := hway (m + 1) hm
      have hd' : d = c' := Option.some_inj.mp (hd.symm.trans hc')
      rw [walk_succ, hc, Option.bind_some, hd'] at hd
      rw [walk_succ, hbefore, Option.bind_some, hd'] at hbefore'
      cases k with
      | zero =>
        obtain rfl := Option.some_inj.mp hk
        exact absurd hd (by simp)
      | succ k =>
        rw [walk] at hk
        obtain ⟨e, hconfined, hrest⟩ := Option.bind_eq_some_iff.mp hk
        have hsame : e = c' := by
          rcases step_of_stepBeneath hconfined with hgoes | hstops
          · exact Option.some_inj.mp (hgoes.symm.trans hbefore')
          · exact absurd hbefore' (by simp [hstops])
        rw [hsame] at hconfined hrest
        exact ⟨⟨k, hrest⟩, inside_of_stepBeneath ht' hbase hin
          (stepBeneath_of_step hconfined hd)⟩
  exact (hall n (Nat.le_refl n) _ hn).2

end FileTree
