import TrantorCli.Lib.UnixPath

/-!
# Walking a tree of names

Directories, files and symbolic links, and how a path is walked from a directory:
a link is replaced by its contents. A walk confined to a directory gives up where
it would leave it. Both walks are steps of what is left to be walked, so that
where they end is determined and can be followed step by step.
-/

open UnixPath

namespace FileTree

/-- What stands behind a name. -/
inductive Node where
  | dir (parent : Nat) (entries : List UInt8 → Option Nat)
  | file
  | link (contents : PathBuf)

/-- A filesystem. Identities from `next` on are not used yet. -/
structure Tree where
  node : Nat → Node
  root : Nat
  next : Nat

/-- The entry of a directory. -/
def Tree.lookup (t : Tree) (id : Nat) (name : List UInt8) : Option Nat :=
  match t.node id with
  | .dir _ entries => entries name
  | _ => none

/-- Every entry is in use, and every directory but the root is below its parent alone. -/
structure Sound (t : Tree) : Prop where
  root : t.root < t.next
  parent : ∀ id parent entries, id < t.next → t.node id = .dir parent entries → parent < t.next
  entry : ∀ id name child, id < t.next → t.lookup id name = some child → child < t.next
  child : ∀ id name child parent entries, id < t.next → t.lookup id name = some child →
    t.node child = .dir parent entries → parent = id

/-- Where a walk is, and what is left of the path. -/
abbrev Walk := Nat × List Component

/-- The walk of the kernel: an empty link leads nowhere. -/
def step (t : Tree) : Walk → Option Walk
  | (_, []) => none
  | (_, .rootDir :: rest) => some (t.root, rest)
  | (id, .curDir :: rest) =>
    match t.node id with
    | .dir _ _ => some (id, rest)
    | _ => none
  | (id, .parentDir :: rest) =>
    match t.node id with
    | .dir parent _ => some (parent, rest)
    | _ => none
  | (id, .normal name :: rest) =>
    match t.lookup id name with
    | none => none
    | some child =>
      match t.node child with
      | .link contents => if contents = [] then none else some (id, components contents ++ rest)
      | _ => some (child, rest)

/-- The walk beneath a directory: it neither starts again at the root nor leaves the directory, and
an empty link leads to the directory it is in. -/
def stepBeneath (t : Tree) (base : Nat) : Walk → Option Walk
  | (_, .rootDir :: _) => none
  | (id, .parentDir :: rest) => if id = base then none else step t (id, .parentDir :: rest)
  | (id, .normal name :: rest) =>
    match t.lookup id name with
    | none => none
    | some child =>
      match t.node child with
      | .link contents => some (id, components contents ++ rest)
      | _ => some (child, rest)
  | c => step t c

/-- `n` steps of a walk. -/
def walk (f : Walk → Option Walk) : Nat → Walk → Option Walk
  | 0, c => some c
  | n + 1, c => (f c).bind (walk f n)

/-- The path is walked to its end, which is `target`. -/
def Leads (f : Walk → Option Walk) (c : Walk) (target : Nat) : Prop :=
  ∃ n, walk f n c = some (target, [])

/-- What is reached from a directory by names alone. -/
inductive Inside (t : Tree) (base : Nat) : Nat → Prop where
  | base : Inside t base base
  | entry {id : Nat} {name : List UInt8} {child : Nat} (h : Inside t base id)
      (hentry : t.lookup id name = some child) : Inside t base child

/-! ### Walks -/

section Walks

variable {f g : Walk → Option Walk} {c d : Walk} {m n : Nat}

private theorem walk_add (f : Walk → Option Walk) (m n : Nat) (c : Walk) :
    walk f (m + n) c = (walk f m c).bind (walk f n) := by
  induction m generalizing c with
  | zero => rw [Nat.zero_add, walk, Option.bind_some]
  | succ m ih =>
    rw [Nat.succ_add, walk, walk]
    cases f c with
    | none => rfl
    | some c' => exact ih c'

/-- One step more, at the end. -/
theorem walk_succ (f : Walk → Option Walk) (n : Nat) (c : Walk) :
    walk f (n + 1) c = (walk f n c).bind f := by
  rw [walk_add]
  refine congrArg ((walk f n c).bind ·) (funext fun d => ?_)
  rw [walk]
  cases f d <;> rfl

/-- A walk that has ended takes no step. -/
theorem walk_of_stuck (hc : f c = none) (h : walk f n c = some d) : n = 0 ∧ d = c := by
  cases n with
  | zero => exact ⟨rfl, (Option.some_inj.mp h).symm⟩
  | succ n => simp [walk, hc] at h

/-- What is on the way of a walk to its end. -/
theorem walk_of_le (hmn : m ≤ n) (h : walk f n c = some d) :
    ∃ e, walk f m c = some e ∧ walk f (n - m) e = some d := by
  obtain ⟨k, rfl⟩ := Nat.exists_eq_add_of_le hmn
  rw [walk_add] at h
  obtain ⟨e, he, hd⟩ := Option.bind_eq_some_iff.mp h
  exact ⟨e, he, by rwa [Nat.add_sub_cancel_left]⟩

/-- Where one walk goes the other goes too or stops, so both end in one place. -/
theorem leads_unique (hfg : ∀ c c', f c = some c' → g c = some c' ∨ g c = none)
    (hf : ∀ id, f (id, []) = none) (hg : ∀ id, g (id, []) = none) {target target' : Nat}
    (h : Leads f c target) (h' : Leads g c target') : target' = target := by
  obtain ⟨n, hn⟩ := h
  obtain ⟨m, hm⟩ := h'
  induction n generalizing c m with
  | zero =>
    obtain rfl : c = (target, []) := Option.some_inj.mp hn
    have hend := (walk_of_stuck (hg _) hm).2
    exact congrArg Prod.fst hend
  | succ n ih =>
    rw [walk] at hn
    obtain ⟨c', hc', hn⟩ := Option.bind_eq_some_iff.mp hn
    cases m with
    | zero =>
      obtain rfl : c = (target', []) := Option.some_inj.mp hm
      exact absurd hc' (by simp [hf])
    | succ m =>
      rw [walk] at hm
      obtain ⟨c'', hc'', hm⟩ := Option.bind_eq_some_iff.mp hm
      rcases hfg c c' hc' with hsame | hstop
      · obtain rfl := Option.some_inj.mp (hsame.symm.trans hc'')
        exact ih hn m hm
      · exact absurd hc'' (by simp [hstop])

/-- A walk that only looks at the first component of what is left. -/
def Local (f : Walk → Option Walk) : Prop :=
  ∀ id part rest tail, f (id, part :: rest ++ tail) =
    (f (id, part :: rest)).map fun c => (c.1, c.2 ++ tail)

/-- A path is walked to its end by walking its first part to its end, and then the rest. -/
theorem walk_of_append (hf : Local f) {id target : Nat} {before after : List Component}
    (h : walk f n (id, before ++ after) = some (target, [])) :
    ∃ mid k m, walk f k (id, before) = some (mid, []) ∧ walk f m (mid, after) = some (target, []) ∧
      k + m = n := by
  induction n generalizing id before with
  | zero =>
    simp only [walk, Option.some_inj, Prod.mk.injEq, List.append_eq_nil_iff] at h
    obtain ⟨rfl, rfl, rfl⟩ := h
    exact ⟨id, 0, 0, rfl, rfl, rfl⟩
  | succ n ih =>
    cases before with
    | nil => exact ⟨id, 0, n + 1, rfl, h, Nat.zero_add _⟩
    | cons part rest =>
      rw [walk, hf] at h
      obtain ⟨c', hc', hn⟩ := Option.bind_eq_some_iff.mp h
      obtain ⟨⟨id', rest'⟩, hstep, rfl⟩ := Option.map_eq_some_iff.mp hc'
      obtain ⟨mid, k, m, hk, hm, hsum⟩ := ih hn
      exact ⟨mid, k + 1, m, by rw [walk, hstep, Option.bind_some, hk], hm, by omega⟩

/-- A path is followed up to the middle and from there on. -/
theorem leads_append (hf : Local f) {id target : Nat} {before after : List Component}
    (h : Leads f (id, before ++ after) target) :
    ∃ mid, Leads f (id, before) mid ∧ Leads f (mid, after) target := by
  obtain ⟨n, hn⟩ := h
  obtain ⟨mid, k, m, hk, hm, -⟩ := walk_of_append hf hn
  exact ⟨mid, ⟨k, hk⟩, ⟨m, hm⟩⟩

/-- A walk that ends takes a fixed number of steps. -/
theorem walk_length (hend : ∀ id, f (id, []) = none) {target target' : Nat}
    (h : walk f n c = some (target, [])) (h' : walk f m c = some (target', [])) : m = n := by
  rcases Nat.le_total m n with hmn | hnm
  · obtain ⟨e, he, hrest⟩ := walk_of_le hmn h
    obtain rfl := Option.some_inj.mp (h'.symm.trans he)
    have hzero := (walk_of_stuck (hend _) hrest).1
    omega
  · obtain ⟨e, he, hrest⟩ := walk_of_le hnm h'
    obtain rfl := Option.some_inj.mp (h.symm.trans he)
    have hzero := (walk_of_stuck (hend _) hrest).1
    omega

/-- A walk that ends does not come back to where all of it is still to be walked. -/
theorem not_comes_back (hf : Local f) (hend : ∀ id, f (id, []) = none) {id target : Nat}
    {parts rest : List Component} (h : walk f n (id, parts) = some (target, [])) (hm : m < n)
    (hback : walk f (m + 1) (id, parts) = some (id, parts ++ rest)) : False := by
  obtain ⟨e, he, hrest⟩ := walk_of_le (Nat.succ_le_of_lt hm) h
  obtain rfl := Option.some_inj.mp (hback.symm.trans he)
  obtain ⟨mid, k, j, hk, -, hsum⟩ := walk_of_append hf hrest
  have hlength := walk_length hend h hk
  omega

end Walks

/-! ### The two walks -/

variable {t t' : Tree} {base id : Nat}

/-- A step is local. -/
theorem step_local (t : Tree) : Local (step t) := by
  intro id part rest tail
  cases part with
  | rootDir => rfl
  | curDir =>
    rw [List.cons_append, step, step]
    split <;> rfl
  | parentDir =>
    rw [List.cons_append, step, step]
    split <;> rfl
  | normal name =>
    rw [List.cons_append, step, step]
    split
    · rfl
    · split
      · split <;> simp
      · rfl

/-- A step beneath a base is local. -/
theorem stepBeneath_local (t : Tree) (base : Nat) : Local (stepBeneath t base) := by
  intro id part rest tail
  cases part with
  | rootDir => rfl
  | curDir => exact step_local t id .curDir rest tail
  | parentDir =>
    rw [List.cons_append, stepBeneath, stepBeneath]
    split
    · rfl
    · exact step_local t id .parentDir rest tail
  | normal name =>
    rw [List.cons_append, stepBeneath, stepBeneath]
    split
    · rfl
    · split <;> simp

/-- No step is taken at the end. -/
@[simp] theorem step_nil (t : Tree) (id : Nat) : step t (id, []) = none := rfl

/-- Nor beneath a base. -/
@[simp] theorem stepBeneath_nil (t : Tree) (base id : Nat) :
    stepBeneath t base (id, []) = none := rfl

/-- Where the confined walk goes the kernel goes too, or stops at an empty link. -/
theorem step_of_stepBeneath {c c' : Walk} (h : stepBeneath t base c = some c') :
    step t c = some c' ∨ step t c = none := by
  obtain ⟨id, parts⟩ := c
  cases parts with
  | nil => exact absurd h (by simp)
  | cons part rest =>
    cases part with
    | rootDir => exact absurd h (by simp [stepBeneath])
    | curDir => exact .inl h
    | parentDir =>
      rw [stepBeneath] at h
      split at h
      · exact absurd h (by simp)
      · exact .inl h
    | normal name =>
      rw [stepBeneath] at h
      rw [step]
      split at h
      · exact absurd h (by simp)
      · split at h
        · split
          · exact .inr rfl
          · exact .inl h
        · exact .inl h

/-- What is inside is in use. -/
theorem Inside.lt (ht : Sound t) (hbase : base < t.next) (h : Inside t base id) : id < t.next := by
  induction h with
  | base => exact hbase
  | entry _ hentry ih => exact ht.entry _ _ _ ih hentry

/-- The confined walk stays inside the directory. -/
theorem inside_of_stepBeneath (ht : Sound t) (hbase : base < t.next) {c c' : Walk}
    (hc : Inside t base c.1) (h : stepBeneath t base c = some c') : Inside t base c'.1 := by
  obtain ⟨id, parts⟩ := c
  cases parts with
  | nil => exact absurd h (by simp)
  | cons part rest =>
    cases part with
    | rootDir => exact absurd h (by simp [stepBeneath])
    | curDir =>
      rw [stepBeneath, step] at h
      · split at h
        · obtain rfl := Option.some_inj.mp h
          exact hc
        · exact absurd h (by simp)
      all_goals simp
    | parentDir =>
      rw [stepBeneath] at h
      split at h
      · exact absurd h (by simp)
      · rename_i hne
        rw [step] at h
        split at h
        · rename_i parent entries hnode
          obtain rfl := Option.some_inj.mp h
          cases hc with
          | base => exact absurd rfl hne
          | entry hid hentry =>
            have hparent := ht.child _ _ _ _ _ (hid.lt ht hbase) hentry hnode
            exact hparent ▸ hid
        · exact absurd h (by simp)
    | normal name =>
      rw [stepBeneath] at h
      split at h
      · exact absurd h (by simp)
      · rename_i child hchild
        split at h
        · obtain rfl := Option.some_inj.mp h
          exact hc
        · obtain rfl := Option.some_inj.mp h
          exact .entry hc hchild

/-- Where the confined walk ends is inside. -/
theorem inside_of_leads (ht : Sound t) (hbase : base < t.next) {c : Walk} {target : Nat}
    (hc : Inside t base c.1) (h : Leads (stepBeneath t base) c target) : Inside t base target := by
  obtain ⟨n, hn⟩ := h
  induction n generalizing c with
  | zero =>
    obtain rfl := Option.some_inj.mp hn
    exact hc
  | succ n ih =>
    rw [walk] at hn
    obtain ⟨c', hstep, hn⟩ := Option.bind_eq_some_iff.mp hn
    exact ih (inside_of_stepBeneath ht hbase hc hstep) hn

end FileTree
