import TrantorCli.FsCore.LinkTree
import TrantorCli.Lib.UnixPath.Trailing

/-!
# Links that are made and moved beneath a root

A link is only made, renamed or given another name beneath a confined root when
what it leads to from its new place is inside. Those who follow it later, without
being confined, are kept inside too.
-/

open FileTree Interaction UnixPath

namespace TrantorCli.FsCore

/-- The operations that set a name for a link. -/
inductive LinkOp where
  | symlink (target name : PathBuf)
  | link (src dst : PathBuf)
  | rename (src dst : PathBuf)

/-- The operation against a descriptor. -/
def LinkOp.perform (r : Root) (d : Desc) : LinkOp → Fallible PathCall PathAnswer IOErr Unit
  | .symlink target name => symlinkAt r d target name
  | .link src dst => linkAt r d src dst
  | .rename src dst => renameAt r d src dst

/-- The name that is linked to or renamed does not end in `/` or `/.`. -/
def LinkOp.PlainSource (r : Root) (d : Desc) : LinkOp → Prop
  | .symlink _ _ => True
  | .link src _ | .rename src _ => ∀ dir, dirOf r d = .ok dir →
    namesDirectory (if isAbsolute src then src else join dir src) = false

/-- The call only looks at names beneath the root. -/
def PathCall.Looks : PathCall → Prop
  | .sys (.canonicalize _) | .sys (.metadata (.beneath _)) | .sys (.symlinkMetadata (.beneath _))
  | .readLink (.beneath _) => True
  | _ => False

variable {t t' : Tree} {root : Nat}

/-- The tree as long as nothing that is in `t` is looked at in vain. -/
abbrev seeing (root : Nat) (t : Tree) : System PathCall PathAnswer Tree :=
  (treeSystem root).unless (Unseen t root)

private theorem eq_of_looks {start : Tree} (c : PathCall) (t : Tree) (reply : PathAnswer c)
    (t' : Tree)
    (hc : c.Looks) (hperform : (seeing root start).perform c t reply t') : t' = t := by
  have h : treePerform root c t reply t' := hperform.1
  cases c with
  | sys c =>
    cases c with
    | canonicalize path => exact h
    | metadata tg =>
      cases tg with
      | ambient path => exact absurd hc id
      | beneath path => exact h.1
    | symlinkMetadata tg =>
      cases tg with
      | ambient path => exact absurd hc id
      | beneath path => exact h.1
    | _ => exact absurd hc id
  | readLink tg =>
    cases tg with
    | ambient path => exact absurd hc id
    | beneath path => exact h.1
  | _ => exact absurd hc id

/-! ### What is resolved -/

variable {opened : Except IoError PlainPath} {d : Desc} {path : PathBuf}

/-- What the walk finds is rebuilt of inner components. -/
theorem yields_aliasedRest (cand : PathBuf) (canonicalBase : PlainPath) :
    (aliasedRest cand canonicalBase).Yields
      fun found => ∀ rest, found = some rest → ∃ parts, Spells rest parts := by
  refine Program.Yields.interp _ ?_
  have hwalk : ∀ ks : List Nat, (∀ k ∈ ks, 1 ≤ k) →
      (aliasedRestByFrom (ε := IoError) (components cand) canonicalBase.bytes ks).Yields
        fun found => ∀ rest, found = some rest → ∃ parts, Spells rest parts := by
    intro ks hks
    induction ks with
    | nil =>
      rintro _ ⟨⟩
    | cons k ks ih =>
      rw [aliasedRestByFrom]
      refine Program.Yields.bind (Program.yields_true _) fun answer _ => ?_
      cases answer with
      | error e =>
        rintro _ ⟨⟩
      | ok resolved =>
        simp only
        split
        · rintro _ ⟨⟩
          exact ⟨_, spells_ofComponents fun part hpart =>
            inner_of_mem_drop_components (hks k List.mem_cons_self) hpart⟩
        · exact ih fun k' hk' => hks k' (List.mem_cons_of_mem k hk')
  exact hwalk _ fun k hk => (List.mem_range'_1.mp hk).1

private theorem yields_ofProgram {α : Type} {Q : α → Prop} {p : Program Call Answer α}
    (h : p.Yields Q) :
    Fallible.Yields Q (Sys.ofProgram p) :=
  h.bind fun a ha => by
    rintro _ ⟨⟩
    exact ha

/-- What is left after the root has no mark at its end. -/
theorem yields_restOfRoot (base : AbsPath) (cand : PathBuf) :
    Fallible.Yields (fun rest => ∃ parts, Spells rest parts) (restOfRoot base cand) := by
  have hstrip : ∀ {base : AbsPath} {rest : PathBuf}, stripPrefix cand base = some rest →
      ∃ parts, Spells rest parts := by
    intro base rest hrest
    obtain ⟨parts, -, hspells⟩ := stripPrefix_eq_some hrest
    exact ⟨parts, hspells⟩
  unfold restOfRoot
  split
  · rename_i rest hrest
    exact Fallible.yields_pure (hstrip hrest)
  · refine Fallible.yields_bind (Fallible.yields_true _) fun canonicalBase _ => ?_
    split
    · rename_i rest hrest
      exact Fallible.yields_pure (hstrip hrest)
    · refine Fallible.yields_bind (yields_ofProgram (yields_aliasedRest cand canonicalBase))
        fun found hfound => ?_
      split
      · exact Fallible.yields_pure (hfound _ rfl)
      · exact Fallible.yields_throw _

/-- Where the candidate does not ask for a directory, neither does what it is rewritten to. -/
theorem yields_relativeToRoot (base : AbsPath) (cand : PathBuf)
    (hcand : namesDirectory cand = false) :
    Fallible.Yields (fun rel => namesDirectory rel = false) (relativeToRoot base cand) := by
  refine Fallible.yields_bind (yields_restOfRoot base cand) fun rest hrest =>
    Fallible.yields_pure ?_
  obtain ⟨parts, hspells⟩ := hrest
  obtain ⟨bare, marks, hbare, rfl⟩ := exists_bare cand
  have hkept : Bare (if rest = [] then [46] else rest) := by
    split
    · exact ⟨by decide, by decide⟩
    · exact hspells.bare
  have hmarks : marks = [] := by
    by_contra hne
    exact absurd ((namesDirectory_append_trail hbare marks).mpr hne) (by simp [hcand])
  subst hmarks
  have hplain := namesDirectory_append_trail hkept []
  rw [trailingSpelling_append_trail hbare]
  simpa [collapse] using hplain

/-- What a confined root resolves to is beneath it. -/
theorem yields_resolve (dir : PathBuf) : Fallible.Yields (fun tg => ∃ rel, tg = .beneath rel ∧
    (namesDirectory (if isAbsolute path then path else join dir path) = false →
      namesDirectory rel = false)) (resolve (.confined opened) dir path) := by
  by_cases hpath : path = []
  · rw [resolve, if_pos hpath]
    exact Fallible.yields_throw _
  cases opened with
  | error e =>
    rw [resolve_failed hpath]
    exact Fallible.yields_throw e
  | ok base =>
    rw [resolve_confined hpath]
    by_cases hcand : namesDirectory (if isAbsolute path then path else join dir path) = false
    · exact Fallible.yields_bind (yields_relativeToRoot _ _ hcand) fun rel hrel =>
        Fallible.yields_pure ⟨rel, rfl, fun _ => hrel⟩
    · exact Fallible.yields_bind (Fallible.yields_true _) fun rel _ =>
        Fallible.yields_pure ⟨rel, rfl, fun h => absurd h hcand⟩

private theorem onlyCalls_lift {α ε : Type} {P : Call → Prop} {P' : PathCall → Prop}
    {p : Fallible Call Answer ε α} (h : Fallible.OnlyCalls P p) (hP : ∀ c, P c → P' (.sys c)) :
    Fallible.OnlyCalls P' (Sys.lift p) :=
  Program.OnlyCalls.interp sysHandler h fun c hc => ⟨hP c hc, fun _ => trivial⟩

private theorem yields_lift {α ε : Type} {Q : α → Prop} {p : Fallible Call Answer ε α}
    (h : Fallible.Yields Q p) : Fallible.Yields Q (Sys.lift p) :=
  Program.Yields.interp sysHandler h

private theorem looks_of_isCanonicalize (c : Call) (h : c.isCanonicalize) :
    PathCall.Looks (.sys c) := by
  cases c with
  | canonicalize path => trivial
  | _ => exact absurd h id

/-! ### What is checked -/

/-- Where the target was looked at without an error, it is inside. -/
theorem ensures_targetInside {I : Tree → Prop} (ht : I t) (link contents : PathBuf) :
    Fallible.Ensures (seeing root t) I
      (fun result t' => t' = t ∧ (result = .ok () → TargetInside t root link contents))
      (Sys.lift (targetInside link contents)) t := by
  refine And.intro ht fun answer t' hperform => ?_
  obtain ⟨⟨rfl, htarget⟩, -⟩ := hperform
  cases answer with
  | error e => exact And.intro ht ⟨rfl, fun h => absurd h (by simp)⟩
  | ok m => exact And.intro ht ⟨rfl, fun _ => htarget m rfl⟩

/-- Where nothing was found against moving a link, it is absolute, stays in its directory, or can be
followed from its new name. -/
theorem ensures_linkStaysInside {I : Tree → Prop} (ht : I t) {src dst : PathBuf}
    (hsrc : namesDirectory src = false) :
    Fallible.Ensures (seeing root t) I
      (fun result t' => t' = t ∧ (result = .ok () → StaysInside t root src dst))
      (linkStaysInside src dst) t := by
  unfold linkStaysInside
  refine Fallible.ensures_bind (And.intro ht fun answer t' hperform => ?_)
  obtain ⟨⟨rfl, hlooked⟩, hseen⟩ := hperform
  cases answer with
  | error e =>
    refine And.intro ht (Fallible.ensures_pure ht ⟨rfl, ?_⟩)
    intro _ dir name id contents hname hfound _
    exact absurd ⟨⟨e, rfl⟩, dir, name, id, hname, hfound⟩ hseen
  | ok m =>
    have hknown := hlooked m rfl hsrc
    refine And.intro ht ?_
    cases hlink : m.isSymlink with
    | false =>
      simp only
      refine Fallible.ensures_pure ht ⟨rfl, fun _ dir name id contents hname hfound hnode => ?_⟩
      have hkind := hknown dir name id hname hfound
      rw [contentsOf_eq_some.mpr hnode, hlink] at hkind
      exact absurd hkind (by simp)
    | true =>
      simp only
      refine Fallible.ensures_bind (And.intro ht fun answer t'' hperform => ?_)
      obtain ⟨⟨rfl, hread⟩, -⟩ := hperform
      cases answer with
      | error e => exact And.intro ht ⟨rfl, fun h => absurd h (by simp)⟩
      | ok contents =>
        refine And.intro ht ?_
        have hcontents : ∀ dir name id contents', Names t'' root src dir name →
            t''.lookup dir name = some id → t''.node id = .link contents' →
              contents' = contents := by
          intro dir name id contents' hname hfound hnode
          have hthese := hread contents rfl dir name id hname hfound
          rw [contentsOf_eq_some.mpr hnode] at hthese
          exact Option.some_inj.mp hthese
        simp only
        split
        · rename_i hplace
          refine Fallible.ensures_pure ht
            ⟨rfl, fun _ dir name id contents' hname hfound hnode => ?_⟩
          obtain rfl := hcontents dir name id contents' hname hfound hnode
          rw [Bool.or_eq_true, decide_eq_true_eq] at hplace
          exact hplace.imp_right .inl
        · refine Fallible.ensures_bind (Program.Ensures.bind
            ((ensures_targetInside ht dst contents).mono fun result t' _ hresult => ?_))
          obtain ⟨rfl, hinside⟩ := hresult
          refine And.intro ht ?_
          cases result with
          | error e => exact Fallible.ensures_throw ht ⟨rfl, fun h => absurd h (by simp)⟩
          | ok _ =>
            refine Fallible.ensures_pure ht
              ⟨rfl, fun _ dir name id contents' hname hfound hnode => ?_⟩
            obtain rfl := hcontents dir name id contents' hname hfound hnode
            exact .inr (.inr (hinside rfl))

/-! ### The operations -/

private theorem ensures_reported {α : Type} {I : Tree → Prop} {p : PathSys α}
    (h : Fallible.Ensures (seeing root t) I (fun _ _ => True) p t) :
    Fallible.Ensures (seeing root t) I (fun _ _ => True) (reported p) t :=
  Program.Ensures.bind (Program.Ensures.mono h fun _ _ hI _ => ⟨hI, trivial⟩)

private theorem yields_ofExcept {α : Type} (result : Except IoError α) :
    Fallible.Yields (fun a => result = .ok a) (Sys.ofExcept result) := fun _ h => h

/-- What is done with one name beneath the root. -/
theorem ensures_atPath {I : Tree → Prop} (ht : I t) {f : Target → PathSys Unit}
    (hf : ∀ rel, Fallible.Ensures (seeing root t) I (fun _ _ => True) (f (.beneath rel)) t) :
    Fallible.Ensures (seeing root t) I (fun _ _ => True)
      (atPath (.confined opened) d path f) t := by
  have honly : Fallible.OnlyCalls Call.isCanonicalize (resolveAt (.confined opened) d path) :=
    Fallible.onlyCalls_bind (onlyCalls_ofExcept _) fun dir =>
      Fallible.onlyCalls_bind (onlyCalls_resolve _ _ _) fun _ => Fallible.onlyCalls_pure _
  have hyields : Fallible.Yields (fun tg => ∃ rel, tg = .beneath rel)
      (resolveAt (.confined opened) d path) :=
    Fallible.yields_bind (yields_ofExcept _) fun dir _ =>
      Fallible.yields_bind (yields_resolve dir) fun tg ⟨rel, htg, _⟩ =>
        Fallible.yields_pure ⟨rel, htg⟩
  refine Fallible.ensures_bind_of_onlyCalls eq_of_looks ht
    (onlyCalls_lift honly looks_of_isCanonicalize) (yields_lift hyields) ?_ fun _ => trivial
  rintro _ ⟨rel, rfl⟩
  exact hf rel

/-- What is done with two names beneath the root, the first of which is not spelled as a
directory. -/
theorem ensures_atTwo {I : Tree → Prop} (ht : I t) {a b : PathBuf}
    {f : Target → Target → PathSys Unit}
    (ha : ∀ dir, dirOf (.confined opened) d = .ok dir →
      namesDirectory (if isAbsolute a then a else join dir a) = false)
    (hf : ∀ relA relB, namesDirectory relA = false →
      Fallible.Ensures (seeing root t) I (fun _ _ => True) (f (.beneath relA) (.beneath relB)) t) :
    Fallible.Ensures (seeing root t) I (fun _ _ => True) (atTwo (.confined opened) d a b f) t := by
  have hresolve : ∀ dir path, Fallible.OnlyCalls PathCall.Looks
      (Sys.lift (resolve (.confined opened) dir path)) := fun dir path =>
    onlyCalls_lift (onlyCalls_resolve _ dir path) looks_of_isCanonicalize
  refine ensures_reported (Fallible.ensures_bind_of_onlyCalls eq_of_looks ht
    (onlyCalls_lift (onlyCalls_ofExcept _) looks_of_isCanonicalize)
    (yields_lift (yields_ofExcept _)) (fun dir hdir => ?_) fun _ => trivial)
  refine Fallible.ensures_bind_of_onlyCalls eq_of_looks ht (hresolve dir a)
    (yields_lift (yields_resolve dir)) ?_ fun _ => trivial
  rintro _ ⟨relA, rfl, hrelA⟩
  refine Fallible.ensures_bind_of_onlyCalls eq_of_looks ht (hresolve dir b)
    (yields_lift (yields_resolve dir)) ?_ fun _ => trivial
  rintro _ ⟨relB, rfl, -⟩
  exact hf relA relB (hrelA (ha dir hdir))

private theorem onlyCalls_looksAtSource (path : PathBuf) :
    Fallible.OnlyCalls (fun c => PathCall.Looks (.sys c)) (metadataAsNamed (.beneath path)) := by
  refine Fallible.onlyCalls_bind ?_ fun m => Fallible.onlyCalls_pure _
  unfold beneathLstat
  split <;> exact Fallible.onlyCalls_ask trivial

/-- The source of a rename is looked at and kept. -/
theorem onlyCalls_renamedSource (path : PathBuf) (namesDir : Bool) :
    Fallible.OnlyCalls (fun c => PathCall.Looks (.sys c))
      (renamedSource (.beneath path) namesDir) := by
  unfold renamedSource
  split
  · exact Fallible.onlyCalls_pure _
  · refine Fallible.onlyCalls_bind (onlyCalls_looksAtSource path) fun m => ?_
    split
    split
    · exact Fallible.onlyCalls_pure _
    · exact Fallible.onlyCalls_throw _

private theorem yields_renamedSource (tg : Target) (namesDir : Bool) :
    Fallible.Yields (· = tg) (renamedSource tg namesDir) := by
  unfold renamedSource
  split
  · exact Fallible.yields_pure rfl
  · refine Fallible.yields_bind (Fallible.yields_true _) fun m _ => ?_
    split
    split
    · exact Fallible.yields_pure rfl
    · exact Fallible.yields_throw _

private theorem onlyCalls_refuseDirectoryName (path : PathBuf) :
    Fallible.OnlyCalls (fun c => PathCall.Looks (.sys c))
      (refuseDirectoryName (.beneath path)) := by
  unfold refuseDirectoryName
  split
  · refine Fallible.onlyCalls_bind (onlyCalls_ofProgram (Fallible.onlyCalls_bind
      (Fallible.onlyCalls_ask trivial) fun m => Fallible.onlyCalls_pure _)) fun result => ?_
    split
    · exact Fallible.onlyCalls_throw _
    · exact Fallible.onlyCalls_throw _
  · split
    · exact Fallible.onlyCalls_throw _
    · exact Fallible.onlyCalls_pure _

/-- Nothing has a new name yet. -/
theorem newNamesStay_refl (root : Nat) (t : Tree) : NewNamesStay root t t :=
  fun _ _ _ hentry hnew => absurd hentry hnew

/-- A name is set once what it leads to was found inside. -/
theorem ensures_set (ht : Sound t) (hroot : root < t.next) {c : PathCall}
    (hsets : ∀ answer t', treePerform root c t answer t' → t' = t ∨ Sets t root c t')
    (hfound : FoundInside t root c) :
    Fallible.Ensures (seeing root t) (NewNamesStay root t) (fun _ _ => True) (pathSys c) t := by
  refine Fallible.ensures_ask (newNamesStay_refl root t) fun answer t' h => ⟨?_, trivial⟩
  rcases hsets answer t' h.1 with rfl | hset
  · exact newNamesStay_refl root t'
  · exact newNamesStay_of_sets ht hroot hfound hset

/-- What comes after a link was found to stay inside. -/
theorem ensures_afterCheck {I : Tree → Prop} (ht : I t) {src dst : PathBuf}
    (hsrc : namesDirectory src = false) {p : PathSys Unit}
    (hp : StaysInside t root src dst → Fallible.Ensures (seeing root t) I (fun _ _ => True) p t) :
    Fallible.Ensures (seeing root t) I (fun _ _ => True)
      (linkStaysInside src dst >>= fun _ => p) t := by
  refine Fallible.ensures_bind
    ((ensures_linkStaysInside ht hsrc).mono fun result t' _ hresult => ?_)
  obtain ⟨rfl, hinside⟩ := hresult
  cases result with
  | ok _ => exact hp (hinside rfl)
  | error e => trivial

/-- Each operation sets its name only where what it leads to is inside. -/
theorem ensures_linkOp (ht : Sound t) (hroot : root < t.next) (op : LinkOp)
    (hop : op.PlainSource (.confined opened) d) :
    Fallible.Ensures (seeing root t) (NewNamesStay root t) (fun _ _ => True)
      (op.perform (.confined opened) d) t := by
  have hstays := newNamesStay_refl root t
  have hkeeps : ∀ {answer : Except IoError Unit} {t' : Tree} {c : PathCall},
      (answer = .ok () ∧ Sets t root c t') ∨ (answer ≠ .ok () ∧ t' = t) →
        t' = t ∨ Sets t root c t' :=
    fun h => h.symm.imp And.right And.right
  cases op with
  | symlink target name =>
    refine ensures_reported (ensures_atPath hstays fun rel => ?_)
    split
    · exact Fallible.ensures_throw hstays trivial
    · refine Fallible.ensures_bind_of_onlyCalls eq_of_looks hstays
        (onlyCalls_lift (onlyCalls_refuseDirectoryName rel) fun _ hc => hc)
        (yields_lift (Fallible.yields_true _))
        (fun _ _ => ?_) fun _ => trivial
      refine Fallible.ensures_bind ((ensures_targetInside hstays rel target).mono
        fun result t' _ hresult => ?_)
      obtain ⟨rfl, hinside⟩ := hresult
      cases result with
      | ok _ => exact ensures_set ht hroot (fun _ _ h => hkeeps h) (hinside rfl)
      | error e => trivial
  | link src dst =>
    refine ensures_atTwo hstays hop fun relA relB hrelA => ?_
    split
    · exact Fallible.ensures_throw hstays trivial
    · exact ensures_afterCheck hstays hrelA fun hinside =>
        ensures_set ht hroot (fun _ _ h => hkeeps h) hinside
  | rename src dst =>
    refine ensures_atTwo hstays hop fun relA relB hrelA => ?_
    refine Fallible.ensures_bind_of_onlyCalls eq_of_looks hstays
      (onlyCalls_lift (onlyCalls_renamedSource relA _) fun _ hc => hc)
      (yields_lift (yields_renamedSource _ _)) ?_ fun _ => trivial
    rintro _ rfl
    exact ensures_afterCheck hstays hrelA fun hinside =>
      ensures_set ht hroot (fun _ _ h => hkeeps h) hinside

private theorem seeing_alone (root : Nat) (t : Tree) : (seeing root t).Alone := fun _ _ h => h

/-- At every moment of a confined `symlink_at`, `link_at` or `rename_at` that nobody interferes
with, whoever follows an entry that the operation added, confined or not, ends inside the root or
where an older entry of the same object led; unless the link was moved unseen, since looking at it
failed. -/
theorem new_names_stay_inside (opened : Except IoError PlainPath) (d : Desc) (op : LinkOp)
    (hop : op.PlainSource (.confined opened) d) (root : Nat) (t : Tree) (ht : Sound t)
    (hroot : root < t.next) (p : Program PathCall PathAnswer (Except IOErr Unit)) (t' : Tree)
    (told : List (Told PathCall PathAnswer))
    (hrun : Reaches (treeSystem root).traced
      (ExceptT.run (op.perform (.confined opened) d), (t, [])) (p, (t', told))) :
    NewNamesStay root t t' ∨ ∃ entry ∈ told, Unseen t root entry := by
  by_cases hunseen : ∃ entry ∈ told, Unseen t root entry
  · exact .inr hunseen
  · have hnone : ∀ entry ∈ told, ¬Unseen t root entry :=
      fun entry hentry h => hunseen ⟨entry, hentry, h⟩
    have hstays := ensures_linkOp ht hroot op hop
    exact .inl (hstays.reaches (seeing_alone root t) (hrun.unless hnone)).invariant

/-- `/r/a/l` is a link to `../f`, and `/r/b` a directory beside it. -/
def linkTree : Tree where
  node
    | 0 => .dir 0 fun name => if name = [114] then some 1 else none
    | 1 => .dir 0 fun name =>
      if name = [97] then some 2 else if name = [98] then some 3
      else if name = [102] then some 4 else none
    | 2 => .dir 1 fun name => if name = [108] then some 5 else none
    | 3 => .dir 1 fun _ => none
    | 5 => .link [46, 46, 47, 102]
    | _ => .file
  root := 0
  next := 6

private theorem linkTree_lookup {id child : Nat} {name : List UInt8}
    (h : linkTree.lookup id name = some child) :
    (id, name, child) ∈ ([(0, [114], 1), (1, [97], 2), (1, [98], 3), (1, [102], 4), (2, [108], 5)] :
      List (Nat × List UInt8 × Nat)) := by
  obtain ⟨parent, entries, hnode, hentry⟩ := exists_dir_of_lookup h
  unfold linkTree at hnode
  simp only at hnode
  split at hnode
  all_goals cases hnode
  all_goals grind

private theorem linkTree_sound : Sound linkTree := by
  have hdirs : ∀ id parent entries, linkTree.node id = .dir parent entries →
      (id, parent) ∈ ([(0, 0), (1, 0), (2, 1), (3, 1)] : List (Nat × Nat)) := by
    intro id parent entries hnode
    unfold linkTree at hnode
    simp only at hnode
    split at hnode
    all_goals cases hnode
    all_goals simp
  refine ⟨by decide, ?_, ?_, ?_⟩
  · intro id parent entries _ hnode
    have := hdirs id parent entries hnode
    simp at this
    show parent < 6
    omega
  · intro id name child _ h
    have := linkTree_lookup h
    simp at this
    show child < 6
    omega
  · intro id name child parent entries _ h hnode
    have := linkTree_lookup h
    have := hdirs child parent entries hnode
    simp at *
    omega

/-- What the calls of the rename below are answered: `/r/a/l` is a link to `../f`, and `/r/b/../f`
is a file. -/
def renameAnswers : List (Told PathCall PathAnswer) :=
  [⟨.rename (.beneath [97, 47, 108]) (.beneath [98, 47, 108]), .ok ()⟩,
    ⟨.sys (.metadata (.beneath [98, 47, 46, 46, 47, 102])), .ok ⟨false, true, false, 0, 0, 0⟩⟩,
    ⟨.readLink (.beneath [97, 47, 108]), .ok [46, 46, 47, 102]⟩,
    ⟨.sys (.symlinkMetadata (.beneath [97, 47, 108])), .ok ⟨false, false, true, 0, 0, 0⟩⟩]

/-- `/r/a/l` renamed to `/r/b/l`, where `../f` is the same file. -/
theorem new_names_stay_inside_moved :
    NewNamesStay 1 linkTree (((linkTree.set 2 [108] none).set 3 [108] (some 5)).reparent 5 3) := by
  have hsrc : Names linkTree 1 [97, 47, 108] 2 [108] := ⟨[.normal [97]], by decide, 1, rfl⟩
  have hdst : Names linkTree 1 [98, 47, 108] 3 [108] := ⟨[.normal [98]], by decide, 1, rfl⟩
  have hentry : ∀ dir name id, Names linkTree 1 [97, 47, 108] dir name →
      linkTree.lookup dir name = some id → id = 5 := by
    intro dir name id hname hfound
    obtain rfl := hsrc.unique hname rfl
    obtain ⟨before, hparts, -⟩ := hname
    have hfive := linkTree_lookup hfound
    simp at hfive
    exact hfive.2
  refine (new_names_stay_inside (.ok ⟨⟨[47, 114], by decide⟩, by decide⟩) .root
    (.rename [47, 114, 47, 97, 47, 108] [47, 114, 47, 98, 47, 108]) ?_ 1 linkTree linkTree_sound
    (by decide) (.done (.ok ())) _ renameAnswers ?_).resolve_right ?_
  · rintro dir -
    rw [if_pos (by decide)]
    decide
  · have hstat : treePerform 1 (.sys (.symlinkMetadata (.beneath [97, 47, 108]))) linkTree
        (.ok ⟨false, false, true, 0, 0, 0⟩) linkTree := by
      refine ⟨rfl, fun m hm _ dir name id hname hfound => ?_⟩
      rw [hentry dir name id hname hfound, ← Except.ok.inj hm]
      rfl
    have hread : treePerform 1 (.readLink (.beneath [97, 47, 108])) linkTree
        (.ok [46, 46, 47, 102]) linkTree := by
      refine ⟨rfl, fun contents hcontents dir name id hname hfound => ?_⟩
      rw [hentry dir name id hname hfound, ← Except.ok.inj hcontents]
      rfl
    have hlook : treePerform 1 (.sys (.metadata (.beneath [98, 47, 46, 46, 47, 102]))) linkTree
        (.ok ⟨false, true, false, 0, 0, 0⟩) linkTree := by
      refine ⟨rfl, fun _ _ => ⟨4, 3, ?_⟩⟩
      decide
    have hrename : treePerform 1 (.rename (.beneath [97, 47, 108]) (.beneath [98, 47, 108]))
        linkTree (.ok ())
        (((linkTree.set 2 [108] none).set 3 [108] (some 5)).reparent 5 3) := by
      have hfree : linkTree.lookup 3 [108] = none := rfl
      refine .inl ⟨rfl, .rename hsrc hdst rfl rfl (by decide) fun old hold => ?_⟩
      exact absurd (hfree.symm.trans hold) (by simp)
    have htold : ∀ {c : PathCall} {answer : PathAnswer c} {u v : Tree}
        {told : List (Told PathCall PathAnswer)}, treePerform 1 c u answer v →
          (treeSystem 1).traced.perform c (u, told) answer (v, ⟨c, answer⟩ :: told) :=
      fun h => ⟨h, rfl⟩
    exact .head (.call (htold hstat)) (.head (.call (htold hread))
      (.head (.call (htold hlook)) (.head (.call (htold hrename)) .refl)))
  · rintro ⟨entry, hmem, hunseen⟩
    simp only [renameAnswers, List.mem_cons, List.not_mem_nil, or_false] at hmem
    rcases hmem with rfl | rfl | rfl | rfl
    · exact hunseen
    · exact hunseen
    · exact hunseen
    · obtain ⟨⟨e, he⟩, -⟩ := hunseen
      cases he

end TrantorCli.FsCore
