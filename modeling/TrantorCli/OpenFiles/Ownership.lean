import TrantorCli.OpenFiles.Hosted
import TrantorCli.OpenFiles.Kernel

/-!
# Who owns a descriptor

Every open descriptor was there from the start, is closed with exactly one box,
is the directory of the confined root, or was handed on and not given back.
Whatever an app calls and whatever fails, no descriptor is left without an owner
and none gets a second one, so that nothing is closed twice and a number that was
handed on stays what it was.
-/

open Interaction

namespace TrantorCli.OpenFiles

open FsCore

/-! ### The host -/

/-- What a host has: the descriptors, the boxes, the confined root once it was asked for, and what
it handed on, with what stood behind the number then. -/
structure Host where
  files : Files
  boxes : Nat → Option Boxed
  root : Option (Except Failed Opened)
  handed : List (Nat × Option Nat)

/-- The last handle of a box is gone. -/
def Host.drop (s : Host) (box : Nat) (b : Boxed) : Host :=
  { s with
    files := match b.owns with
      | some fd => s.files.setTable fd none
      | none => s.files
    boxes := Function.update s.boxes box none }

/-- What a call of the host may answer and do. A handle that is given back may have been the
last. -/
def hostPerform : (c : HostCall) → Host → HostReply c → Host → Prop
  | .fd c, s, answer, t => ∃ files, perform c s.files answer files ∧ t = { s with files }
  | .aside _, s, _, t => t = s
  | .kept, s, found, t => found = s.root ∧ t = s
  | .keep found, s, _, t => s.root = none ∧ t = { s with root := some found }
  | .descriptor box, s, d, t => s.boxes box = some (.descriptor d) ∧ t = s
  | .input box, s, i, t => (∃ closes, s.boxes box = some (.input i closes)) ∧ t = s
  | .output box, s, o, t => (∃ closes, s.boxes box = some (.output o closes)) ∧ t = s
  | .release box, s, _, t => t = s ∨ ∃ b, s.boxes box = some b ∧ t = s.drop box b
  | .new b, s, n, t => s.boxes n = none ∧ t = { s with boxes := Function.update s.boxes n (some b) }

/-- The host, amid others who leave it its descriptors. -/
def host (others : Files → Files → Prop) : System HostCall HostReply Host :=
  ⟨hostPerform, fun s t => ∃ files, others s.files files ∧ t = { s with files }⟩

/-! ### Owners -/

/-- Who owns a descriptor. -/
inductive Owner where
  /-- It was open before the first call. -/
  | start
  | box (n : Nat)
  /-- The confined root keeps it. -/
  | root
  /-- The app, or whoever it handed the number to. -/
  | app
  /-- The call that is running. -/
  | call
  deriving DecidableEq

/-- Whether a descriptor is somebody's; `held` is what the running call opened and did not box
yet. -/
def Host.Has (start : Nat → Prop) (held : Option Nat) (s : Host) (fd : Nat) : Owner → Prop
  | .start => start fd
  | .box n => ∃ b, s.boxes n = some b ∧ b.owns = some fd
  | .root => ∃ found, s.root = some (.ok found) ∧ found.dir = fd
  | .app => ∃ o, (fd, o) ∈ s.handed
  | .call => held = some fd

/-- `owner` says of every open descriptor whose it is, and nobody else's it is. -/
structure OwnedBy (start : Nat → Prop) (held : Option Nat) (s : Host) (owner : Nat → Option Owner) :
    Prop where
  isOpen : ∀ fd, s.files.table fd = none ↔ owner fd = none
  has : ∀ fd who, owner fd = some who ↔ s.Has start held fd who

/-- Every open descriptor has one owner, and what was handed on is no standard stream's number and
stands for the open file it stood for then. -/
structure Accounted (start : Nat → Prop) (held : Option Nat) (s : Host) : Prop where
  owned : ∃ owner, OwnedBy start held s owner
  handed : ∀ fd behind, (fd, behind) ∈ s.handed →
    3 ≤ fd ∧ behind ≠ none ∧ s.files.table fd = behind

variable {others : Files → Files → Prop} {start : Nat → Prop} {held held' : Option Nat} {s t : Host}
  {owner : Nat → Option Owner} {fd o box : Nat} {b : Boxed} {files : Files}

/-- One descriptor goes from one owner to another, or is opened or closed. -/
theorem OwnedBy.transfer (h : OwnedBy start held s owner) (fd : Nat) (who : Option Owner)
    (htable : ∀ fd' ≠ fd, t.files.table fd' = s.files.table fd')
    (hself : t.files.table fd = none ↔ who = none)
    (hhas : ∀ fd' ≠ fd, ∀ k, t.Has start held' fd' k ↔ s.Has start held fd' k)
    (hwho : ∀ k, who = some k ↔ t.Has start held' fd k) :
    OwnedBy start held' t (Function.update owner fd who) := by
  refine ⟨fun fd' => ?_, fun fd' k => ?_⟩
  · by_cases heq : fd' = fd
    · subst heq
      rw [Function.update_self, hself]
    · rw [Function.update_of_ne heq, htable fd' heq, h.isOpen]
  · by_cases heq : fd' = fd
    · subst heq
      rw [Function.update_self, hwho]
    · rw [Function.update_of_ne heq, hhas fd' heq, h.has]

/-- What a closed descriptor has for owners. -/
theorem OwnedBy.free (h : OwnedBy start held s owner) (hfree : s.files.table fd = none)
    (k : Owner) :
    ¬s.Has start held fd k := by
  rw [← h.has, (h.isOpen fd).mp hfree]
  simp

/-- What was handed on is as it was when another descriptor is opened or closed. -/
theorem Accounted.handed_update (h : Accounted start held s)
    (hfd : ∀ behind, (fd, behind) ∉ s.handed) {after : Option Nat}
    (htable : files.table = Function.update s.files.table fd after) {fd' : Nat}
    {behind : Option Nat} (hmem : (fd', behind) ∈ s.handed) :
    3 ≤ fd' ∧ behind ≠ none ∧ files.table fd' = behind := by
  obtain ⟨hlow, hopen, hsame⟩ := h.handed fd' behind hmem
  have hne : fd' ≠ fd := by
    rintro rfl
    exact hfd behind hmem
  exact ⟨hlow, hopen, by rw [htable, Function.update_of_ne hne, hsame]⟩

/-- What leaves the descriptors as they are changes nothing about it. -/
theorem Accounted.of_table (h : Accounted start held s) (htable : files.table = s.files.table) :
    Accounted start held { s with files } := by
  obtain ⟨⟨owner, howner⟩, hhanded⟩ := h
  refine ⟨⟨owner, fun fd => by rw [← howner.isOpen, ← htable], howner.has⟩, fun fd o hfd => ?_⟩
  obtain ⟨hlow, hopen, hsame⟩ := hhanded fd o hfd
  exact ⟨hlow, hopen, by rw [htable, hsame]⟩

/-- The running call opens a descriptor. -/
theorem Accounted.acquire (h : Accounted start none s) (hfree : s.files.table fd = none)
    (htable : files.table = Function.update s.files.table fd (some o)) :
    Accounted start (some fd) { s with files } := by
  obtain ⟨owner, howner⟩ := h.owned
  have hnobody : ∀ behind, (fd, behind) ∉ s.handed := fun behind hmem =>
    howner.free hfree .app ⟨behind, hmem⟩
  refine ⟨⟨_, howner.transfer fd (some .call) (fun fd' hne => ?_) ?_ (fun fd' hne k => ?_)
    fun k => ?_⟩, fun fd' behind => h.handed_update hnobody htable⟩
  · rw [htable, Function.update_of_ne hne]
  · simp [htable]
  · cases k <;> simp [Host.Has, Ne.symm hne]
  · have hnone := howner.free hfree k
    cases k <;> simp_all [Host.Has]

/-- Who owns what the running call holds. -/
theorem OwnedBy.has_call (h : OwnedBy start (some fd) s owner) (k : Owner) :
    s.Has start (some fd) fd k ↔ k = .call := by
  have hcall : owner fd = some .call := (h.has fd .call).mpr rfl
  rw [← h.has, hcall]
  simp [eq_comm]

/-- The running call closes what it held. -/
theorem Accounted.release (h : Accounted start (some fd) s)
    (htable : files.table = Function.update s.files.table fd none) :
    Accounted start none { s with files } := by
  obtain ⟨owner, howner⟩ := h.owned
  have hnobody : ∀ behind, (fd, behind) ∉ s.handed := fun behind hmem =>
    absurd ((howner.has_call .app).mp ⟨behind, hmem⟩) (by simp)
  refine ⟨⟨_, howner.transfer fd none (fun fd' hne => ?_) ?_ (fun fd' hne k => ?_) fun k => ?_⟩,
    fun fd' behind => h.handed_update hnobody htable⟩
  · rw [htable, Function.update_of_ne hne]
  · simp [htable]
  · cases k <;> simp [Host.Has, Ne.symm hne]
  · have honly := howner.has_call k
    cases k <;> simp_all [Host.Has]

/-- A box that owns a descriptor neither before nor after owns no more by being changed. -/
theorem owns_update {boxes : Nat → Option Boxed} {b' : Option Boxed} {n : Nat}
    (h : n ≠ box ∨ ((∀ b ∈ boxes box, b.owns ≠ some fd) ∧ ∀ b ∈ b', b.owns ≠ some fd)) :
    (∃ b, Function.update boxes box b' n = some b ∧ b.owns = some fd) ↔
      ∃ b, boxes n = some b ∧ b.owns = some fd := by
  by_cases heq : n = box
  · subst heq
    obtain ⟨hold, hnew⟩ := h.resolve_left (by simp)
    rw [Function.update_self]
    constructor
    · rintro ⟨b, hb, howns⟩
      exact absurd howns (hnew b hb)
    · rintro ⟨b, hb, howns⟩
      exact absurd howns (hold b hb)
  · rw [Function.update_of_ne heq]

/-- What the running call held is boxed, or a box is made that closes nothing. -/
theorem Accounted.boxed (h : Accounted start held s) (hnew : s.boxes box = none)
    (hb : b.owns = held) :
    Accounted start none { s with boxes := Function.update s.boxes box (some b) } := by
  obtain ⟨⟨owner, howner⟩, hhanded⟩ := h
  have hother : ∀ fd' n, n ≠ box ∨ b.owns ≠ some fd' →
      ((∃ b', Function.update s.boxes box (some b) n = some b' ∧ b'.owns = some fd') ↔
        ∃ b', s.boxes n = some b' ∧ b'.owns = some fd') :=
    fun fd' n h => owns_update (h.imp_right fun hnot => ⟨by simp [hnew], by simpa using hnot⟩)
  cases hheld : held with
  | none =>
    subst hheld
    refine ⟨⟨owner, howner.isOpen, fun fd k => ?_⟩, hhanded⟩
    rw [howner.has]
    cases k with
    | box n => exact (hother fd n (.inr (by simp [hb]))).symm
    | _ => exact Iff.rfl
  | some fd =>
    subst hheld
    have hopen : s.files.table fd ≠ none := fun hnone => howner.free hnone .call rfl
    refine ⟨⟨_, howner.transfer fd (some (.box box)) (fun _ _ => rfl) (by simp [hopen])
      (fun fd' hne k => ?_) fun k => ?_⟩, hhanded⟩
    · cases k with
      | box n => exact hother fd' n (.inr (by simp [hb, Ne.symm hne]))
      | call => simp [Host.Has, Ne.symm hne]
      | _ => exact Iff.rfl
    · have honly := howner.has_call k
      cases k with
      | box n =>
        by_cases heq : n = box
        · subst heq
          simp [Host.Has, hb]
        · have hnot : ¬s.Has start (some fd) fd (.box n) := by simp [honly]
          have hkeep := hother fd n (.inl heq)
          simp only [Host.Has] at hnot ⊢
          rw [hkeep]
          simp [hnot, Ne.symm heq]
      | _ => simp_all [Host.Has]

/-- A box is gone, and what it owned is closed. -/
theorem Accounted.dropped (h : Accounted start held s) (hbox : s.boxes box = some b) :
    Accounted start held (s.drop box b) := by
  obtain ⟨owner, howner⟩ := h.owned
  have hother : ∀ fd' n, n ≠ box ∨ b.owns ≠ some fd' →
      ((∃ b', Function.update s.boxes box none n = some b' ∧ b'.owns = some fd') ↔
        ∃ b', s.boxes n = some b' ∧ b'.owns = some fd') :=
    fun fd' n h => owns_update (h.imp_right fun hnot => ⟨by simpa [hbox] using hnot, by simp⟩)
  cases hb : b.owns with
  | none =>
    refine ⟨⟨owner, fun fd => ?_, fun fd k => ?_⟩, fun fd behind hmem => ?_⟩
    · simpa [Host.drop, hb] using howner.isOpen fd
    · rw [howner.has]
      cases k with
      | box n => exact (hother fd n (.inr (by simp [hb]))).symm
      | _ => exact Iff.rfl
    · simpa [Host.drop, hb] using h.handed fd behind hmem
  | some fd =>
    have hmine : owner fd = some (.box box) := (howner.has fd (.box box)).mpr ⟨b, hbox, hb⟩
    have honly : ∀ k, s.Has start held fd k ↔ k = .box box := by
      intro k
      rw [← howner.has, hmine]
      simp [eq_comm]
    have hnobody : ∀ behind, (fd, behind) ∉ s.handed := fun behind hmem =>
      absurd ((honly .app).mp ⟨behind, hmem⟩) (by simp)
    have htable : (s.drop box b).files.table = Function.update s.files.table fd none := by
      simp [Host.drop, hb, Files.setTable]
    refine ⟨⟨_, howner.transfer fd none (fun fd' hne => ?_) ?_ (fun fd' hne k => ?_) fun k => ?_⟩,
      fun fd' behind => h.handed_update hnobody htable⟩
    · rw [htable, Function.update_of_ne hne]
    · simp [htable]
    · cases k with
      | box n => exact hother fd' n (.inr (by simp [hb, Ne.symm hne]))
      | _ => exact Iff.rfl
    · have hk := honly k
      cases k with
      | box n =>
        by_cases heq : n = box
        · subst heq
          simp [Host.Has, Host.drop]
        · have hnot : ¬s.Has start held fd (.box n) := by simp [hk, heq]
          have hkeep := hother fd n (.inl heq)
          simp only [Host.Has, Host.drop] at hnot ⊢
          rw [hkeep]
          simp [hnot]
      | _ => simp_all [Host.Has, Host.drop]

/-- What the running call held is the directory of the root from then on, or no root was found. -/
theorem Accounted.keep {found : Except Failed Opened} (h : Accounted start held s)
    (hnone : s.root = none)
    (hheld : ∀ fd, held = some fd ↔ ∃ opened, found = .ok opened ∧ opened.dir = fd) :
    Accounted start none { s with root := some found } := by
  obtain ⟨⟨owner, howner⟩, hhanded⟩ := h
  cases hfd : held with
  | none =>
    subst hfd
    refine ⟨⟨owner, howner.isOpen, fun fd k => ?_⟩, hhanded⟩
    rw [howner.has]
    cases k with
    | root => simpa [Host.Has, hnone] using hheld fd
    | _ => exact Iff.rfl
  | some fd =>
    subst hfd
    have hopen : s.files.table fd ≠ none := fun hfree => howner.free hfree .call rfl
    have hroot : ∀ fd', (∃ opened, found = .ok opened ∧ opened.dir = fd') ↔ fd = fd' := by
      intro fd'
      rw [← hheld, Option.some_inj]
    refine ⟨⟨_, howner.transfer fd (some .root) (fun _ _ => rfl) (by simp [hopen])
      (fun fd' hne k => ?_) fun k => ?_⟩, hhanded⟩
    · cases k with
      | root => simpa [Host.Has, hnone, Ne.symm hne] using hroot fd'
      | call => simp [Host.Has, Ne.symm hne]
      | _ => exact Iff.rfl
    · have honly := howner.has_call k
      cases k with
      | root => simpa [Host.Has] using hroot fd
      | _ => simp_all [Host.Has]

/-- The app gets the number of what the running call held, and an open file is behind it. -/
theorem Accounted.handOn (h : Accounted start (some fd) s) (hlow : 3 ≤ fd) :
    Accounted start none { s with handed := (fd, s.files.table fd) :: s.handed } := by
  obtain ⟨⟨owner, howner⟩, hhanded⟩ := h
  have hopen : s.files.table fd ≠ none := fun hfree => howner.free hfree .call rfl
  refine ⟨⟨_, howner.transfer fd (some .app) (fun _ _ => rfl) (by simp [hopen])
    (fun fd' hne k => ?_) fun k => ?_⟩, fun fd' behind hmem => ?_⟩
  · cases k <;> simp [Host.Has, hne, Ne.symm hne]
  · have honly := howner.has_call k
    cases k <;> simp_all [Host.Has]
  · rcases List.mem_cons.mp hmem with heq | hold
    · obtain ⟨rfl, rfl⟩ := Prod.mk.inj heq
      exact ⟨hlow, hopen, rfl⟩
    · exact hhanded fd' behind hold

/-- The app gives a number back. -/
theorem Accounted.giveBack {behind : Option Nat} (h : Accounted start none s)
    (hmem : (fd, behind) ∈ s.handed) :
    Accounted start (some fd) { s with handed := s.handed.filter (·.1 ≠ fd) } := by
  obtain ⟨⟨owner, howner⟩, hhanded⟩ := h
  obtain ⟨-, hbehind, hsame⟩ := hhanded fd behind hmem
  have honly : ∀ k, s.Has start none fd k ↔ k = .app := by
    intro k
    rw [← howner.has, (howner.has fd .app).mpr ⟨behind, hmem⟩]
    simp [eq_comm]
  refine ⟨⟨_, howner.transfer fd (some .call) (fun _ _ => rfl) (by simp [hsame, hbehind])
    (fun fd' hne k => ?_) fun k => ?_⟩,
    fun fd' behind hmem => hhanded fd' behind (List.mem_of_mem_filter hmem)⟩
  · cases k <;> simp [Host.Has, hne, Ne.symm hne]
  · have hk := honly k
    cases k <;> simp_all [Host.Has]

end TrantorCli.OpenFiles
