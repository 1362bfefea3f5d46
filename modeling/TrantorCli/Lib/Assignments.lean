import TrantorCli.Lib.Cut

/-!
# Lists of assignments

A list of entries `name sep value` is read in two ways: `listed` takes every entry
apart at its first separator, and `find` looks for the first entry that begins with
a name and the separator. For a name that an entry can hold both give one answer.
A name has at least one element, so its first one is never the separator that
ends it.
-/

variable {α : Type*} [DecidableEq α]

namespace Assignments

/-- The entry that sets `name` to `value`. -/
def entry (sep : α) (name value : List α) : List α := name ++ sep :: value

/-- A name that an entry can hold. -/
def IsName (sep : α) (name : List α) : Prop := name ≠ [] ∧ sep ∉ name

/-- The name and the value of an entry; the first element always belongs to the name. -/
def parse (sep : α) : List α → Option (List α × List α)
  | [] => none
  | first :: rest =>
    (Cut.cut [sep] rest).map fun (before, after) => (first :: before, after)

/-- Every entry that can be taken apart, in order. -/
def listed (sep : α) (entries : List (List α)) : List (List α × List α) :=
  entries.filterMap (parse sep)

/-- What follows the name and the separator in an entry that begins with them. -/
def valueIn (sep : α) (name e : List α) : Option (List α) :=
  if (name ++ [sep]).isPrefixOf e then some (e.drop (name.length + 1)) else none

/-- The value of the first entry that begins with the name and the separator. -/
def find (sep : α) (name : List α) (entries : List (List α)) : Option (List α) :=
  entries.findSome? (valueIn sep name)

variable {sep : α} {name value e : List α} {entries : List (List α)}

/-- An entry is taken apart at its first separator behind the first element. -/
theorem parse_eq_some_iff :
    parse sep e = some (name, value) ↔
      e = entry sep name value ∧ ∃ first rest, name = first :: rest ∧ sep ∉ rest := by
  cases e with
  | nil => simp [parse, entry]
  | cons first rest =>
    constructor
    · intro h
      obtain ⟨⟨before, after⟩, hcut, heq⟩ := Option.map_eq_some_iff.mp h
      obtain ⟨rfl, rfl⟩ := Prod.mk.inj heq
      obtain ⟨hrest, hnot⟩ := Cut.cut_singleton_eq_some.mp hcut
      exact ⟨congrArg (first :: ·) hrest, first, before, rfl, hnot⟩
    · rintro ⟨he, first', before, rfl, hnot⟩
      obtain ⟨rfl, hrest⟩ := List.cons.inj he
      have hcut : Cut.cut [sep] rest = some (before, value) :=
        Cut.cut_singleton_eq_some.mpr ⟨hrest, hnot⟩
      rw [parse, hcut]
      rfl

/-- No entry is listed under the empty name. -/
theorem ne_nil_of_mem_listed (h : (name, value) ∈ listed sep entries) : name ≠ [] := by
  obtain ⟨e, -, hparse⟩ := List.mem_filterMap.mp h
  obtain ⟨-, first, rest, rfl, -⟩ := parse_eq_some_iff.mp hparse
  simp

/-- What holds of every element of every entry holds of the names that are listed. -/
theorem forall_mem_name {p : α → Prop} (hp : ∀ e ∈ entries, ∀ x ∈ e, p x)
    (h : (name, value) ∈ listed sep entries) : ∀ x ∈ name, p x := by
  obtain ⟨e, he, hparse⟩ := List.mem_filterMap.mp h
  obtain ⟨rfl, -⟩ := parse_eq_some_iff.mp hparse
  intro x hx
  exact hp _ he x (List.mem_append_left _ hx)

private theorem valueIn_eq_some_iff :
    valueIn sep name e = some value ↔ e = entry sep name value := by
  unfold valueIn entry
  constructor
  · intro h
    split at h
    · next hpre =>
      obtain ⟨rest, rfl⟩ := List.isPrefixOf_iff_prefix.mp hpre
      have hdrop : (name ++ [sep] ++ rest).drop (name.length + 1) = rest := by
        apply List.drop_left'
        simp
      obtain rfl := Option.some.inj (hdrop ▸ h)
      simp
    · cases h
  · rintro rfl
    have hpre : (name ++ [sep]).isPrefixOf (name ++ sep :: value) = true :=
      List.isPrefixOf_iff_prefix.mpr ⟨value, by simp⟩
    rw [if_pos hpre]
    congr 1
    have hsplit : name ++ sep :: value = (name ++ [sep]) ++ value := by simp
    rw [hsplit]
    apply List.drop_left'
    simp

/-- Under a name both readings of an entry find the same. -/
theorem valueIn_of_isName (hname : IsName sep name) :
    valueIn sep name e = some value ↔ parse sep e = some (name, value) := by
  rw [valueIn_eq_some_iff, parse_eq_some_iff]
  constructor
  · intro he
    obtain ⟨first, rest, rfl⟩ := List.exists_cons_of_ne_nil hname.1
    exact ⟨he, first, rest, rfl, fun h => hname.2 (List.mem_cons_of_mem _ h)⟩
  · exact And.left

/-- Looking a name up finds the first value listed under it. -/
theorem find_eq_lookup (hname : IsName sep name) :
    find sep name entries = (listed sep entries).lookup name := by
  rw [find, listed, List.lookup_eq_findSome?, ← List.head?_filterMap, ← List.head?_filterMap,
    List.filterMap_filterMap]
  congr
  funext e
  apply Option.ext
  intro value
  rw [valueIn_of_isName hname, Option.bind_eq_some_iff]
  constructor
  · intro hparse
    exact ⟨(name, value), hparse, by simp⟩
  · rintro ⟨⟨key, found⟩, hparse, hkey⟩
    obtain ⟨rfl, rfl⟩ : name = key ∧ found = value := by simpa using hkey
    exact hparse

end Assignments
