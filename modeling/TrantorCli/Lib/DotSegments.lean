import Mathlib.Data.List.DropRight

/-!
# Removal of dot segments

The algorithm of RFC 3986 §5.2.4: an input buffer is taken apart from the
front, prefix by prefix, and an output buffer grows or loses its last segment.
On an input that starts with a slash each round of the loop deals with one
whole segment; the lemmas say what it does with it.
-/

variable {α : Type*} [DecidableEq α]

namespace DotSegments

/-- Removes the last segment and its preceding slash, if any. -/
def dropLastSegment (slash : α) (output : List α) : List α :=
  (output.rdropWhile (· ≠ slash)).dropLast

/-- The loop of the algorithm; its branches are the steps A to E. -/
def removeFrom (slash dot : α) (input output : List α) : List α :=
  if input = [] then output
  else if [dot, dot, slash] <+: input then removeFrom slash dot (input.drop 3) output
  else if [dot, slash] <+: input then removeFrom slash dot (input.drop 2) output
  else if [slash, dot, slash] <+: input then removeFrom slash dot (slash :: input.drop 3) output
  else if input = [slash, dot] then removeFrom slash dot [slash] output
  else if [slash, dot, dot, slash] <+: input then
    removeFrom slash dot (slash :: input.drop 4) (dropLastSegment slash output)
  else if input = [slash, dot, dot] then
    removeFrom slash dot [slash] (dropLastSegment slash output)
  else if input = [dot] ∨ input = [dot, dot] then removeFrom slash dot [] output
  else
    -- the first segment, with the slash it may start with
    let segment := input.take 1 ++ (input.drop 1).takeWhile (· ≠ slash)
    removeFrom slash dot ((input.drop 1).dropWhile (· ≠ slash)) (output ++ segment)
termination_by input.length
decreasing_by
  · have := (‹[dot, dot, slash] <+: input›).length_le
    simp only [List.length_cons, List.length_nil, List.length_drop] at this ⊢
    omega
  · have := (‹[dot, slash] <+: input›).length_le
    simp only [List.length_cons, List.length_nil, List.length_drop] at this ⊢
    omega
  · have := (‹[slash, dot, slash] <+: input›).length_le
    simp only [List.length_cons, List.length_nil, List.length_drop] at this ⊢
    omega
  · rw [‹input = [slash, dot]›]
    simp
  · have := (‹[slash, dot, dot, slash] <+: input›).length_le
    simp only [List.length_cons, List.length_nil, List.length_drop] at this ⊢
    omega
  · rw [‹input = [slash, dot, dot]›]
    simp
  · exact List.length_pos_iff.mpr ‹¬input = []›
  · have hpos := List.length_pos_iff.mpr ‹¬input = []›
    have hle := (List.dropWhile_suffix (l := input.drop 1) (· ≠ slash)).length_le
    rw [List.length_drop] at hle
    omega

/-- `remove_dot_segments` -/
def removeDotSegments (slash dot : α) (path : List α) : List α := removeFrom slash dot path []

/-! ### One segment at a time -/

variable {slash dot : α} {segment tail output : List α}

/-- What comes after a whole segment: the end, or another segment. -/
def Follows (slash : α) (tail : List α) : Prop := tail = [] ∨ ∃ rest, tail = slash :: rest

private theorem takeWhile_segment (hsegment : slash ∉ segment) (htail : Follows slash tail) :
    (segment ++ tail).takeWhile (· ≠ slash) = segment := by
  have hall : ∀ a ∈ segment, decide (a ≠ slash) = true := by
    intro a ha
    rw [decide_eq_true_eq]
    rintro rfl
    exact hsegment ha
  rw [List.takeWhile_append_of_pos hall]
  rcases htail with rfl | ⟨rest, rfl⟩
  · simp
  · simp

private theorem dropWhile_segment (hsegment : slash ∉ segment) (htail : Follows slash tail) :
    (segment ++ tail).dropWhile (· ≠ slash) = tail := by
  have happend := List.takeWhile_append_dropWhile (p := (· ≠ slash)) (l := segment ++ tail)
  rw [takeWhile_segment hsegment htail] at happend
  exact List.append_cancel_left happend

/-- The segment that a buffer starts with is determined by the buffer. -/
theorem segment_unique {other tail' : List α} (hsegment : slash ∉ segment) (hother : slash ∉ other)
    (htail : Follows slash tail) (htail' : Follows slash tail')
    (h : segment ++ tail = other ++ tail') : segment = other := by
  rw [← takeWhile_segment hsegment htail, h, takeWhile_segment hother htail']

/-- The last segment is removed with the slash before it. -/
theorem dropLastSegment_concat (output : List α) (h : slash ∉ segment) :
    dropLastSegment slash (output ++ slash :: segment) = output := by
  have hdrop : (output ++ slash :: segment).rdropWhile (· ≠ slash) = output ++ [slash] := by
    rw [List.rdropWhile, List.reverse_append, List.reverse_cons, List.append_assoc,
      List.singleton_append, dropWhile_segment (by simpa using h) (.inr ⟨_, rfl⟩)]
    simp
  rw [dropLastSegment, hdrop, List.dropLast_concat]

/-- Nothing is left to be removed. -/
theorem removeFrom_nil (output : List α) : removeFrom slash dot [] output = output := by
  rw [removeFrom, if_pos rfl]

/-- Step E: an ordinary segment goes to the output. -/
theorem removeFrom_segment (hne : dot ≠ slash) (hsegment : slash ∉ segment)
    (hdot : segment ≠ [dot]) (hdots : segment ≠ [dot, dot]) (htail : Follows slash tail)
    (output : List α) :
    removeFrom slash dot (slash :: (segment ++ tail)) output =
      removeFrom slash dot tail (output ++ slash :: segment) := by
  have hone : slash ∉ [dot] := by simpa using hne.symm
  have htwo : slash ∉ [dot, dot] := by simpa using hne.symm
  have hnot : ∀ other rest, slash ∉ other → segment ≠ other → Follows slash rest →
      segment ++ tail ≠ other ++ rest :=
    fun other rest hother hdiffers hrest heq =>
      hdiffers (segment_unique hsegment hother htail hrest heq)
  rw [removeFrom, if_neg (by simp), if_neg (by simp [List.cons_prefix_cons, hne]),
    if_neg (by simp [List.cons_prefix_cons, hne])]
  rw [if_neg, if_neg, if_neg, if_neg, if_neg]
  · simp only [List.take_succ_cons, List.take_zero, List.drop_succ_cons, List.drop_zero,
      takeWhile_segment hsegment htail, dropWhile_segment hsegment htail, List.singleton_append]
  · simp [hne.symm]
  · intro heq
    exact hnot _ [] htwo hdots (.inl rfl) (by simpa using heq)
  · rintro ⟨rest, hrest⟩
    exact hnot _ (slash :: rest) htwo hdots (.inr ⟨_, rfl⟩) (by simpa using hrest.symm)
  · intro heq
    exact hnot _ [] hone hdot (.inl rfl) (by simpa using heq)
  · rintro ⟨rest, hrest⟩
    exact hnot _ (slash :: rest) hone hdot (.inr ⟨_, rfl⟩) (by simpa using hrest.symm)

/-- A lone slash is an empty segment. -/
theorem removeFrom_slash (hne : dot ≠ slash) (output : List α) :
    removeFrom slash dot [slash] output = output ++ [slash] := by
  have h : removeFrom slash dot (slash :: ([] ++ [])) output = _ :=
    removeFrom_segment hne (by simp) (by simp) (by simp) (.inl rfl) output
  rwa [List.append_nil, removeFrom_nil] at h

/-- Step B: a `.` segment goes, and leaves its slash if it was the last. -/
theorem removeFrom_dot (hne : dot ≠ slash) (tail output : List α) :
    removeFrom slash dot [slash, dot] output = output ++ [slash] ∧
      removeFrom slash dot (slash :: dot :: slash :: tail) output =
        removeFrom slash dot (slash :: tail) output := by
  constructor
  · rw [removeFrom, if_neg (by simp), if_neg (by simp [List.cons_prefix_cons, hne]),
      if_neg (by simp [List.cons_prefix_cons, hne]), if_neg (by simp [List.cons_prefix_cons]),
      if_pos rfl, removeFrom_slash hne]
  · rw [removeFrom, if_neg (by simp), if_neg (by simp [List.cons_prefix_cons, hne]),
      if_neg (by simp [List.cons_prefix_cons, hne]), if_pos ⟨tail, rfl⟩]
    rfl

/-- Step C: a `..` segment goes with the last segment of the output. -/
theorem removeFrom_dots (hne : dot ≠ slash) (tail output : List α) :
    removeFrom slash dot [slash, dot, dot] output = dropLastSegment slash output ++ [slash] ∧
      removeFrom slash dot (slash :: dot :: dot :: slash :: tail) output =
        removeFrom slash dot (slash :: tail) (dropLastSegment slash output) := by
  constructor
  · rw [removeFrom, if_neg (by simp), if_neg (by simp [List.cons_prefix_cons, hne]),
      if_neg (by simp [List.cons_prefix_cons, hne]),
      if_neg (by simp [List.cons_prefix_cons, hne.symm]), if_neg (by simp),
      if_neg (by simp [List.cons_prefix_cons]), if_pos rfl, removeFrom_slash hne]
  · rw [removeFrom, if_neg (by simp), if_neg (by simp [List.cons_prefix_cons, hne]),
      if_neg (by simp [List.cons_prefix_cons, hne]),
      if_neg (by simp [List.cons_prefix_cons, hne.symm]), if_neg (by simp), if_pos ⟨tail, rfl⟩]
    rfl

end DotSegments
