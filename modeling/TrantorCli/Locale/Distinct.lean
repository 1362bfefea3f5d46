import TrantorCli.Locale

/-!
# Distinct locales

The list of tags has one member for each tag that some candidate has, in the
spelling and at the place of the earliest one. Parsing the tags drops some of them
and makes no two of the others equal.
-/

open Roc AsciiCase

namespace TrantorCli.Host

/-- The candidate at `i` has the tag, and no candidate before it has that tag in any case. -/
def Earliest (candidates : List Str) (i : Nat) (tag : Str) : Prop :=
  (∃ candidate ∈ candidates[i]?, localeTag candidate = some tag) ∧
    ∀ j < i, ∀ candidate ∈ candidates[j]?, ∀ other, localeTag candidate = some other →
      ¬SameButCase other.bytes tag.bytes

/-- Tags that stand for those of some candidates, each once and in the first spelling. -/
structure KeepsFirst (candidates tags : List Str) : Prop where
  /-- No two tags differ only in case. -/
  distinct : tags.Pairwise fun s t => ¬SameButCase s.bytes t.bytes
  /-- Every tag is that of a candidate. -/
  sound : ∀ tag ∈ tags, ∃ candidate ∈ candidates, localeTag candidate = some tag
  /-- Every tag of a candidate is there, in some case. -/
  complete : ∀ candidate ∈ candidates, ∀ tag, localeTag candidate = some tag →
    ∃ kept ∈ tags, SameButCase kept.bytes tag.bytes
  /-- The tags are those of the earliest candidates, in their order. -/
  earliest : ∃ positions : List Nat, positions.Pairwise (· < ·) ∧
    List.Forall₂ (Earliest candidates) positions tags

private theorem keepsFirst_localeTags (candidates : List Str) :
    KeepsFirst candidates (localeTags candidates) := by
  rw [localeTags_eq]
  refine ⟨?_, fun tag htag => KeepFirst.exists_of_mem_firsts htag, ?_, ?_⟩
  · refine (KeepFirst.pairwise_firsts localeTag asciiLower candidates).imp fun hne h => ?_
    exact hne (asciiLower_eq_iff.mpr h)
  · intro candidate hmem tag htag
    obtain ⟨kept, hkept, hkey⟩ := KeepFirst.exists_mem_firsts asciiLower hmem htag
    exact ⟨kept, hkept, asciiLower_eq_iff.mp hkey⟩
  · obtain ⟨positions, hsorted, -, hearliest⟩ :=
      KeepFirst.exists_positions localeTag asciiLower candidates
    refine ⟨positions, hsorted, hearliest.imp fun i tag ⟨hat, hbefore⟩ => ⟨hat, ?_⟩⟩
    intro j hj candidate hmem other hother hsame
    exact hbefore j hj candidate hmem other hother (asciiLower_eq_iff.mpr hsame)

private theorem prefix_localeTags (candidates more : List Str) :
    localeTags candidates <+: localeTags (candidates ++ more) := by
  rw [localeTags_eq, localeTags_eq]
  exact KeepFirst.prefix_firsts localeTag asciiLower candidates more

end TrantorCli.Host

namespace TrantorCli.Locale

/-- Parsing leaves tags distinct that are. -/
theorem pairwise_keepOks {tags : List Str}
    (h : tags.Pairwise fun s t => ¬SameButCase s.bytes t.bytes) :
    (keepOks tags parse).Pairwise fun left right => ¬isEq left right = true := by
  have hraw {tag : Str} {locale : Locale} (h : (parse tag).toOption = some locale) :
      locale.raw = tag := by
    cases hparse : parse tag with
    | error err => rw [hparse] at h; cases h
    | ok found =>
      rw [hparse] at h
      obtain rfl := Option.some_inj.mp h
      exact parse_eq_ok_iff.mp hparse
  refine List.pairwise_filterMap.mpr (h.imp fun hne left hleft right hright => ?_)
  rwa [isEq_iff, hraw hleft, hraw hright]

private theorem prefix_keepOks {tags more : List Str} (h : tags <+: more) :
    keepOks tags parse <+: keepOks more parse :=
  h.filterMap _

/-- The tags of a list of candidates are those of the earliest ones, each once; what parses of them
is distinct, and candidates that are added behind change nothing in front. -/
theorem localeTags_keep_first (candidates : List Str) :
    Host.KeepsFirst candidates (Host.localeTags candidates) ∧
      (keepOks (Host.localeTags candidates) parse).Pairwise
        (fun left right => ¬isEq left right = true) ∧
      (∀ env, (all env).Pairwise fun left right => ¬isEq left right = true) ∧
      ∀ more, Host.localeTags candidates <+: Host.localeTags (candidates ++ more) ∧
        keepOks (Host.localeTags candidates) parse <+:
          keepOks (Host.localeTags (candidates ++ more)) parse := by
  have hdistinct (candidates : List Str) := (Host.keepsFirst_localeTags candidates).distinct
  refine ⟨Host.keepsFirst_localeTags candidates, pairwise_keepOks (hdistinct candidates),
    fun env => pairwise_keepOks (hdistinct _), fun more => ?_⟩
  have hstart := Host.prefix_localeTags candidates more
  exact ⟨hstart, prefix_keepOks hstart⟩

end TrantorCli.Locale
