import TrantorCli.Lib.Ipv6
import TrantorCli.Url.Ipv6
import TrantorCli.Url.Meaning

/-!
# Which IPv6 literals are accepted

`validate_ipv6` accepts exactly the texts that denote an address, and writes the
address in the one way that has no elision. So two literals have one spelling
exactly when they are one address.
-/

open Roc

namespace TrantorCli.Url

/-! ### Groups -/

private theorem hexValue_eq_digit {byte : UInt8} (h : isHex byte = true) :
    (hexValue byte).toNat = Ipv6.digit byte := by
  rw [Ipv6.digit, digitValue_eq, if_pos h]
  rfl

/-- The group that bytes denote, as the code folds them. -/
def groupOf (bytes : List UInt8) : UInt16 := bytes.foldl hexStep 0

/-- Four digits do not overflow a group. -/
theorem toNat_groupOf {bytes : List UInt8} (hlen : bytes.length ≤ 4)
    (hhex : ∀ byte ∈ bytes, isHex byte = true) : (groupOf bytes).toNat = Ipv6.value bytes := by
  induction bytes using List.reverseRecOn with
  | nil => rfl
  | append_singleton init last ih =>
    rw [List.length_append, List.length_singleton] at hlen
    have hinit := ih (by omega) fun byte hmem => hhex byte (by simp [hmem])
    have hlast := hexValue_eq_digit (hhex last (by simp))
    have hdigit := Ipv6.digit_lt last
    have hlt : Ipv6.value init < 4096 :=
      calc Ipv6.value init < 16 ^ init.length := Ipv6.value_lt_pow init
        _ ≤ 16 ^ 3 := Nat.pow_le_pow_right (by omega) (by omega)
    have hstep : groupOf (init ++ [last]) = hexStep (groupOf init) last := by
      rw [groupOf, List.foldl_append]
      rfl
    rw [hstep, hexStep, Ipv6.value_concat, UInt16.toNat_add, UInt16.toNat_mul,
      UInt8.toNat_toUInt16, hinit, hlast]
    simp only [UInt16.reduceToNat]
    omega

/-- A group is from one to four hex digits. -/
theorem isGroup_iff {bytes : List UInt8} :
    Ipv6.IsGroup bytes ↔
      ¬(bytes.isEmpty || decide (bytes.length > 4) || !bytes.all isHex) = true := by
  simp only [Bool.or_eq_true, not_or, List.isEmpty_iff, decide_eq_true_eq, Bool.not_eq_true',
    Bool.not_eq_false, List.all_eq_true, isHex_iff_digitValue, not_lt, gt_iff_lt]
  constructor
  · exact fun h => ⟨⟨h.ne_nil, h.length_le⟩, h.digits⟩
  · rintro ⟨⟨hne, hlen⟩, hdigits⟩
    exact ⟨hne, hlen, hdigits⟩

private theorem toNat_groupOf_of_isGroup {bytes : List UInt8} (h : Ipv6.IsGroup bytes) :
    (groupOf bytes).toNat = Ipv6.value bytes :=
  toNat_groupOf h.length_le fun byte hmem => isHex_iff_digitValue.mpr (h.digits byte hmem)

/-- The groups are read exactly when each is one, and then as they are. -/
theorem parseHexGroups_iff {parts : List Str} {out values : List UInt16} :
    parseHexGroups parts out = .ok values ↔
      (∀ part ∈ parts, Ipv6.IsGroup part.bytes) ∧
        values = out ++ parts.map fun part => groupOf part.bytes := by
  induction parts generalizing out with
  | nil => simp [parseHexGroups, eq_comm]
  | cons first rest ih =>
    rw [parseHexGroups]
    simp only [Str.toUtf8_eq]
    by_cases hgroup : Ipv6.IsGroup first.bytes
    · rw [if_neg (isGroup_iff.mp hgroup), ih]
      simp [hgroup, groupOf]
    · rw [if_pos (not_not.mp (mt isGroup_iff.mpr hgroup))]
      simp [hgroup]

/-- One side of an elision is a list of groups, possibly empty. -/
theorem parseIpv6Side_iff {raw : Str} {values : List UInt16} :
    parseIpv6Side raw = .ok values ↔
      ∃ groups, (∀ group ∈ groups, Ipv6.IsGroup group) ∧ raw.bytes = Ipv6.joined groups ∧
        values = groups.map groupOf := by
  have hsplit : (raw.splitOn (.lit ":")).map Str.bytes = raw.bytes.splitOn 58 := by
    rw [Str.splitOn_bytes, colon_bytes, Cut.pieces_singleton]
  rw [parseIpv6Side]
  split
  · next hempty =>
    rw [Str.isEmpty_iff] at hempty
    constructor
    · intro h
      cases h
      exact ⟨[], by simp, hempty, rfl⟩
    · rintro ⟨groups, hgroups, hraw, rfl⟩
      rw [Ipv6.joined_eq_nil hgroups (hraw.symm.trans hempty)]
      rfl
  · next hne =>
    rw [parseHexGroups_iff, List.nil_append]
    constructor
    · rintro ⟨hgroups, rfl⟩
      refine ⟨(raw.splitOn (.lit ":")).map Str.bytes, List.forall_mem_map.mpr hgroups, ?_, ?_⟩
      · rw [hsplit, Ipv6.joined, List.intercalate_splitOn]
      · rw [List.map_map]
        rfl
    · rintro ⟨groups, hgroups, hraw, rfl⟩
      have hnil : groups ≠ [] := by
        rintro rfl
        exact hne (Str.isEmpty_iff.mpr hraw)
      have hparts : (raw.splitOn (.lit ":")).map Str.bytes = groups := by
        rw [hsplit, hraw, Ipv6.joined]
        exact List.splitOn_intercalate 58
          (fun group hmem => (hgroups group hmem).colon_not_mem) hnil
      constructor
      · rw [← List.forall_mem_map (f := Str.bytes), hparts]
        exact hgroups
      · rw [← hparts, List.map_map]
        rfl

/-! ### Written addresses -/

/-- Digits are written from the low end. -/
theorem u16ToHexHelp_bytes (value : UInt16) (digits : List UInt8) (hvalue : value ≠ 0)
    (hdigits : ∀ byte ∈ digits, isHex byte = true) :
    (u16ToHexHelp value digits).bytes =
      ((Nat.digits 16 value.toNat).map Ipv6.lowerDigit).reverse ++ digits := by
  have hlow : ∀ value : UInt16,
      lowerHexDigitByte (value % 16).toUInt8 = Ipv6.lowerDigit (value.toNat % 16) := by
    intro value
    have hbyte : ∀ low : UInt8, low < 16 → lowerHexDigitByte low = Ipv6.lowerDigit low.toNat := by
      intro low
      apply Words.forall_uint8 _ low
      decide +kernel
    rw [hbyte _ (lowDigit_lt value)]
    congr 1
    simp
    omega
  induction value, digits using u16ToHexHelp.induct with
  | case1 value digits next hnext =>
    have hhex := isHex_lowDigit_cons value hdigits
    have hzero : value / 16 = 0 := eq_of_beq hnext
    have hdiv : value.toNat / 16 = 0 := by simpa using congrArg UInt16.toNat hzero
    have hpos : 0 < value.toNat := Nat.pos_of_ne_zero fun h => hvalue (UInt16.toNat_inj.mp h)
    rw [u16ToHexHelp]
    simp only [hzero, beq_self_eq_true, if_true]
    rw [Str.fromUtf8Lossy_bytes (ascii_of_isHex hhex).valid, Nat.digits_def' (by omega) hpos, hdiv,
      hlow value]
    simp
  | case2 value digits nextDigits next hnext ih =>
    have hne : next ≠ 0 := fun h => hnext (beq_iff_eq.mpr h)
    have hdiv : next.toNat = value.toNat / 16 := by simp [next]
    have hpos : 0 < value.toNat := Nat.pos_of_ne_zero fun h => hvalue (UInt16.toNat_inj.mp h)
    have hhelp : u16ToHexHelp value digits = u16ToHexHelp next nextDigits := by
      conv_lhs => rw [u16ToHexHelp]
      simp only [show (value / 16 == 0) = false by simpa using hnext]
      rfl
    rw [hhelp, ih hne (isHex_lowDigit_cons value hdigits), Nat.digits_def' (by omega) hpos, hdiv,
      List.map_cons, List.reverse_cons, List.append_assoc, ← hlow value]

/-- A group is written in hexadecimal, in lower case and without padding. -/
theorem u16ToHex_bytes (value : UInt16) : (u16ToHex value).bytes = Ipv6.hex value.toNat := by
  by_cases hzero : value = 0
  · subst hzero
    rfl
  · have hneg : ¬(value == 0) = true := by simpa using hzero
    have hnat : ¬value.toNat = 0 := fun h => hzero (UInt16.toNat_inj.mp h)
    rw [u16ToHex, if_neg hneg, Ipv6.hex, if_neg hnat,
      u16ToHexHelp_bytes value [] hzero (by simp), List.append_nil]

private theorem serializeIpv6_bytes (groups : List UInt16) :
    (serializeIpv6 groups).bytes = Ipv6.write (groups.map UInt16.toNat) := by
  rw [serializeIpv6, Str.joinWith_bytes, colon_bytes, List.map_map, Ipv6.write, Ipv6.joined,
    List.map_map]
  exact congrArg _ (List.map_congr_left fun value _ => u16ToHex_bytes value)

private theorem map_toNat_groupOf {groups : List (List UInt8)}
    (h : ∀ group ∈ groups, Ipv6.IsGroup group) :
    (groups.map groupOf).map UInt16.toNat = groups.map Ipv6.value := by
  rw [List.map_map]
  exact List.map_congr_left fun group hmem => toNat_groupOf_of_isGroup (h group hmem)

/-! ### Validation -/

private theorem not_pair_of_isGroup {groups : List (List UInt8)}
    (h : ∀ group ∈ groups, Ipv6.IsGroup group) :
    Cut.cut [58, 58] (Ipv6.joined groups) = none ∧ (Ipv6.joined groups).getLast? ≠ some 58 :=
  Cut.cut_pair_intercalate fun group hmem => ⟨(h group hmem).ne_nil, (h group hmem).colon_not_mem⟩

/-- The sides of an elision are the pieces of the text. -/
theorem splitOn_elided {raw : Str} {left right : List (List UInt8)}
    (hleft : ∀ group ∈ left, Ipv6.IsGroup group) (hright : ∀ group ∈ right, Ipv6.IsGroup group)
    (hraw : raw.bytes = Ipv6.joined left ++ [58, 58] ++ Ipv6.joined right) :
    ∃ before after, raw.splitOn (.lit "::") = [before, after] ∧
      before.bytes = Ipv6.joined left ∧ after.bytes = Ipv6.joined right := by
  obtain ⟨hcut, hlast⟩ := not_pair_of_isGroup hleft
  have hmap := Str.splitOn_bytes raw (.lit "::")
  rw [twoColons_bytes, hraw, Cut.pieces_of_cut_some (by simp) (Cut.cut_pair hcut hlast),
    Cut.pieces_of_cut_none (not_pair_of_isGroup hright).1] at hmap
  obtain ⟨before, tail, hparts, hbefore, htail⟩ := List.map_eq_cons_iff.mp hmap
  obtain ⟨after, rest, rfl, hafter, hrest⟩ := List.map_eq_cons_iff.mp htail
  rw [List.map_eq_nil_iff.mp hrest] at hparts
  exact ⟨before, after, hparts, hbefore, hafter⟩

private theorem serializeIpv6_elided {left right : List (List UInt8)}
    (hleft : ∀ group ∈ left, Ipv6.IsGroup group) (hright : ∀ group ∈ right, Ipv6.IsGroup group)
    (zeros : ℕ) :
    (serializeIpv6 (left.map groupOf ++ List.replicate zeros 0 ++ right.map groupOf)).bytes =
      Ipv6.write (left.map Ipv6.value ++ List.replicate zeros 0 ++ right.map Ipv6.value) := by
  rw [serializeIpv6_bytes, List.map_append, List.map_append, List.map_replicate,
    map_toNat_groupOf hleft, map_toNat_groupOf hright]
  rfl

/-- A text that denotes an address is accepted. -/
theorem validateIpv6_of_denotes {raw : Str} {values : List ℕ} (h : Ipv6.Denotes raw.bytes values) :
    ∃ host, validateIpv6 raw = .ok host ∧ host.bytes = Ipv6.write values := by
  generalize hraw : raw.bytes = text at h
  cases h with
  | @full groups hlen hgroups =>
    have hcut : Cut.cut (Str.lit "::").bytes raw.bytes = none := by
      rw [hraw]
      exact (not_pair_of_isGroup hgroups).1
    have hside : parseIpv6Side raw = .ok (groups.map groupOf) :=
      parseIpv6Side_iff.mpr ⟨groups, hgroups, hraw, rfl⟩
    refine ⟨serializeIpv6 (groups.map groupOf), ?_, ?_⟩
    · rw [validateIpv6, Str.splitOn_of_cut_none hcut]
      simp [hside, hlen, bind, Except.bind]
    · rw [serializeIpv6_bytes, map_toNat_groupOf hgroups]
  | @elided left right hlen hleft hright =>
    obtain ⟨before, after, hsplit, hbefore, hafter⟩ := splitOn_elided hleft hright hraw
    have hbefore' : parseIpv6Side before = .ok (left.map groupOf) :=
      parseIpv6Side_iff.mpr ⟨left, hleft, hbefore, rfl⟩
    have hafter' : parseIpv6Side after = .ok (right.map groupOf) :=
      parseIpv6Side_iff.mpr ⟨right, hright, hafter, rfl⟩
    have hcount : ¬8 ≤ left.length + right.length := by omega
    refine ⟨serializeIpv6 (left.map groupOf ++
      List.replicate (8 - (left.length + right.length)) 0 ++ right.map groupOf), ?_, ?_⟩
    · rw [validateIpv6, hsplit]
      simp [getOrEmpty, hbefore', hafter', hcount, bind, Except.bind]
    · exact serializeIpv6_elided hleft hright _

/-- An accepted text denotes the address that is written. -/
theorem denotes_of_validateIpv6 {raw host : Str} (h : validateIpv6 raw = .ok host) :
    ∃ values, Ipv6.Denotes raw.bytes values ∧ host.bytes = Ipv6.write values := by
  have hjoin := Str.joinWith_splitOn raw (.lit "::")
  unfold validateIpv6 at h
  simp only [bind, Except.bind] at h
  split at h
  · cases h
  next hfew =>
  split at h
  · split at h
    · cases h
    next groups hside =>
    split at h
    · next hlen =>
      cases h
      obtain ⟨texts, htexts, hraw, rfl⟩ := parseIpv6Side_iff.mp hside
      rw [hraw, serializeIpv6_bytes, map_toNat_groupOf htexts]
      exact ⟨_, .full (by simpa using hlen) htexts, rfl⟩
    · cases h
  next hone =>
  have htwo : (raw.splitOn (.lit "::")).length = 2 := by
    have hpos := List.length_pos_iff.mpr (Str.splitOn_ne_nil raw (.lit "::"))
    have hone' : (raw.splitOn (.lit "::")).length ≠ 1 := by simpa using hone
    omega
  obtain ⟨before, after, hsplit⟩ := List.length_eq_two.mp htwo
  rw [hsplit] at h hjoin
  split at h
  · cases h
  next left hleft =>
  split at h
  · cases h
  next right hright =>
  split at h
  · cases h
  next hcount =>
  cases h
  obtain ⟨lefts, hlefts, hbefore, rfl⟩ := parseIpv6Side_iff.mp hleft
  obtain ⟨rights, hrights, hafter, rfl⟩ := parseIpv6Side_iff.mp hright
  have hraw : raw.bytes = Ipv6.joined lefts ++ [58, 58] ++ Ipv6.joined rights := by
    have hbefore' : before.bytes = Ipv6.joined lefts := hbefore
    have hafter' : after.bytes = Ipv6.joined rights := hafter
    rw [← hjoin, Str.joinWith_bytes, ← hbefore', ← hafter', twoColons_bytes]
    simp [List.intercalate_cons_of_ne_nil]
  simp only [List.length_map] at hcount ⊢
  rw [hraw]
  exact ⟨_, .elided (by omega) hlefts hrights, serializeIpv6_elided hlefts hrights _⟩

/-- An address is valid when it denotes one, which is then written canonically. -/
theorem validateIpv6_iff {raw host : Str} :
    validateIpv6 raw = .ok host ↔
      ∃ values, Ipv6.Denotes raw.bytes values ∧ host.bytes = Ipv6.write values := by
  constructor
  · exact denotes_of_validateIpv6
  · rintro ⟨values, hdenotes, hbytes⟩
    obtain ⟨found, hvalid, hfound⟩ := validateIpv6_of_denotes hdenotes
    rwa [Str.ext (hbytes.trans hfound.symm)]

/-- Validation writes out eight groups. -/
theorem exists_groups_of_validateIpv6 {raw host : Str} (h : validateIpv6 raw = .ok host) :
    ∃ groups, groups.length = 8 ∧ host = serializeIpv6 groups := by
  obtain ⟨values, hdenotes, hhost⟩ := denotes_of_validateIpv6 h
  have hvalues : (values.map UInt16.ofNat).map UInt16.toNat = values := by
    have hvalue : ∀ n ∈ values, (UInt16.toNat ∘ UInt16.ofNat) n = id n := fun n hn =>
      UInt16.toNat_ofNat_of_lt' (hdenotes.lt n hn)
    rw [List.map_map, List.map_congr_left hvalue, List.map_id]
  refine ⟨values.map UInt16.ofNat, by rw [List.length_map, hdenotes.length], Str.ext ?_⟩
  rw [serializeIpv6_bytes, hvalues, hhost]

/-- A written address validates to itself. -/
theorem validateIpv6_serializeIpv6 {groups : List UInt16} (hlen : groups.length = 8) :
    validateIpv6 (serializeIpv6 groups) = .ok (serializeIpv6 groups) := by
  have hdenotes : Ipv6.Denotes (serializeIpv6 groups).bytes (groups.map UInt16.toNat) := by
    rw [serializeIpv6_bytes]
    refine Ipv6.denotes_write (by rw [List.length_map, hlen]) fun n hn => ?_
    obtain ⟨value, -, rfl⟩ := List.mem_map.mp hn
    exact value.toNat_lt
  exact validateIpv6_iff.mpr ⟨_, hdenotes, serializeIpv6_bytes groups⟩

/-- Validation accepts the texts of addresses and nothing else, and gives each address the one
spelling that has all eight groups in lower-case hexadecimal without padding. -/
theorem validateIpv6_grammar (raw : Str) :
    (∀ host, validateIpv6 raw = .ok host ↔
      ∃ values, Ipv6.Denotes raw.bytes values ∧ host.bytes = Ipv6.write values) ∧
    (∀ host, validateIpv6 raw = .ok host → validateIpv6 host = .ok host) ∧
    (∀ other host host' values others, validateIpv6 raw = .ok host →
      validateIpv6 other = .ok host' → Ipv6.Denotes raw.bytes values →
        Ipv6.Denotes other.bytes others → Ipv6.address values < 2 ^ 128 ∧
          (host = host' ↔ Ipv6.address values = Ipv6.address others)) := by
  refine ⟨fun host => validateIpv6_iff, fun host h => ?_, ?_⟩
  · obtain ⟨groups, hlen, rfl⟩ := exists_groups_of_validateIpv6 h
    exact validateIpv6_serializeIpv6 hlen
  · intro other host host' values others h h' hdenotes hothers
    obtain ⟨found, hvalid, hfound⟩ := validateIpv6_of_denotes hdenotes
    obtain ⟨found', hvalid', hfound'⟩ := validateIpv6_of_denotes hothers
    cases h.symm.trans hvalid
    cases h'.symm.trans hvalid'
    refine ⟨hdenotes.address_lt, ?_⟩
    rw [← hdenotes.eq_iff hothers]
    constructor
    · rintro rfl
      exact Ipv6.write_injective hdenotes.ne_nil hothers.ne_nil (hfound.symm.trans hfound')
    · rintro rfl
      exact Str.ext (hfound.trans hfound'.symm)

end TrantorCli.Url
