import Recompiler.Proofs.Options

/-!
# Regions that share addresses

When fast regions overlap, told by the guest addresses that belong to them. Two regions with bytes
overlap exactly if they share an address. An empty region has no address to share, but it overlaps
a region whose addresses lie on both sides of its start.

* `FastRegion.Shares`, `FastRegion.Parts`: the two ways to overlap.
* `FastRegion.overlaps_iff`: there are no others.
* `Options.validate_eq_overlappingRegions_iff`: when options are refused because of their regions.
* `Options.refuses_shared_addresses`: overlaps, and refusals because of them, told by addresses.
-/

namespace Recompiler

namespace FastRegion

/-- Some guest address belongs to both regions. -/
def Shares (r q : FastRegion) : Prop :=
  ∃ addr : UInt32, r.holds addr 1 = true ∧ q.holds addr 1 = true

/-- The region is empty, and its start lies behind the first address of the other region, but not
behind the last one. -/
def Parts (r q : FastRegion) : Prop :=
  r.length = 0 ∧ q.start < r.start ∧ q.holds r.start 1 = true

variable {r q : FastRegion} {addr : UInt32}

/-- The addresses of a region are those from its start to its stop. -/
theorem holds_one_iff :
    r.holds addr 1 = true ↔ r.start.toNat ≤ addr.toNat ∧ addr.toNat < r.stop := by
  rw [holds, offset?, stop]
  by_cases hle : r.start ≤ addr
  · have hsub : (addr - r.start).toNat = addr.toNat - r.start.toNat :=
      UInt32.toNat_sub_of_le _ _ hle
    have hstart : r.start.toNat ≤ addr.toNat := UInt32.le_iff_toNat_le.1 hle
    by_cases hend : (addr - r.start).toNat + 1 ≤ r.length.toNat
    · rw [if_pos ⟨hle, hend⟩]
      simp only [Option.isSome_some, true_iff]
      omega
    · rw [if_neg fun h => hend h.2]
      simp only [Option.isSome_none, Bool.false_eq_true, false_iff]
      omega
  · rw [if_neg fun h => hle h.1]
    rw [UInt32.le_iff_toNat_le] at hle
    simp only [Option.isSome_none, Bool.false_eq_true, false_iff]
    omega

theorem length_eq_zero_iff : r.length = 0 ↔ r.stop = r.start.toNat := by
  rw [← UInt32.toNat_inj, stop]
  simp

/-- Regions that share an address share the later one of their starts. -/
theorem shares_iff :
    r.Shares q ↔ r.length ≠ 0 ∧ q.length ≠ 0 ∧ r.overlaps q = true := by
  have hr : r.start.toNat ≤ r.stop := Nat.le_add_right _ _
  have hq : q.start.toNat ≤ q.stop := Nat.le_add_right _ _
  simp only [ne_eq, length_eq_zero_iff, overlaps, Bool.and_eq_true, decide_eq_true_eq]
  constructor
  · rintro ⟨addr, hin, hin'⟩
    rw [holds_one_iff] at hin hin'
    omega
  · intro h
    by_cases hle : r.start.toNat ≤ q.start.toNat
    · refine ⟨q.start, holds_one_iff.2 ?_, holds_one_iff.2 ?_⟩ <;> omega
    · refine ⟨r.start, holds_one_iff.2 ?_, holds_one_iff.2 ?_⟩ <;> omega

theorem parts_iff : r.Parts q ↔ r.length = 0 ∧ r.overlaps q = true := by
  rw [Parts, holds_one_iff, UInt32.lt_iff_toNat_lt]
  simp only [length_eq_zero_iff, overlaps, Bool.and_eq_true, decide_eq_true_eq]
  omega

/-- An empty region has nothing to share. -/
theorem not_shares_of_parts (h : r.Parts q ∨ q.Parts r) : ¬r.Shares q := by
  intro hshares
  obtain ⟨hr, hq, -⟩ := shares_iff.1 hshares
  obtain hparts | hparts := h
  · exact hr hparts.1
  · exact hq hparts.1

/-- Regions overlap if they share an address, or if one of them is empty and parts the other. -/
theorem overlaps_iff : r.overlaps q = true ↔ r.Shares q ∨ r.Parts q ∨ q.Parts r := by
  rw [shares_iff, parts_iff, parts_iff, overlaps_comm q r]
  by_cases hr : r.length = 0
  · simp [hr]
  · by_cases hq : q.length = 0 <;> simp [hr, hq]

end FastRegion

namespace Options

/-- A pair that is found overlaps, and stands in the order of the list. -/
theorem overlaps_of_firstOverlap {before regions : List FastRegion} {q r : FastRegion}
    (h : firstOverlap before regions = some (q, r)) :
    q.overlaps r = true ∧ [q, r].Sublist (before ++ regions) := by
  induction regions generalizing before with
  | nil => cases h
  | cons region rest ih =>
    rw [firstOverlap] at h
    split at h
    · next other hfind =>
      cases h
      have hmem : q ∈ before := List.mem_of_find?_eq_some hfind
      have hlast : [r].Sublist (r :: rest) := by simp
      exact ⟨by simpa using List.find?_some hfind,
        (List.singleton_sublist.2 hmem).append hlast⟩
    · have hrest := ih h
      rwa [List.append_assoc, List.singleton_append] at hrest

/-- Regions are found to overlap exactly if two of them do. -/
theorem exists_firstOverlap_iff {regions : List FastRegion} :
    (∃ q r, firstOverlap [] regions = some (q, r)) ↔
      ∃ q r, [q, r].Sublist regions ∧ q.overlaps r = true := by
  constructor
  · rintro ⟨q, r, h⟩
    obtain ⟨hoverlap, hsublist⟩ := overlaps_of_firstOverlap h
    exact ⟨q, r, hsublist, hoverlap⟩
  · rintro ⟨q, r, hsublist, hoverlap⟩
    cases hfirst : firstOverlap [] regions with
    | some pair => exact ⟨pair.1, pair.2, rfl⟩
    | none =>
      have hpairwise := (pairwise_of_firstOverlap hfirst).1
      have hapart : q.overlaps r = false := List.pairwise_iff_forall_sublist.1 hpairwise hsublist
      exact absurd hoverlap (Bool.eq_false_iff.1 hapart)

/-- Overlaps are reported whenever there are some and the sizes pass their checks. -/
theorem validate_eq_overlappingRegions_iff {o : Options} {regions : List FastRegion}
    {first second : UInt32} :
    o.validate regions = .error (.overlappingRegions first second) ↔
      o.Sized ∧ ∃ q r, firstOverlap [] regions = some (q, r) ∧ q.start = first ∧
        r.start = second := by
  constructor
  · intro h
    have hsized : o.Sized := sized_of_validate (.inr ⟨first, second, h⟩)
    refine ⟨hsized, ?_⟩
    rw [validate_of_sized hsized] at h
    cases hoverlap : firstOverlap [] regions with
    | some pair =>
      rw [hoverlap] at h
      cases h
      exact ⟨pair.1, pair.2, rfl, rfl, rfl⟩
    | none =>
      -- What is checked after the overlaps is reported in other words.
      rw [hoverlap] at h
      dsimp only at h
      split at h
      · split at h
        · cases h
        · split at h <;> cases h
      · cases h
  · rintro ⟨hsized, q, r, hoverlap, rfl, rfl⟩
    rw [validate_of_sized hsized, hoverlap]

/-- Two regions overlap, in whatever order, exactly if some guest address belongs to both of them or
one is empty and parts the other. So overlapping means a shared address, empty regions inside others
apart. Options whose sizes pass their checks are refused because of the regions of a bus exactly if
two of the regions overlap in one of these ways. -/
theorem refuses_shared_addresses (r q : FastRegion) (o : Options) (regions : List FastRegion) :
    r.overlaps q = q.overlaps r ∧
    (r.overlaps q = true ↔ r.Shares q ∨ r.Parts q ∨ q.Parts r) ∧
    ((r.overlaps q = true ↔ r.Shares q) ↔ ¬(r.Parts q ∨ q.Parts r)) ∧
    ((∃ first second, o.validate regions = .error (.overlappingRegions first second)) ↔
      o.Sized ∧ ∃ q r, [q, r].Sublist regions ∧ (q.Shares r ∨ q.Parts r ∨ r.Parts q)) := by
  refine ⟨r.overlaps_comm q, FastRegion.overlaps_iff, ?_, ?_⟩
  · have hapart : r.Parts q ∨ q.Parts r → ¬r.Shares q := FastRegion.not_shares_of_parts
    rw [FastRegion.overlaps_iff, or_iff_left_iff_imp]
    exact ⟨fun h hparts => hapart hparts (h hparts), fun h hparts => absurd hparts h⟩
  · simp only [← FastRegion.overlaps_iff, ← exists_firstOverlap_iff,
      validate_eq_overlappingRegions_iff]
    constructor
    · rintro ⟨-, -, hsizes, q, r, hfirst, -⟩
      exact ⟨hsizes, q, r, hfirst⟩
    · rintro ⟨hsizes, q, r, hfirst⟩
      exact ⟨q.start, r.start, hsizes, q, r, hfirst, rfl, rfl⟩

/-- No address belongs to an empty region, and still it is refused inside another one. -/
example : standard.validate [⟨5, 0, 0⟩, ⟨0, 16, 0⟩] = .error (.overlappingRegions 5 0) :=
  rfl

end Options

end Recompiler
