import Mathlib.Tactic.ByContra
import Recompiler.Options

/-!
# Accepted options

What `Options.validate` has checked of options and regions when it accepts them.

* `exists_of_isPowerOfTwo`: what the check of a length comes to.
* `Options.Sized`, `Options.validate_of_sized`: the checks of sizes, and what is left after them.
* `Options.Accepted`: all the checks.
* `Options.accepted_of_validate`: accepted options pass them.
* `Options.validate_guarded`: guarded accesses are always accepted.
-/

namespace Recompiler

/-- A word with exactly one bit set is a power of two. -/
theorem exists_of_isPowerOfTwo {w : UInt32} (h : isPowerOfTwo w = true) :
    ∃ k : Fin 32, w = 1 <<< k.val.toUInt32 := by
  obtain ⟨hne, hand⟩ : w ≠ 0 ∧ w &&& (w - 1) = 0 := by simpa [isPowerOfTwo] using h
  have hnat : w.toNat ≠ 0 := fun heq => hne (UInt32.toNat_inj.1 heq)
  have hpred : (w - 1).toNat = w.toNat - 1 := by
    have hsub := UInt32.toNat_sub w 1
    have hlt := w.toNat_lt
    change _ = (2 ^ 32 - 1 + w.toNat) % 2 ^ 32 at hsub
    omega
  have hzero : w.toNat &&& (w.toNat - 1) = 0 := by
    rw [← hpred, ← UInt32.toNat_and, hand]
    rfl
  obtain ⟨k, hk⟩ := Nat.ne_zero_and_sub_one_eq_zero_iff_isPowerOfTwo.1 ⟨hnat, hzero⟩
  have hk32 : k < 32 := by
    have hlt := w.toNat_lt
    rw [hk] at hlt
    exact (Nat.pow_lt_pow_iff_right (by decide)).1 hlt
  refine ⟨⟨k, hk32⟩, UInt32.toNat_inj.1 ?_⟩
  rw [hk]
  exact (by decide : ∀ k : Fin 32, 2 ^ k.val = (1 <<< k.val.toUInt32 : UInt32).toNat) ⟨k, hk32⟩

namespace Options

/-- Without an overlap no region shares an address with one before it. -/
theorem pairwise_of_firstOverlap {before regions : List FastRegion}
    (h : firstOverlap before regions = none) :
    regions.Pairwise (fun q r => q.overlaps r = false) ∧
      ∀ q ∈ before, ∀ r ∈ regions, q.overlaps r = false := by
  induction regions generalizing before with
  | nil => exact ⟨.nil, fun _ _ _ hr => by cases hr⟩
  | cons region rest ih =>
    rw [firstOverlap] at h
    split at h
    · cases h
    · next hfind =>
      have hbefore : ∀ q ∈ before, q.overlaps region = false := by
        simpa using List.find?_eq_none.1 hfind
      obtain ⟨hpairwise, hrest⟩ := ih h
      refine ⟨List.pairwise_cons.2 ⟨fun r hr => ?_, hpairwise⟩, fun q hq r hr => ?_⟩
      · exact hrest region (by simp) r hr
      · rcases List.mem_cons.1 hr with rfl | hr
        · exact hbefore q hq
        · exact hrest q (List.mem_append_left _ hq) r hr

/-- The checks that accepted options pass. -/
structure Accepted (o : Options) (regions : List FastRegion) : Prop where
  blocks : o.maxBlocks ≠ 0
  instructions : o.maxBlockInstructions ≠ 0
  margin : o.reservedCodeMargin < o.codeSize
  apart : regions.Pairwise fun q r => q.overlaps r = false
  main : o.fastMemory = true → ∃ main rest, regions = main :: rest ∧ isPowerOfTwo main.length = true

/-- The sizes pass their checks, which come before the checks of the regions. -/
structure Sized (o : Options) : Prop where
  blocks : o.maxBlocks ≠ 0
  instructions : o.maxBlockInstructions ≠ 0
  margin : o.reservedCodeMargin < o.codeSize

variable {o : Options} {regions : List FastRegion}

/-- With sizes that pass, overlaps are looked for first, and the mode of access comes last. -/
theorem validate_of_sized (h : o.Sized) (regions : List FastRegion) :
    o.validate regions =
      match firstOverlap [] regions with
      | some (q, r) => .error (.overlappingRegions q.start r.start)
      | none =>
        if o.fastMemory then
          match regions with
          | [] => .error .noRegion
          | main :: _ =>
            if isPowerOfTwo main.length then .ok () else .error (.notPowerOfTwo main.length)
        else .ok () := by
  unfold validate
  rw [if_neg h.blocks, if_neg h.instructions, if_neg (Nat.not_le.2 h.margin)]
  cases firstOverlap [] regions with
  | some pair => rfl
  | none =>
    cases o.fastMemory with
    | false => rfl
    | true =>
      cases regions with
      | nil => rfl
      | cons main rest =>
        dsimp only
        cases isPowerOfTwo main.length <;> rfl

/-- Sizes that do not pass are all that is reported. -/
theorem sized_of_validate
    (h : o.validate regions = .ok () ∨
      ∃ first second, o.validate regions = .error (.overlappingRegions first second)) :
    o.Sized := by
  unfold validate at h
  by_cases hblocks : o.maxBlocks = 0
  · rw [if_pos hblocks] at h
    obtain h | ⟨_, _, h⟩ := h <;> cases h
  rw [if_neg hblocks] at h
  by_cases hinstructions : o.maxBlockInstructions = 0
  · rw [if_pos hinstructions] at h
    obtain h | ⟨_, _, h⟩ := h <;> cases h
  rw [if_neg hinstructions] at h
  by_cases hmargin : o.codeSize ≤ o.reservedCodeMargin
  · rw [if_pos hmargin] at h
    obtain h | ⟨_, _, h⟩ := h <;> cases h
  exact ⟨hblocks, hinstructions, Nat.not_le.1 hmargin⟩

theorem accepted_of_validate (h : o.validate regions = .ok ()) : o.Accepted regions := by
  have hsized : o.Sized := sized_of_validate (.inl h)
  rw [validate_of_sized hsized] at h
  cases hoverlap : firstOverlap [] regions with
  | some pair =>
    rw [hoverlap] at h
    cases h
  | none =>
    rw [hoverlap] at h
    refine ⟨hsized.blocks, hsized.instructions, hsized.margin,
      (pairwise_of_firstOverlap hoverlap).1, fun hfast => ?_⟩
    dsimp only at h
    rw [if_pos hfast] at h
    cases regions with
    | nil => cases h
    | cons main rest =>
      refine ⟨main, rest, rfl, ?_⟩
      by_contra hpower
      dsimp only at h
      rw [if_neg hpower] at h
      cases h

/-- Options that are accepted are accepted with guarded accesses, too. -/
theorem validate_guarded (h : o.validate regions = .ok ()) :
    { o with fastMemory := false }.validate regions = .ok () := by
  have hsized : o.Sized := sized_of_validate (.inl h)
  have hguarded : { o with fastMemory := false }.Sized :=
    ⟨hsized.blocks, hsized.instructions, hsized.margin⟩
  rw [validate_of_sized hsized] at h
  rw [validate_of_sized hguarded]
  cases hoverlap : firstOverlap [] regions with
  | some pair =>
    rw [hoverlap] at h
    cases h
  | none => rfl

end Options

end Recompiler
