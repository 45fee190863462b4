import Mathlib.Algebra.Group.Nat.Defs
import Recompiler.Guest.Pattern

/-!
# Words as bits

The bits of a word, and the field of a word as a run of its bits.

* `Word.hasBit`: the bit of a word at a place; `Word.eq_of_hasBit`: a word is its bits.
* `Word.hasBit_shiftLeft`, `Word.hasBit_shiftRight`, `Word.hasBit_ones`: the bits of shifted words.
* `Field.Inside`, `Field.covers`: a field that lies in a word, and the bits that belong to it.
* `Field.hasBit_extract`: the bits of the value of a field.
-/

namespace Recompiler

namespace Word

/-- The bit at a place. Place 0 is the least significant one. -/
def hasBit (w : UInt32) (i : Nat) : Bool :=
  w.toNat.testBit i

variable {v w : UInt32} {i n : Nat}

/-- A number of `n` bits has no bits beyond them. -/
theorem hasBit_of_lt (hw : w.toNat < 2 ^ n) (hi : n ≤ i) : hasBit w i = false := by
  apply Nat.testBit_lt_two_pow
  exact Nat.lt_of_lt_of_le hw (Nat.pow_le_pow_right Nat.zero_lt_two hi)

/-- A word is determined by its bits. -/
theorem eq_of_hasBit (h : ∀ i < 32, hasBit v i = hasBit w i) : v = w := by
  apply UInt32.toNat_inj.1
  apply Nat.eq_of_testBit_eq
  intro i
  by_cases hi : i < 32
  · exact h i hi
  · have hle : 32 ≤ i := Nat.le_of_not_lt hi
    exact (hasBit_of_lt v.toNat_lt hle).trans (hasBit_of_lt w.toNat_lt hle).symm

@[simp] theorem hasBit_zero (i : Nat) : hasBit 0 i = false := by
  simp [hasBit]

@[simp] theorem hasBit_and (v w : UInt32) (i : Nat) :
    hasBit (v &&& w) i = (hasBit v i && hasBit w i) := by
  simp [hasBit]

@[simp] theorem hasBit_or (v w : UInt32) (i : Nat) :
    hasBit (v ||| w) i = (hasBit v i || hasBit w i) := by
  simp [hasBit]

theorem hasBit_shiftLeft (w : UInt32) (hn : n < 32) (i : Nat) :
    hasBit (w <<< n.toUInt32) i = (decide (n ≤ i ∧ i < 32) && hasBit w (i - n)) := by
  have hmod : n % 2 ^ 32 % 32 = n := by omega
  simp only [hasBit, UInt32.toNat_shiftLeft, UInt32.toNat_ofNat', hmod, Nat.testBit_mod_two_pow,
    Nat.testBit_shiftLeft, ge_iff_le, Bool.decide_and]
  cases decide (n ≤ i) <;> simp

theorem hasBit_shiftRight (w : UInt32) (hn : n < 32) (i : Nat) :
    hasBit (w >>> n.toUInt32) i = hasBit w (n + i) := by
  have hmod : n % 2 ^ 32 % 32 = n := by omega
  simp only [hasBit, UInt32.toNat_shiftRight, UInt32.toNat_ofNat', hmod, Nat.testBit_shiftRight]

/-- The word that ends in `n` ones. -/
theorem hasBit_ones (hn : 0 < n) (hn' : n ≤ 32) (i : Nat) :
    hasBit (0xFFFFFFFF >>> (32 - n).toUInt32) i = decide (i < n) := by
  have hones : hasBit 0xFFFFFFFF (32 - n + i) = decide (32 - n + i < 32) :=
    Nat.testBit_two_pow_sub_one 32 _
  rw [hasBit_shiftRight _ (by omega), hones, decide_eq_decide]
  omega

end Word

namespace Field

open Word

variable {f : Field} {word : UInt32}

/-- The field has bits, all of them bits of a word. -/
structure Inside (f : Field) : Prop where
  width_pos : 0 < f.width
  stop_le : f.shift + f.width ≤ 32

instance (f : Field) : Decidable f.Inside :=
  decidable_of_iff (0 < f.width ∧ f.shift + f.width ≤ 32)
    ⟨fun h => ⟨h.1, h.2⟩, fun h => ⟨h.width_pos, h.stop_le⟩⟩

/-- The bit at a place belongs to the field. -/
def covers (f : Field) (i : Nat) : Bool :=
  f.shift ≤ i && i < f.shift + f.width

theorem covers_iff {i : Nat} : f.covers i = true ↔ f.shift ≤ i ∧ i < f.shift + f.width := by
  simp [covers]

/-- The value of a field consists of the bits that the field covers. -/
theorem hasBit_extract (h : f.Inside) (word : UInt32) (i : Nat) :
    hasBit (f.extract word) i = (decide (i < f.width) && hasBit word (f.shift + i)) := by
  obtain ⟨hpos, hstop⟩ := h
  rw [extract, hasBit_and, hasBit_shiftRight _ (by omega), hasBit_ones hpos (by omega),
    Bool.and_comm]

/-- The value of a field is the part of the word from its first bit on, cut to its width. -/
theorem toNat_extract (h : f.Inside) (word : UInt32) :
    (f.extract word).toNat = word.toNat >>> f.shift % 2 ^ f.width := by
  apply Nat.eq_of_testBit_eq
  intro i
  rw [Nat.testBit_mod_two_pow, Nat.testBit_shiftRight]
  exact hasBit_extract h word i

end Field

end Recompiler
