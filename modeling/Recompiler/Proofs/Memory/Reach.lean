import Mathlib.Algebra.Group.Nat.Defs
import Recompiler.Memory.Flat

/-!
# The reach of a block

Which accesses of a flat memory go through, told by the addresses of their bytes. Addresses are
numbers here, so that neither the end of the block nor that of an access wraps.

* `FlatMemory.Maps`, `FlatMemory.MapsAll`: the addresses of a block.
* `FlatMemory.answer`: whether an access goes through, and why not.
* `FlatMemory.offset_of_maps`, `FlatMemory.offset_of_not_maps`: where a run of bytes lies.
* `FlatMemory.offset_eq_answer`: every access is answered so.
-/

namespace Recompiler

namespace FlatMemory

/-- The address belongs to the block. -/
def Maps (m : FlatMemory) (address : Nat) : Prop :=
  m.base.toNat ≤ address ∧ address < m.base.toNat + m.size

/-- So do all addresses of a run. -/
def MapsAll (m : FlatMemory) (address length : Nat) : Prop :=
  ∀ i < length, m.Maps (address + i)

instance (m : FlatMemory) (address : Nat) : Decidable (m.Maps address) :=
  inferInstanceAs (Decidable (_ ∧ _))

instance (m : FlatMemory) (address length : Nat) : Decidable (m.MapsAll address length) :=
  inferInstanceAs (Decidable (∀ i < length, m.Maps (address + i)))

section

variable {m : FlatMemory} {addr : UInt32} {length : Nat}

theorem mapsAll_iff {address : Nat} (hlength : 0 < length) :
    m.MapsAll address length ↔
      m.base.toNat ≤ address ∧ address + length ≤ m.base.toNat + m.size := by
  constructor
  · intro h
    have hfirst := h 0 hlength
    have hlast := h (length - 1) (by omega)
    simp only [Maps] at hfirst hlast
    omega
  · rintro ⟨hstart, hstop⟩ i hi
    simp only [Maps]
    omega

theorem offset_of_not_maps (h : ¬m.Maps addr.toNat) :
    m.offset addr length = .error (.addressNotMapped addr) := by
  rw [offset]
  by_cases hle : m.base ≤ addr
  · have hstart : m.base.toNat ≤ addr.toNat := UInt32.le_iff_toNat_le.1 hle
    have hsub : (addr - m.base).toNat = addr.toNat - m.base.toNat := UInt32.toNat_sub_of_le _ _ hle
    have hstop : ¬addr.toNat < m.base.toNat + m.size := fun hstop => h ⟨hstart, hstop⟩
    rw [if_neg (UInt32.not_lt.2 hle)]
    simp only [hsub]
    rw [if_pos (by omega)]
  · rw [if_pos (UInt32.not_le.1 hle)]

/-- From a mapped address on, a run is refused for its length alone. -/
theorem offset_of_maps (h : m.Maps addr.toNat) :
    m.offset addr length =
      if m.size < (addr.toNat - m.base.toNat + length) % UInt64.size then
        .error (.outOfRange addr length)
      else .ok (addr.toNat - m.base.toNat) := by
  obtain ⟨hstart, hstop⟩ := h
  have hle : m.base ≤ addr := UInt32.le_iff_toNat_le.2 hstart
  have hsub : (addr - m.base).toNat = addr.toNat - m.base.toNat := UInt32.toNat_sub_of_le _ _ hle
  rw [offset, if_neg (UInt32.not_lt.2 hle)]
  simp only [hsub]
  rw [if_neg (by omega)]

/-- Where a run lies whose end does not wrap. -/
theorem offset_eq (hend : addr.toNat - m.base.toNat + length < UInt64.size) :
    m.offset addr length =
      if m.Maps addr.toNat then
        if m.base.toNat + m.size < addr.toNat + length then .error (.outOfRange addr length)
        else .ok (addr.toNat - m.base.toNat)
      else .error (.addressNotMapped addr) := by
  by_cases hmaps : m.Maps addr.toNat
  · have hstart := hmaps.1
    have hfits : m.size < addr.toNat - m.base.toNat + length ↔
        m.base.toNat + m.size < addr.toNat + length := by omega
    rw [offset_of_maps hmaps, Nat.mod_eq_of_lt hend, if_pos hmaps]
    simp only [hfits]
  · rw [offset_of_not_maps hmaps, if_neg hmaps]

end

/-- The answer to an access of `length` bytes: a value if all of them are mapped, and otherwise an
error that tells whether the first one is. -/
def answer {α : Type} (m : FlatMemory) (addr : UInt32) (length : Nat) (value : α) :
    Except BusError α :=
  if m.MapsAll addr.toNat length then .ok value
  else .error (if m.Maps addr.toNat then .outOfRange addr length else .addressNotMapped addr)

/-- Where a run lies is answered as every access is. -/
theorem offset_eq_answer (m : FlatMemory) (addr : UInt32) {length : Nat} (hpos : 0 < length)
    (hlength : length < 2 ^ 63) :
    m.offset addr length = m.answer addr length (addr.toNat - m.base.toNat) := by
  have hend : addr.toNat - m.base.toNat + length < UInt64.size := by
    -- A place of 32 bits and a length below 2^63 have an end of 64 bits.
    have := addr.toNat_lt
    change _ < 2 ^ 64
    omega
  rw [offset_eq hend, answer]
  by_cases hall : m.MapsAll addr.toNat length
  · have hfirst : m.Maps addr.toNat := hall 0 hpos
    have hstop := ((mapsAll_iff hpos).1 hall).2
    rw [if_pos hfirst, if_neg (Nat.not_lt.2 hstop), if_pos hall]
  · rw [if_neg hall]
    by_cases hfirst : m.Maps addr.toNat
    · have hstop : m.base.toNat + m.size < addr.toNat + length := by
        rw [mapsAll_iff hpos] at hall
        have := hfirst.1
        omega
      rw [if_pos hfirst, if_pos hstop, if_pos hfirst]
    · rw [if_neg hfirst, if_neg hfirst]

end FlatMemory

end Recompiler
