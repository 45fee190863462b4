import Recompiler.Code.Arena
import Recompiler.Proofs.Memory.LastWritten

/-!
# Ranges of bytes

What arenas and flat memories answer when they are asked for the bytes of a range, for all starts
and lengths of 64 bits. The end of a range is computed in 64 bits, too. Without a carry the answer
is exact. With one an arena answers nothing, and a memory takes a range that it does not have.

* `Arena.among`, `FlatMemory.bytesAt`: the bytes of a range, told offset by offset.
* `Arena.bytes_of_lt`, `Arena.bytes_of_le`: the ranges of an arena, without a carry and with one.
* `FlatMemory.bytes_of_lt`, `FlatMemory.bytes_of_le`: the same for the ranges of a memory.
* `ranges_exact_without_carry`: all ranges of both.
-/

namespace Recompiler

/-- The number that is left of one with a carry. -/
theorem mod_size_of_carry {n : Nat} (h : UInt64.size ≤ n) (h' : n < UInt64.size + UInt64.size) :
    n % UInt64.size = n - UInt64.size := by
  rw [Nat.mod_eq_sub_mod h, Nat.mod_eq_of_lt (by omega)]

/-! ## Arenas -/

namespace Arena

/-- The written bytes whose offset is `start` or above, but less than `length` above it. -/
def among (a : Arena) (start length : Nat) : List UInt8 :=
  (a.written.toList.zipIdx.filter fun x => start ≤ x.2 ∧ x.2 - start < length).map Prod.fst

/-- Of a list that is counted from `first` on, the elements of a range are a run. -/
theorem map_filter_zipIdx {α : Type} (l : List α) (first start length : Nat) :
    ((l.zipIdx first).filter fun x => start ≤ x.2 ∧ x.2 - start < length).map Prod.fst =
      (l.drop (start - first)).take (length - (first - start)) := by
  induction l generalizing first with
  | nil => simp
  | cons x l ih =>
    rw [List.zipIdx_cons, List.filter_cons]
    obtain hbefore | hinside | hbehind : first < start ∨
        (start ≤ first ∧ first - start < length) ∨ (start ≤ first ∧ length ≤ first - start) := by
      omega
    · have hskip : start - first = start - (first + 1) + 1 := by omega
      have hlength : first + 1 - start = first - start := by omega
      rw [if_neg (by simp; omega), ih, hskip, List.drop_succ_cons, hlength]
    · have hstart : start - (first + 1) = start - first := by omega
      have htake : length - (first - start) = length - (first + 1 - start) + 1 := by omega
      have hzero : start - first = 0 := by omega
      rw [if_pos (by simpa using hinside), List.map_cons, ih, hstart, htake, hzero, List.drop_zero,
        List.drop_zero, List.take_succ_cons]
    · have hnone : length - (first - start) = 0 := by omega
      have hnone' : length - (first + 1 - start) = 0 := by omega
      rw [if_neg (by simp; omega), ih, hnone, hnone', List.take_zero, List.take_zero]

variable {a : Arena} {start length : Nat}

theorem among_eq : a.among start length = (a.written.toList.drop start).take length := by
  rw [among, map_filter_zipIdx, Nat.sub_zero, Nat.zero_sub, Nat.sub_zero]

/-- Without a carry an arena answers the bytes of the range. -/
theorem bytes_of_lt (h : start + length < UInt64.size) :
    a.bytes start length = a.among start length := by
  have hsize : a.written.toList.length = a.size := Array.length_toList
  rw [bytes, Nat.mod_eq_of_lt h, among_eq, Array.toList_extract, List.extract_eq_take_drop]
  by_cases hle : start + length ≤ a.size
  · rw [Nat.min_eq_left hle, Nat.add_sub_cancel_left]
  · -- The range reaches the end of the arena, so that it is the rest of the bytes.
    have hrest : (a.written.toList.drop start).length = a.size - start := by
      rw [List.length_drop, hsize]
    rw [Nat.min_eq_right (by omega), List.take_of_length_le (by omega),
      List.take_of_length_le (by omega)]

/-- With a carry the range ends before it starts. -/
theorem bytes_of_le (hlength : length < UInt64.size) (h : UInt64.size ≤ start + length)
    (hstart : start < UInt64.size) : a.bytes start length = [] := by
  have hmod := mod_size_of_carry h (by omega)
  have hempty : min (start + length - UInt64.size) a.size - start = 0 := by omega
  rw [bytes, hmod, Array.toList_extract, List.extract_eq_take_drop, hempty, List.take_zero]

/-- A range that starts among the written bytes has one of them at least. -/
theorem among_eq_nil_iff (hlength : 0 < length) :
    a.among start length = [] ↔ a.size ≤ start := by
  have hsize : a.written.toList.length = a.size := Array.length_toList
  rw [among_eq, List.take_eq_nil_iff, List.drop_eq_nil_iff, hsize]
  omega

end Arena

/-! ## Flat memories -/

namespace FlatMemory

/-- The bytes at `length` addresses. -/
def bytesAt (m : FlatMemory) (address length : Nat) : List UInt8 :=
  (List.range length).map fun i => m.byteAt (address + i)

variable {m : FlatMemory} {addr : UInt32} {length : Nat}

theorem run_eq_bytesAt (h : m.base.toNat ≤ addr.toNat) :
    m.run (addr.toNat - m.base.toNat) length = m.bytesAt addr.toNat length := by
  rw [run, bytesAt]
  apply List.map_congr_left
  intro i _
  rw [byteAt, Nat.sub_add_comm h]

theorem bytes_of_not_maps (h : ¬m.Maps addr.toNat) :
    m.bytes addr length = .error (.addressNotMapped addr) := by
  rw [bytes, offset_of_not_maps h]
  rfl

/-- Without a carry a memory answers the bytes of a range if it has all of them. -/
theorem bytes_of_lt (hmaps : m.Maps addr.toNat)
    (h : addr.toNat - m.base.toNat + length < UInt64.size) :
    m.bytes addr length =
      if m.MapsAll addr.toNat length then .ok (.ok (m.bytesAt addr.toNat length))
      else .error (.outOfRange addr length) := by
  have hfits : m.size < addr.toNat - m.base.toNat + length ↔ ¬m.MapsAll addr.toNat length := by
    obtain ⟨hstart, hstop⟩ := hmaps
    obtain rfl | hpos := Nat.eq_zero_or_pos length
    · have hnone : m.MapsAll addr.toNat 0 := fun _ hi => absurd hi (Nat.not_lt_zero _)
      simp only [hnone, not_true_eq_false, iff_false]
      omega
    · rw [mapsAll_iff hpos]
      omega
  rw [bytes, offset_of_maps hmaps, Nat.mod_eq_of_lt h]
  by_cases hall : m.MapsAll addr.toNat length
  · rw [if_neg fun hlt => hfits.1 hlt hall, if_pos hall, ← run_eq_bytesAt hmaps.1]
    exact if_pos h
  · rw [if_pos (hfits.2 hall), if_neg hall]
    rfl

/-- With a carry the end lies before the start. So the range counts as one that the memory has, and
it breaks the contract. -/
theorem bytes_of_le (hmaps : m.Maps addr.toNat) (hlength : length < UInt64.size)
    (h : UInt64.size ≤ addr.toNat - m.base.toNat + length) :
    m.bytes addr length =
      .ok (.error (.reversedSlice (addr.toNat - m.base.toNat)
        (addr.toNat - m.base.toNat + length - UInt64.size))) := by
  have hstart : addr.toNat < UInt64.size := Nat.lt_trans addr.toNat_lt (by decide)
  have hmod := mod_size_of_carry h (by omega)
  have hinside : ¬m.size < addr.toNat - m.base.toNat + length - UInt64.size := by
    obtain ⟨-, hstop⟩ := hmaps
    omega
  rw [bytes, offset_of_maps hmaps, hmod, if_neg hinside, ← hmod]
  exact if_neg (Nat.not_lt.2 h)

end FlatMemory

/-- A range whose end does not wrap is answered exactly. Of an arena it gives the written bytes whose
offsets are in the range. Of a memory it gives the bytes at the addresses of the range, if the first
address and all others are mapped, and otherwise an error. A range whose end wraps gives no bytes of
an arena, even if some are written there, and from a mapped address it breaks the contract of a
memory. -/
theorem ranges_exact_without_carry (a : Arena) (m : FlatMemory) (addr : UInt32)
    (start length : UInt64) :
    a.bytes start.toNat length.toNat =
      (if start.toNat + length.toNat < UInt64.size then a.among start.toNat length.toNat
      else []) ∧
    (a.bytes start.toNat length.toNat = a.among start.toNat length.toNat ↔
      start.toNat + length.toNat < UInt64.size ∨ a.size ≤ start.toNat) ∧
    m.bytes addr length.toNat =
      if m.Maps addr.toNat then
        if addr.toNat - m.base.toNat + length.toNat < UInt64.size then
          if m.MapsAll addr.toNat length.toNat then
            .ok (.ok (m.bytesAt addr.toNat length.toNat))
          else .error (.outOfRange addr length.toNat)
        else .ok (.error (.reversedSlice (addr.toNat - m.base.toNat)
          (addr.toNat - m.base.toNat + length.toNat - UInt64.size)))
      else .error (.addressNotMapped addr) := by
  refine ⟨?_, ?_, ?_⟩
  · split
    · next h => exact Arena.bytes_of_lt h
    · next h => exact Arena.bytes_of_le length.toNat_lt (Nat.not_lt.1 h) start.toNat_lt
  -- A wrapped range starts in the arena or behind it. Only behind it no bytes is the right answer.
  · by_cases h : start.toNat + length.toNat < UInt64.size
    · exact iff_of_true (Arena.bytes_of_lt h) (.inl h)
    · have hpos : 0 < length.toNat := by
        have := start.toNat_lt
        change ¬_ < 2 ^ 64 at h
        omega
      rw [or_iff_right h, Arena.bytes_of_le length.toNat_lt (Nat.not_lt.1 h) start.toNat_lt,
        ← Arena.among_eq_nil_iff hpos]
      exact eq_comm
  · split
    · next hmaps =>
      split
      · next h => exact FlatMemory.bytes_of_lt hmaps h
      · next h => exact FlatMemory.bytes_of_le hmaps length.toNat_lt (Nat.not_lt.1 h)
    · next hmaps => exact FlatMemory.bytes_of_not_maps hmaps

end Recompiler
