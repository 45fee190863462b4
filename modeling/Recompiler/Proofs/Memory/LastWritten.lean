import Mathlib.Data.List.Induction
import Mathlib.Data.Nat.Digits.Defs
import Recompiler.Proofs.Memory.Hosted

/-!
# Memory as a map of bytes

After any history of updates, of whatever widths and alignments, every access of flat memory is told
by its bytes: it goes through if all of them are mapped, and reads those that were last written.

* `FlatMemory.Update`: what is written, as a run of bytes at an address.
* `FlatMemory.lastWritten`: the byte that a history leaves at an address, told by the updates alone.
* `FlatMemory.byteAt_after`: a history leaves those bytes.
* `FlatMemory.reads_last_written`: what accesses answer after a history.
-/

namespace Recompiler

/-! ## Little endian values -/

namespace Word

/-- Bytes are the digits of a word, the lowest first. -/
theorem toNat_ofBytes {bytes : List UInt8} (h : bytes.length ≤ 4) :
    (ofBytes bytes).toNat = Nat.ofDigits 256 (bytes.map UInt8.toNat) := by
  induction bytes with
  | nil => rfl
  | cons b rest ih =>
    rw [List.length_cons] at h
    have hrest := ih (by omega)
    have hlt : Nat.ofDigits 256 (rest.map UInt8.toNat) < 256 ^ rest.length := by
      have hdigits : ∀ d ∈ rest.map UInt8.toNat, d < 256 := by
        intro d hd
        obtain ⟨b, -, rfl⟩ := List.mem_map.1 hd
        exact b.toNat_lt
      simpa using Nat.ofDigits_lt_base_pow_length (by decide) hdigits
    have hpow : 256 ^ rest.length ≤ 256 ^ 3 := Nat.pow_le_pow_right (by decide) (by omega)
    rw [toNat_ofBytes_cons b rest (by omega), hrest, List.map_cons, Nat.ofDigits_cons]

/-- The bytes of a value that an access of a width writes, the lowest first. -/
theorem take_bytes (width : Width) (value : UInt32) :
    (bytes value).take width.size =
      (List.range width.size).map fun i => (value.toNat / 256 ^ i).toUInt8 := by
  have hbyte (n : UInt32) {i : Nat} (hn : n.toNat % 32 = 8 * i) :
      (value >>> n).toUInt8 = (value.toNat / 256 ^ i).toUInt8 := by
    apply UInt8.toNat_inj.1
    rw [UInt32.toNat_toUInt8, UInt32.toNat_shiftRight, hn, Nat.shiftRight_eq_div_pow, Nat.pow_mul]
    exact (UInt8.toNat_ofNat' ..).symm
  have hfirst : value.toUInt8 = (value.toNat / 256 ^ 0).toUInt8 := by
    rw [Nat.pow_zero, Nat.div_one]
    rfl
  have hsecond : (value >>> 8).toUInt8 = (value.toNat / 256 ^ 1).toUInt8 := hbyte 8 rfl
  have hthird : (value >>> 16).toUInt8 = (value.toNat / 256 ^ 2).toUInt8 := hbyte 16 rfl
  have hfourth : (value >>> 24).toUInt8 = (value.toNat / 256 ^ 3).toUInt8 := hbyte 24 rfl
  rw [bytes, hfirst, hsecond, hthird, hfourth]
  cases width <;> rfl

end Word

namespace FlatMemory

/-! ## Updates -/

/-- The byte at an address of the block. -/
def byteAt (m : FlatMemory) (address : Nat) : UInt8 :=
  m.byte (address - m.base.toNat)

/-- The byte at a distance from the first, after bytes were written from `start` on. -/
theorem byte_store (m : FlatMemory) (start : Nat) (bytes : List UInt8) (k : Nat) :
    (m.store start bytes).byte k =
      (if start ≤ k then bytes[k - start]? else none).getD (m.byte k) := by
  induction bytes generalizing m start with
  | nil => simp [store]
  | cons b rest ih =>
    have hone : (m.store start [b]).byte k = if start = k then b else m.byte k := by
      simp [store, byte, Std.HashMap.getD_insert]
    -- The first byte is written first, so it shows only where none of the others is.
    rw [store_cons, ih, hone]
    obtain hlt | heq | hgt : start < k ∨ start = k ∨ k < start := by omega
    · have hindex : k - start = k - (start + 1) + 1 := by omega
      simp [hindex, Nat.le_of_lt hlt, Nat.succ_le_of_lt hlt, Nat.ne_of_lt hlt]
    · simp [heq]
    · simp [Nat.not_le.2 hgt, Nat.ne_of_gt hgt, Nat.not_le.2 (Nat.lt_succ_of_lt hgt)]

/-- A run of bytes that are those of a word reads as the word. -/
theorem read_word {m : FlatMemory} {addr word : UInt32} {start : Nat}
    (hoffset : m.offset addr Width.word.size = .ok start)
    (hrun : m.run start Width.word.size = Word.bytes word) :
    Bus.read .word addr m = (.ok word, m) := by
  refine Prod.ext ?_ rfl
  change m.read .word addr = _
  rw [read, hoffset]
  change Except.ok (Word.ofBytes (m.run start Width.word.size)) = _
  rw [hrun, Word.ofBytes_bytes]

/-- Something that is written. A byte string has fewer than 2^63 bytes, as any in the memory of a
host has. -/
inductive Update where
  | write (width : Width) (addr value : UInt32)
  | load (addr : UInt32) (bytes : List UInt8) (nonempty : bytes ≠ [])
    (short : bytes.length < 2 ^ 63)

namespace Update

/-- Where the first byte goes. -/
def addr : Update → UInt32
  | write _ addr _ => addr
  | load addr _ _ _ => addr

/-- The bytes that are written; those of a value from the lowest one on. -/
def bytes : Update → List UInt8
  | write width _ value => (List.range width.size).map fun i => (value.toNat / 256 ^ i).toUInt8
  | load _ bytes _ _ => bytes

/-- The byte that is written to an address, if there is one. -/
def byte? (u : Update) (address : Nat) : Option UInt8 :=
  if u.addr.toNat ≤ address then u.bytes[address - u.addr.toNat]? else none

/-- Makes an update, and says why if it fails. -/
def perform : Update → FlatMemory → Except BusError Unit × FlatMemory
  | write width addr value, m => Bus.write width addr value m
  | load addr bytes _ _, m =>
    match m.load addr bytes with
    | .ok after => (.ok (), after)
    | .error e => (.error e, m)

variable (u : Update)

theorem length_pos : 0 < u.bytes.length := by
  cases u with
  | write width addr value => simpa [bytes] using width.size_pos
  | load addr bytes nonempty short => exact List.length_pos_iff.2 nonempty

theorem length_lt : u.bytes.length < 2 ^ 63 := by
  cases u with
  | write width addr value => cases width <;> simp [bytes, Width.size]
  | load addr bytes nonempty short => exact short

/-- All bytes of an update have a place in the block. -/
def Fits (m : FlatMemory) : Prop :=
  m.MapsAll u.addr.toNat u.bytes.length

instance (m : FlatMemory) : Decidable (u.Fits m) :=
  inferInstanceAs (Decidable (m.MapsAll _ _))

/-- What is written is the bytes of the update, wherever they have their place. -/
theorem perform_of_offset {m : FlatMemory} {start : Nat}
    (h : m.offset u.addr u.bytes.length = .ok start) :
    u.perform m = (.ok (), m.store start u.bytes) := by
  cases u with
  | write width addr value =>
    have hplace : m.offset addr width.size = .ok start := by simpa [Update.addr, bytes] using h
    simp only [perform, Bus.write, hplace]
    rw [Word.take_bytes, bytes]
  | load addr bytes nonempty short =>
    change m.offset addr bytes.length = .ok start at h
    simp only [perform, FlatMemory.load, h]
    rfl

/-- Without a place for its bytes, an update fails as every access does there. -/
theorem perform_of_error {m : FlatMemory} {e : BusError}
    (h : m.offset u.addr u.bytes.length = .error e) : u.perform m = (.error e, m) := by
  cases u with
  | write width addr value =>
    have hplace : m.offset addr width.size = .error e := by simpa [Update.addr, bytes] using h
    simp only [perform, Bus.write, hplace]
  | load addr bytes nonempty short =>
    change m.offset addr bytes.length = .error e at h
    simp only [perform, FlatMemory.load, h]
    rfl

/-- An update writes all of its bytes, or none of them. -/
theorem perform_eq (m : FlatMemory) :
    u.perform m = (m.answer u.addr u.bytes.length (),
      if u.Fits m then m.store (u.addr.toNat - m.base.toNat) u.bytes else m) := by
  have hplace := m.offset_eq_answer u.addr u.length_pos u.length_lt
  rw [answer] at hplace ⊢
  by_cases hfits : u.Fits m
  · have hall : m.MapsAll u.addr.toNat u.bytes.length := hfits
    rw [if_pos hall] at hplace
    rw [if_pos hall, if_pos hfits, u.perform_of_offset hplace]
  · have hall : ¬m.MapsAll u.addr.toNat u.bytes.length := hfits
    rw [if_neg hall] at hplace
    rw [if_neg hall, if_neg hfits, u.perform_of_error hplace]

/-- An update keeps the addresses of the block. -/
theorem maps_perform (m : FlatMemory) (address : Nat) :
    (u.perform m).2.Maps address ↔ m.Maps address := by
  rw [perform_eq]
  by_cases hfits : u.Fits m
  · rw [if_pos hfits]
    rfl
  · rw [if_neg hfits]

/-- An update that fits replaces the bytes it writes, and others replace none. -/
theorem byteAt_perform {m : FlatMemory} {address : Nat} (h : m.Maps address) :
    (u.perform m).2.byteAt address =
      (if u.Fits m then u.byte? address else none).getD (m.byteAt address) := by
  rw [perform_eq]
  by_cases hfits : u.Fits m
  · -- Both addresses are behind the base, so that their distance is that of their places.
    have hbase : m.base.toNat ≤ u.addr.toNat := ((mapsAll_iff u.length_pos).1 hfits).1
    have hle : u.addr.toNat - m.base.toNat ≤ address - m.base.toNat ↔ u.addr.toNat ≤ address := by
      have := h.1
      omega
    have hindex : address - m.base.toNat - (u.addr.toNat - m.base.toNat) =
        address - u.addr.toNat := by omega
    rw [if_pos hfits, if_pos hfits, byte?, ← hindex, ← if_congr hle rfl rfl]
    exact byte_store m _ u.bytes _
  · rw [if_neg hfits, if_neg hfits]
    rfl

end Update

/-! ## Histories -/

/-- The block after a history of updates, the oldest first. -/
def after (m : FlatMemory) (history : List Update) : FlatMemory :=
  history.foldl (fun m u => (u.perform m).2) m

/-- The byte that a history leaves at an address: the one of the last update that writes there, of
those that fit, or else the byte from before. -/
def lastWritten (m : FlatMemory) (history : List Update) (address : Nat) : UInt8 :=
  (history.reverse.findSome? fun u => if u.Fits m then u.byte? address else none).getD
    (m.byteAt address)

section

variable (m : FlatMemory) (history : List Update)

theorem after_concat (u : Update) :
    m.after (history ++ [u]) = (u.perform (m.after history)).2 := by
  simp [after]

theorem lastWritten_concat (u : Update) (address : Nat) :
    m.lastWritten (history ++ [u]) address =
      (if u.Fits m then u.byte? address else none).getD (m.lastWritten history address) := by
  rw [lastWritten, lastWritten, List.reverse_append, List.reverse_singleton, List.singleton_append,
    List.findSome?_cons]
  cases if u.Fits m then u.byte? address else none <;> rfl

theorem maps_after (address : Nat) : (m.after history).Maps address ↔ m.Maps address := by
  induction history using List.reverseRecOn with
  | nil => rfl
  | append_singleton history u ih => rw [after_concat, u.maps_perform, ih]

theorem mapsAll_after (address length : Nat) :
    (m.after history).MapsAll address length ↔ m.MapsAll address length := by
  simp only [MapsAll, maps_after]

theorem answer_after {α : Type} (addr : UInt32) (length : Nat) (value : α) :
    (m.after history).answer addr length value = m.answer addr length value := by
  simp only [answer, maps_after, mapsAll_after]

theorem fits_after (u : Update) : u.Fits (m.after history) ↔ u.Fits m :=
  mapsAll_after m history _ _

/-- A history leaves at every address of the block what was last written there. -/
theorem byteAt_after {address : Nat} (h : m.Maps address) :
    (m.after history).byteAt address = m.lastWritten history address := by
  induction history using List.reverseRecOn with
  | nil => rfl
  | append_singleton history u ih =>
    have hmaps : (m.after history).Maps address := (maps_after m history address).2 h
    rw [after_concat, u.byteAt_perform hmaps, lastWritten_concat, ih]
    simp only [fits_after]

end

/-- Of overlapping updates the last one shows, and one that leaves the block does not show at all. -/
example :
    let m := zeros 0x1000 4 0
    let history : List Update :=
      [.write .word 0x1000 0x11223344, .write .half 0x1001 0xAABB, .write .word 0x1001 0]
    (List.range 4).map (fun i => m.lastWritten history (0x1000 + i)) = [0x44, 0xBB, 0xAA, 0x11] := by
  decide

/-- A read puts together the bytes of its addresses. -/
theorem read_eq (m : FlatMemory) (width : Width) (addr : UInt32) :
    Bus.read width addr m = (m.answer addr width.size
      (Word.ofBytes ((List.range width.size).map fun i => m.byteAt (addr.toNat + i))), m) := by
  have hsize : width.size < 2 ^ 63 := by cases width <;> decide
  change (m.read width addr, m) = _
  rw [read, m.offset_eq_answer addr width.size_pos hsize, answer, answer]
  by_cases hall : m.MapsAll addr.toNat width.size
  · have hbase : m.base.toNat ≤ addr.toNat := ((mapsAll_iff width.size_pos).1 hall).1
    have hrun : m.run (addr.toNat - m.base.toNat) width.size =
        (List.range width.size).map fun i => m.byteAt (addr.toNat + i) := by
      apply List.map_congr_left
      intro i _
      rw [byteAt, Nat.sub_add_comm hbase]
    rw [if_pos hall, if_pos hall, ← hrun]
    rfl
  · rw [if_neg hall, if_neg hall]
    rfl

/-- After any history of updates, a read of any width and alignment puts together, the lowest first,
the bytes that were last written to its addresses, and it fails unless all of them are mapped. An
update is made under the same condition, for its own bytes: then they are what it changes, and
otherwise it changes nothing. -/
theorem reads_last_written (m : FlatMemory) (history : List Update) :
    (∀ (width : Width) (addr : UInt32), ∃ value,
      Bus.read width addr (m.after history) = (m.answer addr width.size value, m.after history) ∧
      (m.MapsAll addr.toNat width.size → value.toNat = Nat.ofDigits 256
        ((List.range width.size).map fun i => (m.lastWritten history (addr.toNat + i)).toNat))) ∧
    ∀ u : Update, ∃ next,
      u.perform (m.after history) = (m.answer u.addr u.bytes.length (), next) ∧
      if u.Fits m then
        ∀ address, m.Maps address →
          next.byteAt address = (u.byte? address).getD (m.lastWritten history address)
      else next = m.after history := by
  constructor
  · intro width addr
    refine ⟨Word.ofBytes ((List.range width.size).map fun i =>
      (m.after history).byteAt (addr.toNat + i)), ?_, ?_⟩
    · rw [read_eq, answer_after]
    -- The history is only asked for the bytes of the access, all of which are mapped.
    · intro hall
      have hbytes : ((List.range width.size).map fun i =>
          (m.after history).byteAt (addr.toNat + i)) =
          (List.range width.size).map fun i => m.lastWritten history (addr.toNat + i) := by
        apply List.map_congr_left
        intro i hi
        exact byteAt_after m history (hall i (List.mem_range.1 hi))
      have hlength : ((List.range width.size).map fun i =>
          m.lastWritten history (addr.toNat + i)).length ≤ 4 := by
        cases width <;> simp [Width.size]
      rw [hbytes, Word.toNat_ofBytes hlength, List.map_map]
      rfl
  · intro u
    refine ⟨(u.perform (m.after history)).2, ?_, ?_⟩
    · rw [u.perform_eq, answer_after]
    -- Updates leave alone what is mapped, so an update fits after the history if it does before.
    · by_cases hfits : u.Fits m
      · rw [if_pos hfits]
        intro address hmaps
        have hafter : (m.after history).Maps address := (maps_after m history address).2 hmaps
        rw [u.byteAt_perform hafter, byteAt_after m history hmaps,
          if_pos ((fits_after m history u).2 hfits)]
      · have hafter : ¬u.Fits (m.after history) := fun h => hfits ((fits_after m history u).1 h)
        rw [if_neg hfits, u.perform_eq, if_neg hafter]

end FlatMemory

end Recompiler
