import Mathlib.Algebra.Group.Nat.Defs
import Recompiler.Memory.Board
import Recompiler.Proofs.Options
import Recompiler.Proofs.Host.Sequence
import Recompiler.Proofs.Memory.Reach

/-!
# Memory reached from the host

A board whose memories are all fast regions, laid out in host memory so that no two of them share a
byte. There an access to a place of a region reads and writes what the bus reads and writes at the
guest address of the place.

* `Board.Hosted`: the layout in host memory.
* `Board.hosted_of_pointers`: memories that are laid out one after the other.
* `Board.Apart`: no two memories share a guest address, as accepted options have it.
* `Board.route_eq`: which memory an access belongs to.
* `Board.Hosted.readMemory`, `Board.Hosted.writeMemory`: the host reads and writes a memory.
* `Board.Hosted.readMemory_region`, `Board.Hosted.writeMemory_region`: the same by guest addresses.
-/

namespace Recompiler

/-! ## Memories -/

namespace FlatMemory

variable {m : FlatMemory}

/-- The block as a fast region. -/
def region (m : FlatMemory) : FastRegion :=
  ⟨m.base, m.size.toUInt32, m.pointer⟩

theorem region?_eq (h : m.size < UInt32.size) : m.region? = some m.region :=
  if_pos h

theorem toNat_length_region (h : m.size < UInt32.size) : m.region.length.toNat = m.size :=
  UInt32.toNat_ofNat_of_lt' h

/-- The host address of a place in the block. -/
theorem hostOffset?_add (hstop : m.pointer.toNat + m.size ≤ UInt64.size) {n : Nat}
    (hn : n < m.size) : m.hostOffset? (m.pointer + n.toUInt64) = some n := by
  have hn64 : n.toUInt64.toNat = n := toNat_toUInt64 (by omega)
  have hsub : m.pointer + n.toUInt64 - m.pointer = n.toUInt64 := by
    rw [UInt64.add_comm, UInt64.add_sub_cancel]
  have hle : m.pointer ≤ m.pointer + n.toUInt64 := by
    rw [UInt64.le_iff_toNat_le, UInt64.toNat_add, hn64, Nat.mod_eq_of_lt]
    · omega
    · change _ < UInt64.size
      omega
  rw [hostOffset?, hsub, hn64, if_pos ⟨hle, hn⟩]

theorem store_cons (m : FlatMemory) (start : Nat) (b : UInt8) (bytes : List UInt8) :
    m.store start (b :: bytes) = (m.store start [b]).store (start + 1) bytes := rfl

/-- Where an access lies that is in the block whole. -/
theorem offset_of_region {addr offset : UInt32} {size : Nat} (hm : m.size < UInt32.size)
    (hsize : 0 < size) (h : m.region.offset? addr size = some offset) :
    m.offset addr size = .ok offset.toNat ∧ offset.toNat + size ≤ m.size := by
  rw [FastRegion.offset?] at h
  split at h
  · next hfits =>
    obtain ⟨hle, hend⟩ := hfits
    cases h
    rw [toNat_length_region hm] at hend
    change m.base ≤ addr at hle
    change (addr - m.base).toNat + size ≤ m.size at hend
    have hsub : (addr - m.base).toNat = addr.toNat - m.base.toNat :=
      UInt32.toNat_sub_of_le _ _ hle
    have hall : m.MapsAll addr.toNat size := by
      rw [mapsAll_iff hsize]
      have := UInt32.le_iff_toNat_le.1 hle
      omega
    have hshort : size < 2 ^ 63 := by
      change m.size < 2 ^ 32 at hm
      omega
    refine ⟨?_, hend⟩
    change m.offset addr size = .ok (addr - m.base).toNat
    rw [m.offset_eq_answer addr hsize hshort, answer, if_pos hall, hsub]
  · cases h

end FlatMemory

/-! ## Values -/

/-- The bytes that are written are those of the part of the value that is written. -/
theorem take_bytes_truncate (width : Width) (v : UInt32) :
    (Word.bytes (width.truncate v)).take width.size = (Word.bytes v).take width.size := by
  have hbyte (w n : UInt32) (hn : n.toNat < 32) :
      (w >>> n).toUInt8.toNat = w.toNat / 2 ^ n.toNat % 256 := by
    rw [UInt32.toNat_toUInt8, UInt32.toNat_shiftRight, Nat.shiftRight_eq_div_pow,
      Nat.mod_eq_of_lt hn]
  cases width with
  | byte =>
    have hlow : v.toUInt8.toUInt32.toUInt8 = v.toUInt8 := by
      apply UInt8.toNat_inj.1
      rw [UInt32.toNat_toUInt8, UInt8.toNat_toUInt32, UInt32.toNat_toUInt8]
      omega
    exact congrArg (fun b => [b]) hlow
  | half =>
    have hhalf : v.toUInt16.toUInt32.toNat = v.toNat % 65536 := by simp
    have hlow : v.toUInt16.toUInt32.toUInt8 = v.toUInt8 := by
      apply UInt8.toNat_inj.1
      rw [UInt32.toNat_toUInt8, UInt32.toNat_toUInt8, hhalf]
      omega
    have hhigh : (v.toUInt16.toUInt32 >>> 8).toUInt8 = (v >>> 8).toUInt8 := by
      apply UInt8.toNat_inj.1
      rw [hbyte _ 8 (by decide), hbyte _ 8 (by decide), hhalf]
      change v.toNat % 65536 / 2 ^ 8 % 256 = v.toNat / 2 ^ 8 % 256
      omega
    change [v.toUInt16.toUInt32.toUInt8, (v.toUInt16.toUInt32 >>> 8).toUInt8] =
      [v.toUInt8, (v >>> 8).toUInt8]
    rw [hlow, hhigh]
  | word => rfl

theorem length_take_bytes (width : Width) (v : UInt32) :
    ((Word.bytes v).take width.size).length = width.size := by
  cases width <;> rfl

theorem Width.size_pos (width : Width) : 0 < width.size := by
  cases width <;> decide

/-! ## Boards -/

namespace Board

variable {b : Board} {k : Nat} {m : FlatMemory}

/-- No two memories share a guest address. -/
def Apart (b : Board) : Prop :=
  ∀ (i j : Nat) (m m' : FlatMemory), b.memories[i]? = some m → b.memories[j]? = some m' → i < j →
    ∀ addr : UInt32, m.base ≤ addr → addr.toNat < m.base.toNat + m.size →
      ¬ (m'.base ≤ addr ∧ addr.toNat < m'.base.toNat + m'.size)

/-- The memories are fast regions. In host memory they share no byte with each other and with the
guest state, and none of them reaches past the end. -/
structure Hosted (b : Board) : Prop where
  sizes : ∀ m ∈ b.memories, m.size < UInt32.size
  regions : b.regions = b.memories.toList.filterMap FlatMemory.region?
  ends : ∀ m ∈ b.memories, m.pointer.toNat + m.size ≤ UInt64.size
  apart : ∀ (i j : Nat) (m m' : FlatMemory), b.memories[i]? = some m → b.memories[j]? = some m' →
    i ≠ j → ∀ pointer, (m.hostOffset? pointer).isSome = true → m'.hostOffset? pointer = none
  hidden : ∀ m ∈ b.memories, ∀ pointer, (m.hostOffset? pointer).isSome = true →
    HostMachine.stateSlot? pointer = none

/-! ### Layouts -/

theorem toNat_memoryBase {k : Nat} (hk : k < 65535) :
    (Linkage.memoryBase k).toNat = (k + 1) * 2 ^ 48 := by
  have hnumber : (k + 1).toUInt64.toNat = k + 1 :=
    toNat_toUInt64 (by change _ < 18446744073709551616; omega)
  rw [Linkage.memoryBase, UInt64.toNat_shiftLeft, hnumber]
  change (k + 1) <<< 48 % 2 ^ 64 = _
  rw [Nat.shiftLeft_eq]
  exact Nat.mod_eq_of_lt (by omega)

theorem hostOffset?_isSome {m : FlatMemory} {pointer : UInt64}
    (h : (m.hostOffset? pointer).isSome = true) :
    m.pointer.toNat ≤ pointer.toNat ∧ pointer.toNat < m.pointer.toNat + m.size := by
  rw [FlatMemory.hostOffset?] at h
  split at h
  · next hin =>
    have hle := UInt64.le_iff_toNat_le.1 hin.1
    have hlt := hin.2
    rw [UInt64.toNat_sub_of_le _ _ hin.1] at hlt
    omega
  · cases h

/-- Memories that are laid out one after the other. -/
theorem hosted_of_pointers {b : Board} (hsizes : ∀ m ∈ b.memories, m.size < UInt32.size)
    (hregions : b.regions = b.memories.toList.filterMap FlatMemory.region?)
    (hcount : b.memories.size ≤ 65535)
    (hpointers : ∀ (k : Nat) (m : FlatMemory), b.memories[k]? = some m →
      m.pointer = Linkage.memoryBase k) : b.Hosted := by
  -- Memories begin at multiples of 2 ^ 48, none is longer than 2 ^ 32, and the state lies below
  -- all.
  have hplace {k : Nat} {m : FlatMemory} (hm : b.memories[k]? = some m) :
      m.pointer.toNat = (k + 1) * 2 ^ 48 ∧ k < 65535 ∧ m.size < 2 ^ 32 := by
    have hk : k < 65535 := by
      obtain ⟨hlt, -⟩ := Array.getElem?_eq_some_iff.1 hm
      omega
    exact ⟨hpointers k m hm ▸ toNat_memoryBase hk, hk, hsizes m (Array.mem_of_getElem? hm)⟩
  have hnumber {m : FlatMemory} (hm : m ∈ b.memories) : ∃ k : Nat, b.memories[k]? = some m := by
    obtain ⟨k, hk, rfl⟩ := Array.getElem_of_mem hm
    exact ⟨k, Array.getElem?_eq_getElem hk⟩
  refine ⟨hsizes, hregions, fun m hm => ?_, fun i j m m' hi hj hne pointer hsome => ?_,
    fun m hm pointer hsome => ?_⟩
  · obtain ⟨k, hk⟩ := hnumber hm
    have := hplace hk
    change _ ≤ 18446744073709551616
    omega
  · have hm := hplace hi
    have hm' := hplace hj
    have hin := hostOffset?_isSome hsome
    cases hother : m'.hostOffset? pointer with
    | none => rfl
    | some _ =>
      have hin' := hostOffset?_isSome (m := m') (by rw [hother]; rfl)
      rcases Nat.lt_or_gt_of_ne hne with hlt | hlt <;> omega
  · obtain ⟨k, hk⟩ := hnumber hm
    have hm := hplace hk
    have hin := hostOffset?_isSome hsome
    rw [HostMachine.stateSlot?, if_neg]
    rintro ⟨-, hlt⟩
    have hdistance : (pointer - Linkage.contextBase).toNat = pointer.toNat - 2 ^ 44 := by
      rw [UInt64.toNat_sub_of_le]
      · rfl
      · rw [UInt64.le_iff_toNat_le]
        change 2 ^ 44 ≤ _
        omega
    rw [UInt64.toNat_shiftRight, hdistance, Nat.shiftRight_eq_div_pow] at hlt
    change (pointer.toNat - 2 ^ 44) / 2 ^ 2 < _ at hlt
    have hcount : Slot.count < 2 ^ 10 := by decide
    omega

/-! ### Routing -/

/-- An access belongs to the memory that maps its first byte. -/
theorem route_eq (h : b.Apart) (hm : b.memories[k]? = some m) {addr : UInt32}
    (hle : m.base ≤ addr) (hlt : addr.toNat < m.base.toNat + m.size) : b.route addr = k := by
  have hfind : b.memories.findIdx? (fun m =>
      m.base ≤ addr && addr.toNat < m.base.toNat + m.size) = some k := by
    obtain ⟨hk, rfl⟩ := Array.getElem?_eq_some_iff.1 hm
    rw [Array.findIdx?_eq_some_iff_getElem]
    refine ⟨hk, by simpa using ⟨hle, hlt⟩, fun j hj => ?_⟩
    have hne := h j k _ _ (Array.getElem?_eq_getElem (by omega)) hm hj addr
    simp only [Bool.and_eq_true, decide_eq_true_eq, not_and] at hne ⊢
    exact fun hjle hjlt => hne hjle hjlt hle hlt
  rw [route, hfind]
  rfl

/-! ### Host addresses -/

theorem findSome?_eq_of_unique {α γ : Type} {f : α → Option γ} {l : List α} {c : γ}
    (hex : ∃ x ∈ l, f x = some c) (hall : ∀ x ∈ l, f x = none ∨ f x = some c) :
    l.findSome? f = some c := by
  induction l with
  | nil =>
    obtain ⟨x, hx, -⟩ := hex
    cases hx
  | cons x l ih =>
    rw [List.findSome?_cons]
    rcases hall x List.mem_cons_self with hnone | hsome
    · rw [hnone]
      refine ih ?_ fun y hy => hall y (List.mem_cons_of_mem _ hy)
      obtain ⟨y, hy, hfy⟩ := hex
      rcases List.mem_cons.1 hy with rfl | hy
      · rw [hnone] at hfy
        cases hfy
      · exact ⟨y, hy, hfy⟩
    · rw [hsome]

theorem findSome?_zipIdx_modify {α γ : Type} {f : α → α} {g : α × Nat → Option γ}
    (hg : ∀ x i, g (f x, i) = g (x, i)) (l : List α) (k n : Nat) :
    ((l.modify k f).zipIdx n).findSome? g = (l.zipIdx n).findSome? g := by
  induction l generalizing k n with
  | nil => simp
  | cons x l ih =>
    cases k with
    | zero => simp [List.findSome?_cons, hg]
    | succ k => simp [List.findSome?_cons, ih]

/-- Host addresses depend on the layout only. -/
theorem hostPlace?_store (b : Board) (memory start : Nat) (bytes : List UInt8) (pointer : UInt64) :
    (b.store memory start bytes).hostPlace? pointer = b.hostPlace? pointer := by
  rw [hostPlace?, hostPlace?, ← Array.findSome?_toList, ← Array.findSome?_toList,
    Array.toList_zipIdx, Array.toList_zipIdx, store, Array.toList_modify]
  exact findSome?_zipIdx_modify (f := fun m : FlatMemory => m.store start bytes) (fun _ _ => rfl) _ _ _

namespace Hosted

/-- The host address of a place in a memory. -/
theorem hostPlace?_add (h : b.Hosted) (hm : b.memories[k]? = some m) {n : Nat} (hn : n < m.size) :
    b.hostPlace? (m.pointer + n.toUInt64) = some (k, n) := by
  have hmem : m ∈ b.memories := Array.mem_of_getElem? hm
  have hself := FlatMemory.hostOffset?_add (h.ends m hmem) hn
  rw [hostPlace?, ← Array.findSome?_toList]
  refine findSome?_eq_of_unique ⟨(m, k), ?_, by simp [hself]⟩ ?_
  · rwa [Array.toList_zipIdx, List.mem_zipIdx_iff_getElem?, Array.getElem?_toList]
  · rintro ⟨m', i⟩ hmem'
    rw [Array.toList_zipIdx, List.mem_zipIdx_iff_getElem?, Array.getElem?_toList] at hmem'
    by_cases hi : i = k
    · subst hi
      cases hm.symm.trans hmem'
      simp [hself]
    · left
      have hnone := h.apart k i m m' hm hmem' (Ne.symm hi) _ (by rw [hself]; rfl)
      simp [hnone]

/-- A memory is still where it was after a write. -/
theorem hostByte?_add (h : b.Hosted) (hm : b.memories[k]? = some m) {n : Nat} (hn : n < m.size) :
    Bus.hostByte? b (m.pointer + n.toUInt64) = some (m.byte n) := by
  change (b.hostPlace? _).bind _ = _
  rw [h.hostPlace?_add hm hn]
  change (b.memories[k]?).map _ = _
  rw [hm]
  rfl

end Hosted

/-- Writing bytes one after the other. -/
theorem store_cons (b : Board) (k start : Nat) (x : UInt8) (xs : List UInt8) :
    b.store k start (x :: xs) = (b.store k start [x]).store k (start + 1) xs := by
  have hmemories : b.memories.modify k (·.store start (x :: xs)) =
      (b.memories.modify k (·.store start [x])).modify k (·.store (start + 1) xs) := by
    apply Array.ext_getElem?
    intro i
    rw [Array.getElem?_modify, Array.getElem?_modify, Array.getElem?_modify]
    split
    · rw [Option.map_map]
      rfl
    · rfl
  exact congrArg (fun memories => { b with memories := memories }) hmemories

theorem store_nil (b : Board) (k start : Nat) : b.store k start [] = b := by
  have hmemories : b.memories.modify k (·.store start []) = b.memories := by
    apply Array.ext_getElem?
    intro i
    rw [Array.getElem?_modify]
    split
    · exact Option.map_id' ..
    · rfl
  exact congrArg (fun memories => { b with memories := memories }) hmemories

/-- Bytes that are written one by one through the host end up in the memory. -/
theorem foldl_setHostByte (pointer : UInt64) (bytes : List UInt8) {b : Board} {n offset : Nat}
    (hplaces : ∀ i < bytes.length,
      b.hostPlace? (pointer + (n + i).toUInt64) = some (k, offset + i)) :
    (bytes.zipIdx n).foldl (fun b (x, i) => Bus.setHostByte b (pointer + i.toUInt64) x) b =
      b.store k offset bytes := by
  induction bytes generalizing b n offset with
  | nil => exact (store_nil b k offset).symm
  | cons x xs ih =>
    have hfirst : Bus.setHostByte b (pointer + n.toUInt64) x = b.store k offset [x] := by
      have hplace := hplaces 0 (Nat.succ_pos _)
      rw [Nat.add_zero, Nat.add_zero] at hplace
      unfold Bus.setHostByte instBusBoard
      dsimp only
      rw [hplace]
    rw [List.zipIdx_cons, List.foldl_cons]
    refine (congrArg (fun b => (xs.zipIdx (n + 1)).foldl _ b) hfirst).trans
      ((ih fun i hi => ?_).trans (store_cons b k offset x xs).symm)
    rw [hostPlace?_store]
    have hplace := hplaces (i + 1) (Nat.succ_lt_succ hi)
    rwa [show n + 1 + i = n + (i + 1) by omega, show offset + 1 + i = offset + (i + 1) by omega]

end Board

/-! ## Accesses by the host -/

theorem mapM_option_eq {α γ : Type} {f : α → Option γ} {g : α → γ} {l : List α}
    (h : ∀ x ∈ l, f x = some (g x)) : l.mapM f = some (l.map g) := by
  induction l with
  | nil => rfl
  | cons x l ih =>
    rw [List.mapM_cons, h x List.mem_cons_self, ih fun y hy => h y (List.mem_cons_of_mem _ hy)]
    rfl

namespace Board.Hosted

variable {b : Board} {k : Nat} {m : FlatMemory} {p : HostMachine Board} {offset : Nat}
  {width : Width}

theorem toUInt64_add (i j : Nat) : (i + j).toUInt64 = i.toUInt64 + j.toUInt64 :=
  UInt64.ofNat_add i j

/-- The host reads a place of a memory. -/
theorem readMemory (h : p.env.bus.Hosted) (hm : p.env.bus.memories[k]? = some m)
    (hfits : offset + width.size ≤ m.size) :
    p.readMemory width (m.pointer + offset.toUInt64) =
      some (Word.ofBytes (m.run offset width.size)) := by
  have hmem : m ∈ p.env.bus.memories := Array.mem_of_getElem? hm
  have hpos := width.size_pos
  have hslot : HostMachine.stateSlot? (m.pointer + offset.toUInt64) = none :=
    h.hidden m hmem _ (by rw [FlatMemory.hostOffset?_add (h.ends m hmem) (by omega)]; rfl)
  have hbytes : (List.range width.size).mapM (fun i =>
      Bus.hostByte? p.env.bus (m.pointer + offset.toUInt64 + i.toUInt64)) =
        some (m.run offset width.size) := by
    refine mapM_option_eq fun i hi => ?_
    rw [List.mem_range] at hi
    rw [UInt64.add_assoc, ← toUInt64_add]
    exact h.hostByte?_add hm (by omega)
  rw [HostMachine.readMemory, hslot]
  dsimp only
  rw [hbytes]
  rfl

/-- The host writes a place of a memory. -/
theorem writeMemory (h : p.env.bus.Hosted) (hm : p.env.bus.memories[k]? = some m)
    (hfits : offset + width.size ≤ m.size) (v : UInt32) :
    p.writeMemory width (m.pointer + offset.toUInt64) v =
      some (p.withEnv { p.env with
        bus := p.env.bus.store k offset ((Word.bytes v).take width.size) }) := by
  have hmem : m ∈ p.env.bus.memories := Array.mem_of_getElem? hm
  have hpos := width.size_pos
  have hslot : HostMachine.stateSlot? (m.pointer + offset.toUInt64) = none :=
    h.hidden m hmem _ (by rw [FlatMemory.hostOffset?_add (h.ends m hmem) (by omega)]; rfl)
  -- Every byte of the access has its place in the memory, so none of them is refused.
  have hall : ((List.range width.size).all fun i =>
      (Bus.hostByte? p.env.bus (m.pointer + offset.toUInt64 + i.toUInt64)).isSome) = true := by
    rw [List.all_eq_true]
    intro i hi
    rw [List.mem_range] at hi
    rw [UInt64.add_assoc, ← toUInt64_add, h.hostByte?_add hm (by omega)]
    rfl
  have hplaces : ∀ i < ((Word.bytes v).take width.size).length,
      p.env.bus.hostPlace? (m.pointer + offset.toUInt64 + (0 + i).toUInt64) =
        some (k, offset + i) := by
    intro i hi
    rw [length_take_bytes] at hi
    rw [Nat.zero_add, UInt64.add_assoc, ← toUInt64_add]
    exact h.hostPlace?_add hm (by omega)
  have hfold := Board.foldl_setHostByte _ _ hplaces
  rw [HostMachine.writeMemory, hslot]
  dsimp only
  rw [if_pos hall, hfold]
  rfl

theorem regions_eq {b : Board} (h : b.Hosted) :
    b.regions = b.memories.toList.map FlatMemory.region := by
  have hall : ∀ l : List FlatMemory, (∀ m ∈ l, m.size < UInt32.size) →
      l.filterMap FlatMemory.region? = l.map FlatMemory.region := by
    intro l hl
    induction l with
    | nil => rfl
    | cons m l ih =>
      rw [List.filterMap_cons_some (FlatMemory.region?_eq (hl m List.mem_cons_self)), List.map_cons,
        ih fun m hm => hl m (List.mem_cons_of_mem _ hm)]
  rw [h.regions]
  exact hall _ fun m hm => h.sizes m (Array.mem_toList_iff.1 hm)

/-- Every region is that of a memory. -/
theorem getElem?_memories {b : Board} (h : b.Hosted) {r : FastRegion}
    (hr : b.regions[k]? = some r) : ∃ m, b.memories[k]? = some m ∧ r = m.region := by
  rw [h.regions_eq, List.getElem?_map, Array.getElem?_toList, Option.map_eq_some_iff] at hr
  obtain ⟨m, hm, rfl⟩ := hr
  exact ⟨m, hm, rfl⟩

end Board.Hosted

/-! ## Accesses by guest addresses -/

namespace Board

variable {b : Board} {k : Nat} {r : FastRegion} {offset addr : UInt32}

theorem apart_of_validate {options : Options} (h : b.Hosted)
    (hvalidate : options.validate b.regions = .ok ()) : b.Apart := by
  intro i j m m' hm hm' hij addr hle hlt hshared
  have hpairwise := (Options.accepted_of_validate hvalidate).apart
  rw [h.regions_eq, List.pairwise_map, List.pairwise_iff_getElem] at hpairwise
  obtain ⟨hi, rfl⟩ := Array.getElem?_eq_some_iff.1 hm
  obtain ⟨hj, rfl⟩ := Array.getElem?_eq_some_iff.1 hm'
  have hoverlap := hpairwise i j (by simpa using hi) (by simpa using hj) hij
  have hlength := FlatMemory.toNat_length_region (h.sizes _ (Array.getElem_mem hi))
  have hlength' := FlatMemory.toNat_length_region (h.sizes _ (Array.getElem_mem hj))
  simp only [Array.getElem_toList, FastRegion.overlaps, FastRegion.stop, hlength, hlength',
    Bool.and_eq_false_iff, decide_eq_false_iff_not] at hoverlap
  rw [UInt32.le_iff_toNat_le] at hle hshared
  change ¬ b.memories[i].base.toNat < b.memories[j].base.toNat + b.memories[j].size ∨
    ¬ b.memories[j].base.toNat < b.memories[i].base.toNat + b.memories[i].size at hoverlap
  omega

/-- An access that lies in a region belongs to its memory, and to the same place there. -/
theorem locate_of_region (h : b.Hosted) (hapart : b.Apart) (hr : b.regions[k]? = some r)
    {size : Nat} (hsize : 0 < size) (hoffset : r.offset? addr size = some offset) :
    ∃ m, b.memories[k]? = some m ∧ r = m.region ∧ b.route addr = k ∧
      m.offset addr size = .ok offset.toNat ∧ offset.toNat + size ≤ m.size := by
  obtain ⟨m, hm, rfl⟩ := h.getElem?_memories hr
  have hsizes := h.sizes m (Array.mem_of_getElem? hm)
  obtain ⟨hplace, hfits⟩ := FlatMemory.offset_of_region hsizes hsize hoffset
  have hstart : m.base ≤ addr ∧ offset = addr - m.base := by
    rw [FastRegion.offset?] at hoffset
    split at hoffset
    · next hin =>
      cases hoffset
      exact ⟨hin.1, rfl⟩
    · cases hoffset
  obtain ⟨hle, rfl⟩ := hstart
  refine ⟨m, hm, rfl, route_eq hapart hm hle ?_, hplace, hfits⟩
  rw [UInt32.toNat_sub_of_le _ _ hle] at hfits
  omega

variable {p : HostMachine Board}

/-- What the host reads in a region is what a read through the bus gives. -/
theorem Hosted.readMemory_region (h : p.env.bus.Hosted) (hapart : p.env.bus.Apart)
    (hr : p.env.bus.regions[k]? = some r) {kind : LoadKind}
    (hoffset : r.offset? addr kind.width.size = some offset) :
    ∃ value, p.readMemory kind.width (r.pointer + offset.toUInt64) = some value ∧
      p.env.load kind addr = (kind.extend value, p.env) := by
  obtain ⟨m, hm, rfl, hroute, hplace, hfits⟩ := locate_of_region h hapart hr kind.width.size_pos hoffset
  have hread := h.readMemory hm hfits
  rw [Nat.toUInt64_eq, UInt64.ofNat_uInt32ToNat] at hread
  refine ⟨_, hread, ?_⟩
  have hbus : Bus.read kind.width addr p.env.bus =
      (.ok (Word.ofBytes (m.run offset.toNat kind.width.size)), p.env.bus) := by
    change (p.env.bus.read kind.width addr, p.env.bus) = _
    rw [Board.read, hroute, hm]
    dsimp only
    rw [FlatMemory.read, hplace]
    rfl
  rw [Environment.load, Environment.read, hbus]

/-- What the host writes in a region is what a write through the bus does. -/
theorem Hosted.writeMemory_region (h : p.env.bus.Hosted) (hapart : p.env.bus.Apart)
    (hr : p.env.bus.regions[k]? = some r) {width : Width}
    (hoffset : r.offset? addr width.size = some offset) (v : UInt32) :
    p.writeMemory width (r.pointer + offset.toUInt64) v =
      some (p.withEnv (p.env.write width addr v)) := by
  obtain ⟨m, hm, rfl, hroute, hplace, hfits⟩ := locate_of_region h hapart hr width.size_pos hoffset
  have hwrite := h.writeMemory hm hfits v
  rw [Nat.toUInt64_eq, UInt64.ofNat_uInt32ToNat] at hwrite
  have hlocate : p.env.bus.locate addr width.size = .ok (k, offset.toNat) := by
    rw [locate, hroute, hm]
    dsimp only
    rw [hplace]
    rfl
  have hbus : Bus.write width addr (width.truncate v) p.env.bus =
      (.ok (), p.env.bus.store k offset.toNat ((Word.bytes v).take width.size)) := by
    unfold Bus.write instBusBoard
    dsimp only
    rw [hlocate]
    dsimp only
    rw [take_bytes_truncate]
  have henv : p.env.write width addr v = { p.env with
      bus := p.env.bus.store k offset.toNat ((Word.bytes v).take width.size) } := by
    rw [Environment.write, hbus]
  rw [henv]
  exact hwrite

end Board

end Recompiler
