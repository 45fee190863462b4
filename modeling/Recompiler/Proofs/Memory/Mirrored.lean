import Recompiler.Proofs.Guest.Interpreter
import Recompiler.Proofs.Memory.Backed

/-!
# Memory that is reached in two ways

The bus and the host may reach the same memory. Then an access of generated code that bypasses the
bus is the access that the bus would have made.

* `Bus.Harmless`: reading has no side effects.
* `Bus.Mirrors`, `Bus.Mirrored`: regions in which the bus accesses host memory, now and from now on.
* `FlatMemory.mirrors`, `FlatMemory.mirrored`: flat memory is such a bus.
* `HandledMemory`: flat memory with a handler of system calls.
-/

namespace Recompiler

variable {β : Type} [Bus β]

namespace Bus

/-- Reading has no side effects. -/
def Harmless (β : Type) [Bus β] : Prop :=
  ∀ (width : Width) (addr : UInt32) (b : β), (Bus.read width addr b).2 = b

/-- In the regions the bus reads and writes what the host reads and writes there. -/
structure Mirrors (regions : List FastRegion) (b : β) : Prop where
  read : ∀ r ∈ regions, ∀ (width : Width) (addr offset : UInt32),
    r.offset? addr width.size = some offset →
      ∃ value, Bus.hostWord? b width (r.pointer + offset.toUInt64) = some value ∧
        Bus.read width addr b = (.ok value, b)
  write : ∀ r ∈ regions, ∀ (width : Width) (addr offset : UInt32),
    r.offset? addr width.size = some offset → ∀ value,
      Bus.write width addr (width.truncate value) b =
        (.ok (), Bus.setHostWord b width (r.pointer + offset.toUInt64) value)

/-- It stays so, whatever is done to the bus. -/
def Mirrored (regions : List FastRegion) (b : β) : Prop :=
  ∀ ⦃c⦄, Evolves b c → Mirrors regions c

variable {regions : List FastRegion} {b c : β}

theorem Mirrored.mirrors (h : Mirrored regions b) : Mirrors regions b :=
  h (.refl b)

theorem Mirrored.evolves (h : Mirrored regions b) (hevolves : Evolves b c) : Mirrored regions c :=
  fun _ hd => h (hevolves.trans hd)

/-- What every operation keeps holds from now on. -/
theorem Evolves.keeps {I : β → Prop} (hstep : ∀ b c, I b → Does b c → I c) (h : Evolves b c)
    (hb : I b) : I c := by
  induction h with
  | refl => exact hb
  | tail _ hdoes ih => exact hstep _ _ ih hdoes

end Bus

/-! ## Flat memory -/

namespace FlatMemory

variable {m n : FlatMemory}

/-- Bytes that are written one by one through the host end up in the block. -/
theorem foldl_setHostByte (pointer : UInt64) (bytes : List UInt8) {m : FlatMemory} {k offset : Nat}
    (hplaces : ∀ i < bytes.length,
      m.hostOffset? (pointer + (k + i).toUInt64) = some (offset + i)) :
    (bytes.zipIdx k).foldl (fun m (x, i) => Bus.setHostByte m (pointer + i.toUInt64) x) m =
      m.store offset bytes := by
  induction bytes generalizing m k offset with
  | nil => rfl
  | cons x xs ih =>
    have hfirst : Bus.setHostByte m (pointer + k.toUInt64) x = m.store offset [x] := by
      have hplace := hplaces 0 (Nat.succ_pos _)
      rw [Nat.add_zero, Nat.add_zero] at hplace
      unfold Bus.setHostByte instBusFlatMemory
      dsimp only
      rw [hplace]
      rfl
    rw [List.zipIdx_cons, List.foldl_cons]
    refine (congrArg (fun m => (xs.zipIdx (k + 1)).foldl _ m) hfirst).trans
      ((ih fun i hi => ?_).trans (store_cons m offset x xs).symm)
    have hplace := hplaces (i + 1) (Nat.succ_lt_succ hi)
    rwa [show k + 1 + i = k + (i + 1) by omega, show offset + 1 + i = offset + (i + 1) by omega]

/-- The region of a block in host memory is the block. -/
theorem mirrors (h : m.Hosted) : Bus.Mirrors [m.region] m := by
  have hplace {offset : UInt32} {i : Nat} (hi : offset.toNat + i < m.size) :
      m.hostOffset? (m.region.pointer + offset.toUInt64 + i.toUInt64) = some (offset.toNat + i) := by
    have hword : offset.toNat.toUInt64 = offset.toUInt64 := UInt64.ofNat_uInt32ToNat offset
    rw [UInt64.add_assoc, ← hword, ← Board.Hosted.toUInt64_add]
    exact hostOffset?_add h.fits hi
  -- The place is an offset into the block: reading collects its bytes, writing stores them there.
  refine ⟨fun r hr width addr offset hoffset => ?_, fun r hr width addr offset hoffset value => ?_⟩ <;>
    obtain rfl := List.mem_singleton.1 hr <;>
    obtain ⟨hstart, hfits⟩ := offset_of_region h.size width.size_pos hoffset
  · refine ⟨Word.ofBytes (m.run offset.toNat width.size), ?_, ?_⟩
    · have hbytes : (List.range width.size).mapM (fun i =>
          Bus.hostByte? m (m.region.pointer + offset.toUInt64 + i.toUInt64)) =
            some (m.run offset.toNat width.size) := by
        refine mapM_option_eq fun i hi => ?_
        rw [List.mem_range] at hi
        change (m.hostOffset? _).map m.byte = _
        rw [hplace (by omega)]
        rfl
      rw [Bus.hostWord?, hbytes]
      rfl
    · change (m.read width addr, m) = _
      rw [FlatMemory.read, hstart]
      rfl
  · have hplaces : ∀ i < ((Word.bytes value).take width.size).length,
        m.hostOffset? (m.region.pointer + offset.toUInt64 + (0 + i).toUInt64) =
          some (offset.toNat + i) := by
      intro i hi
      rw [length_take_bytes] at hi
      rw [Nat.zero_add]
      exact hplace (by omega)
    have hfold := foldl_setHostByte _ _ hplaces
    have hwrite : Bus.write width addr (width.truncate value) m =
        (.ok (), m.store offset.toNat ((Word.bytes value).take width.size)) := by
      unfold Bus.write instBusFlatMemory
      dsimp only
      rw [hstart]
      dsimp only
      rw [take_bytes_truncate]
    rw [hwrite, Bus.setHostWord]
    exact congrArg (Except.ok (), ·) hfold.symm

/-- A block that lies where another one does is in host memory too. -/
theorem Hosted.of_place (h : m.Hosted) (hsize : n.size = m.size) (hpointer : n.pointer = m.pointer) :
    n.Hosted := by
  refine ⟨hsize ▸ h.size, ?_, ?_⟩
  · rw [hsize, hpointer]
    exact h.fits
  · rw [hsize, hpointer]
    exact h.hidden

theorem region_eq (hbase : n.base = m.base) (hsize : n.size = m.size)
    (hpointer : n.pointer = m.pointer) : n.region = m.region := by
  rw [region, region, hbase, hsize, hpointer]

theorem fastRegions_eq (h : m.size < UInt32.size) : Bus.fastRegions m = [m.region] := by
  change m.region?.toList = _
  rw [region?_eq h]
  rfl

/-- Memory whose size is no word has no region. -/
theorem fastRegions_eq_nil (h : ¬ m.size < UInt32.size) : Bus.fastRegions m = [] := by
  change m.region?.toList = []
  rw [region?, if_neg h]
  rfl

theorem backed_of_hosted (h : m.size < UInt32.size → m.Hosted) :
    Bus.Backed (Bus.fastRegions m) m := by
  by_cases hsize : m.size < UInt32.size
  · exact backed (h hsize)
  · rw [fastRegions_eq_nil hsize]
    exact fun c _ r hr => by cases hr

/-- Flat memory is reached in both ways. -/
theorem mirrored (h : m.Hosted) : Bus.Mirrored (Bus.fastRegions m) m := by
  intro c hevolves
  obtain ⟨hbase, hsize, hpointer⟩ : c.base = m.base ∧ c.size = m.size ∧ c.pointer = m.pointer := by
    refine hevolves.keeps
      (I := fun n : FlatMemory => n.base = m.base ∧ n.size = m.size ∧ n.pointer = m.pointer) ?_
      ⟨rfl, rfl, rfl⟩
    rintro b c ⟨hbase, hsize, hpointer⟩ hdoes
    obtain ⟨hbase', hsize', hpointer'⟩ := place_of_does hdoes
    exact ⟨hbase'.trans hbase, hsize'.trans hsize, hpointer'.trans hpointer⟩
  rw [fastRegions_eq h.size, ← region_eq hbase hsize hpointer]
  exact mirrors (h.of_place hsize hpointer)

theorem harmless : Bus.Harmless FlatMemory := fun _ _ _ => rfl

/-- The first memory lies in host memory, where no guest state is. -/
theorem hosted_of_pointer (hsize : m.size < UInt32.size) (hpointer : m.pointer = Linkage.memoryBase 0) :
    m.Hosted := by
  have hboard : Board.Hosted ⟨#[m], [m].filterMap FlatMemory.region?, fun _ => none⟩ := by
    refine Board.hosted_of_pointers ?_ rfl (Nat.succ_le_of_lt (by decide)) fun k n hn => ?_
    · simpa using hsize
    · obtain ⟨hk, rfl⟩ := Array.getElem?_eq_some_iff.1 hn
      obtain rfl : k = 0 := Nat.lt_one_iff.1 hk
      exact hpointer
  have hmem : m ∈ #[m] := by simp
  refine ⟨hsize, hboard.ends m hmem, fun n hn => hboard.hidden m hmem _ ?_⟩
  rw [hostOffset?_add (hboard.ends m hmem) hn]
  rfl

end FlatMemory

/-! ## Handlers -/

/-- Flat memory with a handler of system calls, which sees the code and the guest state. Elsewhere there
are words that cannot be written. -/
structure HandledMemory where
  /-- The memory. -/
  memory : FlatMemory
  /-- The words where there is no memory. -/
  word : UInt32 → UInt32
  /-- The state that the handler leaves. -/
  handler : (code : UInt32) → State → State
  /-- Register zero cannot be written. -/
  zero : ∀ code s, (handler code s).get 0 = s.get 0

instance : Bus HandledMemory where
  read width addr m :=
    match (Bus.read width addr m.memory).1 with
    | .ok value => (.ok value, m)
    | .error _ => (.ok (m.word addr), m)
  write width addr value m :=
    let (result, memory) := Bus.write width addr value m.memory
    (result, { m with memory := memory })
  fastRegions m := Bus.fastRegions m.memory
  syscall code state m := (.handled (m.handler code state), m)
  hostByte? m pointer := Bus.hostByte? m.memory pointer
  setHostByte m pointer value := { m with memory := Bus.setHostByte m.memory pointer value }

namespace HandledMemory

variable {m n : HandledMemory}

theorem snd_read (width : Width) (addr : UInt32) (m : HandledMemory) :
    (Bus.read width addr m).2 = m := by
  change (match (Bus.read width addr m.memory).1 with
    | .ok value => (Except.ok value, m)
    | .error _ => (.ok (m.word addr), m)).2 = m
  split <;> rfl

theorem harmless : Bus.Harmless HandledMemory :=
  snd_read

theorem respects : Bus.Respects HandledMemory 0 := by
  intro code s s' m m' hcall
  obtain ⟨hstate, -⟩ := Prod.mk.inj hcall
  rw [← SyscallOutcome.handled.inj hstate]
  exact m.zero code s

/-- An operation does to the memory what memory may do. -/
theorem evolves_of_does (h : Bus.Does m n) : Bus.Evolves m.memory n.memory := by
  cases h with
  | read width addr =>
    rw [snd_read]
    exact .refl _
  | write width addr value => exact .does (.write m.memory width addr value)
  | syscall code state => exact .refl _
  | setHostByte pointer value => exact .does (.setHostByte m.memory pointer value)

theorem evolves (h : Bus.Evolves m n) : Bus.Evolves m.memory n.memory :=
  h.keeps (I := fun n => Bus.Evolves m.memory n.memory)
    (fun _ _ hb hdoes => hb.trans (evolves_of_does hdoes)) (.refl _)

theorem memory_setHostWord (m : HandledMemory) (width : Width) (pointer : UInt64)
    (value : UInt32) : Bus.setHostWord m width pointer value =
      { m with memory := Bus.setHostWord m.memory width pointer value } := by
  unfold Bus.setHostWord
  generalize ((Word.bytes value).take width.size).zipIdx = bytes
  induction bytes generalizing m with
  | nil => rfl
  | cons x rest ih => exact ih _

/-- The regions are backed by the memory. -/
theorem backed (h : m.memory.Hosted) : Bus.Backed (Bus.fastRegions m) m :=
  fun _ hevolves => FlatMemory.backed h (evolves hevolves)

theorem mirrored (h : m.memory.Hosted) : Bus.Mirrored (Bus.fastRegions m) m := by
  intro n hevolves
  have hmirrors := FlatMemory.mirrored h (evolves hevolves)
  refine ⟨fun r hr width addr offset hoffset => ?_, fun r hr width addr offset hoffset value => ?_⟩
  · obtain ⟨value, hvalue, hread⟩ := hmirrors.read r hr width addr offset hoffset
    refine ⟨value, hvalue, ?_⟩
    change (match (Bus.read width addr n.memory).1 with
      | .ok value => (Except.ok value, n)
      | .error _ => (.ok (n.word addr), n)) = _
    rw [hread]
  · have hwrite := hmirrors.write r hr width addr offset hoffset value
    rw [memory_setHostWord]
    exact congrArg (fun x => (x.1, { n with memory := x.2 })) hwrite

end HandledMemory

end Recompiler
