import Recompiler.Block.MemoryAccess
import Recompiler.Proofs.Block.Registers
import Recompiler.Proofs.Code.Flow
import Recompiler.Proofs.Memory.Hosted

/-!
# Single memory accesses

The code that reaches a guest address: directly in host memory, or by asking the bus. Either does
what the helper of the access does.

* `MemoryOp.Accesses`: the machine after an access to a guest address.
* `FastAddress.Aims`: a fast address that names a host address.
* `MemoryOp.accesses_slow`, `MemoryOp.accesses_direct`: the two ways.
* `FastRegion.wrapped?`: what the checks of a guarded access find, which is the place of the access
  unless the region reaches past the end of the address space.
-/

namespace Recompiler

open HostMachine

variable {β : Type}

/-! ## What an access does -/

namespace MemoryOp

/-- The guest after the helper of the access. -/
def asked [Bus β] (op : MemoryOp) (addr value : UInt32) (e : Environment β) : Environment β :=
  match op with
  | load kind => (e.load kind addr).2
  | store width => e.write width addr value

/-- The host registers that an access may change. -/
def lost (op : MemoryOp) (value : HostRegister) : List HostRegister :=
  match op with
  | load _ => value :: HostRegister.volatile
  | store _ => HostRegister.volatile

/-- The machine after an access to a guest address: the guest is as the helper leaves it, and a
loaded value is where it is wanted. -/
structure Accesses [Bus β] (op : MemoryOp) (value : HostRegister) (addr : UInt32)
    (m n : HostMachine β) : Prop where
  keeps : Keeps (op.lost value) (m.withEnv (op.asked addr (m.getWord value) m.env)) n
  loaded : ∀ kind, op = load kind → n.getWord value = (m.env.load kind addr).1

theorem ne_volatile {value r : HostRegister} (hvalue : value ∈ HostRegister.allocationOrder)
    (hr : r ∈ HostRegister.volatile) : value ≠ r :=
  (by decide : ∀ v ∈ HostRegister.allocationOrder, ∀ r ∈ HostRegister.volatile, v ≠ r)
    value hvalue r hr

/-- Preparing an access changes no more than the access may. -/
theorem prepared_subset_lost (op : MemoryOp) (value : HostRegister) :
    [HostRegister.scratch, .pointer] ⊆ op.lost value := by
  cases op <;> simp [lost, HostRegister.volatile, HostRegister.scratch, HostRegister.pointer]

theorem getWord_of_prepared [Bus β] {value : HostRegister} {m m₁ : HostMachine β}
    (hvalue : value ∈ HostRegister.allocationOrder) (hkeeps : Keeps [.scratch, .pointer] m m₁) :
    m₁.getWord value = m.getWord value := by
  refine hkeeps.getWord (HostRegister.valid_of_mem_allocationOrder hvalue) ?_
  simp only [List.mem_cons, List.not_mem_nil, or_false, not_or]
  exact ⟨ne_volatile hvalue (by decide), ne_volatile hvalue (by decide)⟩

/-- Preparations that leave the value alone. -/
theorem Accesses.of_keeps [Bus β] {op : MemoryOp} {value : HostRegister} {addr : UInt32}
    {m m₁ n : HostMachine β} (hvalue : value ∈ HostRegister.allocationOrder)
    (hkeeps : Keeps [.scratch, .pointer] m m₁) (h : op.Accesses value addr m₁ n) :
    op.Accesses value addr m n := by
  refine ⟨?_, fun kind hop => by rw [h.loaded kind hop, hkeeps.env]⟩
  have hkeeps' := h.keeps
  rw [getWord_of_prepared hvalue hkeeps, hkeeps.env] at hkeeps'
  exact ((hkeeps.withEnv _).mono (op.prepared_subset_lost value)).trans hkeeps'

variable [Bus β] {m : HostMachine β} {value : HostRegister} {addr : UInt32}

/-- Asking the bus. -/
theorem accesses_slow (op : MemoryOp) (hcontext : m.get .context = Linkage.contextBase)
    (hvalue : value ∈ HostRegister.allocationOrder) (haddr : m.getWord .scratch = addr) :
    ∃ is, op.slow value = .ok is ∧ ∃ n, Runs is m n ∧ op.Accesses value addr m n := by
  subst haddr
  have hvalid := HostRegister.valid_of_mem_allocationOrder hvalue
  cases op with
  | load kind =>
    obtain ⟨is, hcall, n, hruns, hloaded, hkeeps⟩ := Sequence.runs_loadHelper hcontext kind
    obtain ⟨p, hmove, hword, -, hkeeps'⟩ :=
      Sequence.runs_move hvalid (by decide : HostRegister.scratch.Valid) n
    refine ⟨is ++ Sequence.move value .scratch, ?_, p, hruns.append hmove, ?_, ?_⟩
    · change (Sequence.call (Helper.load kind).address [.context, .register .scratch] >>=
        fun call => pure (call ++ Sequence.move value .scratch)) = _
      rw [hcall]
      rfl
    · exact (hkeeps.mono (List.subset_cons_self _ _)).trans (hkeeps'.mono (by simp))
    · intro kind' hop
      cases hop
      rw [hword, hloaded]
  | store width =>
    obtain ⟨is, hcall, n, hruns, hkeeps⟩ := Sequence.runs_storeHelper hcontext width hvalue
    exact ⟨is, hcall, n, hruns, hkeeps, fun kind hop => by cases hop⟩

end MemoryOp

/-! ## Fast addresses -/

/-- The fast address names a host address. -/
structure FastAddress.Aims (fast : FastAddress) (m : HostMachine β) (pointer : UInt64) : Prop where
  resolves : ∃ a, fast.resolve = .ok a ∧ a.Valid ∧ m.address a = pointer

namespace FastAddress

variable {m : HostMachine β} {offset : UInt32} {base : UInt64}

theorem aims_indexed (hbase : m.get .memoryBase = base) (hoffset : m.get .scratch = offset.toUInt64) :
    (indexed .scratch).Aims m (base + offset.toUInt64) := by
  refine ⟨⟨.memoryBase, some .scratch, 0⟩, rfl, by decide, ?_⟩
  rw [← hbase, ← hoffset]
  exact UInt64.add_zero _

theorem aims_based (hbase : m.get .pointer = base) (hoffset : m.get .scratch = offset.toUInt64) :
    (based .pointer .scratch).Aims m (base + offset.toUInt64) := by
  refine ⟨⟨.pointer, some .scratch, 0⟩, rfl, by decide, ?_⟩
  rw [← hbase, ← hoffset]
  exact UInt64.add_zero _

theorem aims_fixed (hbase : m.get .memoryBase = base) (hoffset : offset < 0x80000000) :
    (fixed offset).Aims m (base + offset.toUInt64) := by
  refine ⟨⟨.memoryBase, none, offset⟩, if_pos hoffset,
    ⟨(by decide : HostRegister.memoryBase.Valid), fun _ h => by cases h⟩, ?_⟩
  have hlt : offset.toNat < 0x80000000 := UInt32.lt_iff_toNat_lt.1 hoffset
  have hsigned : offset.toInt32.toInt64.toUInt64 = offset.toUInt64 := by
    apply UInt64.toNat_inj.1
    rw [Word.toNat_signExtend, if_pos hlt]
    rfl
  change m.get .memoryBase + 0 + offset.toInt32.toInt64.toUInt64 = _
  rw [hbase, UInt64.add_zero, hsigned]

end FastAddress

/-! ## Direct accesses -/

/-- An access that a region holds may go to host memory. -/
theorem MemoryOp.accesses_direct {m : HostMachine Board} (op : MemoryOp)
    (hhosted : m.env.bus.Hosted) (hapart : m.env.bus.Apart) {k : Nat} {r : FastRegion}
    {offset addr : UInt32} (hr : m.env.bus.regions[k]? = some r)
    (hoffset : r.offset? addr op.size = some offset) {value : HostRegister}
    (hvalue : value ∈ HostRegister.allocationOrder) {fast : FastAddress}
    (haims : fast.Aims m (r.pointer + offset.toUInt64)) :
    ∃ is, op.direct value fast = .ok is ∧ ∃ n, Runs is m n ∧ op.Accesses value addr m n := by
  have hvalid := HostRegister.valid_of_mem_allocationOrder hvalue
  obtain ⟨a, hresolve, haddress, hpointer⟩ := haims.resolves
  cases op with
  | load kind =>
    -- The bytes behind the pointer are those that the bus has at the address.
    obtain ⟨v, hread, hload⟩ := hhosted.readMemory_region hapart hr hoffset
    have hexecute : m.executeStraight (.load kind value a) = some (m.setWord value (kind.extend v)) := by
      simp only [executeStraight, hpointer, hread]
      rfl
    refine ⟨[.load kind value a], ?_, _, .one ⟨hvalid, haddress⟩ hexecute, ?_, fun kind' hop => ?_⟩
    · change (fast.resolve >>= fun a => pure [HostInstruction.load kind value a]) = _
      rw [hresolve]
      rfl
    · rw [asked, hload]
      exact .setWord hvalid List.mem_cons_self _ _
    · cases hop
      rw [hload, getWord_setWord_self]
  | store width =>
    have hwrite := hhosted.writeMemory_region hapart hr hoffset (m.getWord value)
    have hexecute : m.executeStraight (.store width a value) =
        some (m.withEnv (m.env.write width addr (m.getWord value))) := by
      simp only [executeStraight, hpointer, hwrite]
    refine ⟨[.store width a value], ?_, _, .one ⟨haddress, hvalid⟩ hexecute, .refl _ _,
      fun kind hop => by cases hop⟩
    change (fast.resolve >>= fun a => pure [HostInstruction.store width a value]) = _
    rw [hresolve]
    rfl

/-! ## Checks at run time -/

/-- The place that the checks of a guarded access find in a region. The distance from the start of
the region is taken modulo 2^32. -/
def FastRegion.wrapped? (r : FastRegion) (addr : UInt32) (size : Nat) : Option UInt32 :=
  if size ≤ r.length.toNat ∧ addr - r.start ≤ r.length - size.toUInt32 then some (addr - r.start)
  else none

/-- The checks find the place of the access, unless they take an address below the region for one
past the end of the address space. -/
theorem FastRegion.wrapped?_eq {r : FastRegion} {addr : UInt32} {size : Nat} (hsize : size ≤ 4)
    (hlow : addr < r.start → r.stop < UInt32.size + addr.toNat + size) :
    r.wrapped? addr size = r.offset? addr size := by
  have hsize32 : size.toUInt32.toNat = size := UInt32.toNat_ofNat_of_lt' (by change _ < 2 ^ 32; omega)
  have hstop : r.stop = r.start.toNat + r.length.toNat := rfl
  have haddr := addr.toNat_lt
  have hlength := r.length.toNat_lt
  have hstart := r.start.toNat_lt
  have hdistance := UInt32.toNat_sub addr r.start
  have hlast := UInt32.toNat_sub r.length size.toUInt32
  rw [UInt32.lt_iff_toNat_lt] at hlow
  change _ → _ < 2 ^ 32 + addr.toNat + size at hlow
  have hiff : (size ≤ r.length.toNat ∧ addr - r.start ≤ r.length - size.toUInt32) ↔
      (r.start ≤ addr ∧ (addr - r.start).toNat + size ≤ r.length.toNat) := by
    rw [UInt32.le_iff_toNat_le, UInt32.le_iff_toNat_le]
    omega
  rw [wrapped?, offset?]
  simp only [hiff]

/-- Moves the address in the scratch register by the start of a region. -/
theorem Sequence.runs_rebase [Bus β] {op : AluOp} (hop : op = .sub ∨ op = .add) {m : HostMachine β}
    {addr : UInt32} (haddr : m.get .scratch = addr.toUInt64) (start : UInt32) :
    ∃ n, Runs (if start ≠ 0 then Sequence.alu op .scratch .scratch (.immediate start) else []) m n ∧
      n.get .scratch = (op.fold addr start).toUInt64 ∧ Keeps [.scratch] m n := by
  have hword : m.getWord .scratch = addr := by
    rw [getWord, haddr]
    simp
  by_cases hstart : start = 0
  · subst hstart
    refine ⟨m, rfl, ?_, .refl _ m⟩
    rw [haddr]
    rcases hop with rfl | rfl <;> simp [AluOp.fold]
  · rw [if_pos hstart]
    rcases hop with rfl | rfl
    · refine ⟨_, Sequence.runs_group (by decide)
        (show (Source.immediate start).Valid from trivial) (by decide) m, ?_,
        (Keeps.setFlags m _).trans (.setWord (by decide) (by decide) _ _)⟩
      rw [get_setWord_self, hword]
      rfl
    · refine ⟨_, Sequence.runs_group (by decide)
        (show (Source.immediate start).Valid from trivial) (by decide) m, ?_,
        (Keeps.setFlags m _).trans (.setWord (by decide) (by decide) _ _)⟩
      rw [get_setWord_self, hword]
      rfl

end Recompiler
