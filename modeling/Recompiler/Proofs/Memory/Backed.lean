import Mathlib.Logic.Relation
import Recompiler.Guest.Interpreter
import Recompiler.Host.Machine
import Recompiler.Proofs.Memory.Hosted

/-!
# Memory behind fast regions

Generated code reaches fast regions without asking the bus. That is safe as long as the bus keeps
every byte of them in host memory, whatever else is done to it.

* `Bus.hostWord?`, `Bus.setHostWord`: the values that direct accesses read and write.
* `Bus.Evolves`: the bus after any number of operations.
* `Bus.Backs`, `Bus.Backed`: every byte of the regions is in host memory, now and from now on.
* `FlatMemory.backed`: flat memory is backed by itself.
-/

namespace Recompiler

variable {β : Type} [Bus β]

/-! ## Direct accesses -/

namespace Bus

/-- The value of an access at a host address, widened with zeros. -/
def hostWord? (b : β) (width : Width) (pointer : UInt64) : Option UInt32 :=
  Word.ofBytes <$> (List.range width.size).mapM fun i =>
    Bus.hostByte? b (pointer + i.toUInt64)

/-- The bus with the low part of a value written at a host address. -/
def setHostWord (b : β) (width : Width) (pointer : UInt64) (value : UInt32) : β :=
  ((Word.bytes value).take width.size).zipIdx.foldl
    (fun b x => Bus.setHostByte b (pointer + x.2.toUInt64) x.1) b

end Bus

/-! ## What may happen to a bus -/

namespace Bus

/-- The bus after one operation. -/
inductive Does : β → β → Prop
  | read (b : β) (width : Width) (addr : UInt32) : Does b (Bus.read width addr b).2
  | write (b : β) (width : Width) (addr value : UInt32) : Does b (Bus.write width addr value b).2
  | syscall (b : β) (code : UInt32) (state : State) : Does b (Bus.syscall code state b).2
  | setHostByte (b : β) (pointer : UInt64) (value : UInt8) :
      Does b (Bus.setHostByte b pointer value)

/-- The bus after any number of operations. -/
def Evolves : β → β → Prop :=
  Relation.ReflTransGen Does

namespace Evolves

variable {b c : β}

theorem refl (b : β) : Evolves b b := Relation.ReflTransGen.refl

theorem trans {d : β} (h : Evolves b c) (h' : Evolves c d) : Evolves b d :=
  Relation.ReflTransGen.trans h h'

theorem does (h : Does b c) : Evolves b c := Relation.ReflTransGen.single h

theorem setHostWord (b : β) (width : Width) (pointer : UInt64) (value : UInt32) :
    Evolves b (Bus.setHostWord b width pointer value) := by
  unfold Bus.setHostWord
  generalize ((Word.bytes value).take width.size).zipIdx = bytes
  induction bytes generalizing b with
  | nil => exact .refl b
  | cons x rest ih => exact (does (.setHostByte b _ x.1)).trans (ih _)

end Evolves

end Bus

/-! ### Environments -/

namespace Environment

variable (e : Environment β)

theorem evolves_load (kind : LoadKind) (addr : UInt32) :
    Bus.Evolves e.bus (e.load kind addr).2.bus := by
  obtain ⟨state, bus, events⟩ := e
  have hread := Bus.Evolves.does (.read bus kind.width addr)
  simp only [load, read]
  generalize Bus.read kind.width addr bus = r at hread ⊢
  obtain ⟨_ | _, b⟩ := r <;> exact hread

theorem evolves_write (width : Width) (addr value : UInt32) :
    Bus.Evolves e.bus (e.write width addr value).bus := by
  obtain ⟨state, bus, events⟩ := e
  have hwrite := Bus.Evolves.does (.write bus width addr (width.truncate value))
  simp only [write]
  generalize Bus.write width addr (width.truncate value) bus = r at hwrite ⊢
  obtain ⟨_ | _, b⟩ := r <;> exact hwrite

theorem evolves_syscall (code : UInt32) : Bus.Evolves e.bus (e.syscall code).bus := by
  obtain ⟨state, bus, events⟩ := e
  have hsyscall := Bus.Evolves.does (.syscall bus code state)
  simp only [syscall]
  generalize Bus.syscall code state bus = r at hsyscall ⊢
  obtain ⟨_ | _, b⟩ := r <;> exact hsyscall

end Environment

/-- Interpreting an instruction does some operations on the bus. -/
theorem Instruction.evolves_interpret (i : Instruction) (e : Environment β) :
    Bus.Evolves e.bus (i.interpret e).bus := by
  unfold interpret
  split
  all_goals first
    | exact .refl _
    | (split <;> exact .refl _)
    | exact e.evolves_load _ _
    | exact e.evolves_write _ _ _
    | exact e.evolves_syscall _

/-! ## Backed regions -/

namespace Bus

/-- Every byte of the regions is in host memory, apart from the guest state. -/
def Backs (regions : List FastRegion) (b : β) : Prop :=
  ∀ r ∈ regions, ∀ n < r.length.toNat,
    (Bus.hostByte? b (r.pointer + n.toUInt64)).isSome = true ∧
      HostMachine.stateSlot? (r.pointer + n.toUInt64) = none

/-- Every byte of the regions stays in host memory, whatever is done to the bus. -/
def Backed (regions : List FastRegion) (b : β) : Prop :=
  ∀ ⦃c⦄, Evolves b c → Backs regions c

variable {regions : List FastRegion} {b c : β}

theorem Backed.backs (h : Backed regions b) : Backs regions b :=
  h (.refl b)

theorem Backed.evolves (h : Backed regions b) (hevolves : Evolves b c) : Backed regions c :=
  fun _ hd => h (hevolves.trans hd)

/-- What every operation keeps is kept by any number of them. -/
theorem backed_of_invariant {I : β → Prop} (hstep : ∀ b c, I b → Does b c → I c)
    (hbacks : ∀ b, I b → Backs regions b) (hb : I b) : Backed regions b := by
  intro c hevolves
  refine hbacks c ?_
  induction hevolves with
  | refl => exact hb
  | tail _ hdoes ih => exact hstep _ _ ih hdoes

/-- An access inside a region finds all its bytes. -/
theorem Backs.access (h : Backs regions b) {r : FastRegion} (hr : r ∈ regions) {offset : UInt32}
    {size : Nat} (hpos : 0 < size) (hfits : offset.toNat + size ≤ r.length.toNat) :
    HostMachine.stateSlot? (r.pointer + offset.toUInt64) = none ∧
      ∀ i < size,
        (Bus.hostByte? b (r.pointer + offset.toUInt64 + i.toUInt64)).isSome = true := by
  have hword : offset.toNat.toUInt64 = offset.toUInt64 := by
    apply UInt64.toNat_inj.1
    have := offset.toNat_lt
    simp
  have hplace (i : Nat) :
      r.pointer + offset.toUInt64 + i.toUInt64 = r.pointer + (offset.toNat + i).toUInt64 := by
    rw [Board.Hosted.toUInt64_add, hword, UInt64.add_assoc]
  refine ⟨?_, fun i hi => ?_⟩
  · rw [← hword]
    exact (h r hr offset.toNat (by omega)).2
  · rw [hplace]
    exact (h r hr (offset.toNat + i) (by omega)).1

end Bus

/-! ## Flat memory -/

namespace FlatMemory

/-- The block lies in host memory as a whole, apart from the guest state. -/
structure Hosted (m : FlatMemory) : Prop where
  size : m.size < UInt32.size
  fits : m.pointer.toNat + m.size ≤ UInt64.size
  hidden : ∀ n < m.size, HostMachine.stateSlot? (m.pointer + n.toUInt64) = none

/-- No operation moves the block. -/
theorem place_of_does {m n : FlatMemory} (h : Bus.Does m n) :
    n.base = m.base ∧ n.size = m.size ∧ n.pointer = m.pointer := by
  cases h with
  | read width addr => exact ⟨rfl, rfl, rfl⟩
  | write width addr value =>
    simp only [Bus.write]
    split <;> exact ⟨rfl, rfl, rfl⟩
  | syscall code state => exact ⟨rfl, rfl, rfl⟩
  | setHostByte pointer value =>
    simp only [Bus.setHostByte]
    split <;> exact ⟨rfl, rfl, rfl⟩

/-- The regions of flat memory are backed by it. -/
theorem backed {m : FlatMemory} (h : m.Hosted) : Bus.Backed (Bus.fastRegions m) m := by
  refine Bus.backed_of_invariant
    (I := fun n : FlatMemory => n.size = m.size ∧ n.pointer = m.pointer) ?_ ?_ ⟨rfl, rfl⟩
  · rintro b c ⟨hsize, hpointer⟩ hdoes
    obtain ⟨-, hsize', hpointer'⟩ := place_of_does hdoes
    exact ⟨hsize'.trans hsize, hpointer'.trans hpointer⟩
  · rintro b ⟨hsize, hpointer⟩ r hr n hn
    have hregion : Bus.fastRegions m = [m.region] := by
      change m.region?.toList = _
      rw [region?_eq h.size]
      rfl
    rw [hregion] at hr
    obtain rfl := List.mem_singleton.1 hr
    rw [toNat_length_region h.size] at hn
    refine ⟨?_, h.hidden n hn⟩
    have hoffset : b.hostOffset? (m.pointer + n.toUInt64) = some n := by
      rw [← hpointer]
      exact hostOffset?_add (by rw [hsize, hpointer]; exact h.fits) (by omega)
    change ((b.hostOffset? (m.region.pointer + n.toUInt64)).map b.byte).isSome = true
    rw [show m.region.pointer = m.pointer from rfl, hoffset]
    rfl

end FlatMemory

end Recompiler
