import Recompiler.Proofs.Block.CacheOperation

/-!
# The register cache after any history

What holds of a register cache by itself, no machine being looked at, whatever was asked of it before
and whether it could be done or not.

* `RegisterCache.Sound`: guest registers and host registers correspond, and register zero is safe.
* `Allocate.Sparing`, `Allocate.Locking`: operations that leave locked guest registers where they are.
* `Allocate.Keeping`: an operation that emits no store of register zero.
* `CacheRequest.representation_kept`: the invariants after every sequence of requests.
-/

namespace Recompiler

open RegisterCache Allocate

/-! ## Sound caches -/

/-- Guest registers in host registers and occupied host registers correspond one to one, and register
zero is the constant zero or in a host register that was not written. -/
structure RegisterCache.Sound (c : RegisterCache) : Prop extends c.Paired where
  zero : c.location zeroRegister = .immediate 0 ∨ ∃ host, c.Held host zeroRegister false

/-- A machine in which every guest register is zero, wherever it is looked for. -/
def HostMachine.zeroed : HostMachine FlatMemory where
  registers := (Vector.replicate 16 0).set 15 Linkage.contextBase
  flags := .clear
  stack := Vector.replicate Linkage.stackSlots 0
  ip := 0
  env := .initial (FlatMemory.zeros 0 0 0)

theorem HostMachine.getWord_zeroed :
    ∀ host ∈ HostRegister.allocationOrder, zeroed.getWord host = 0 := by
  decide

theorem State.get_initial (slot : Nat) : State.initial.get slot = 0 := by
  rw [get, initial, Vector.getElem?_replicate]
  split <;> rfl

namespace RegisterCache

variable {β : Type} {c : RegisterCache} {m : HostMachine β}

theorem Consistent.sound (h : c.Consistent m) : c.Sound :=
  ⟨h.toPaired, h.zero⟩

/-- A sound cache agrees with a machine in which everything is zero. -/
theorem Sound.consistent (h : c.Sound) : c.Consistent HostMachine.zeroed where
  toPaired := h.toPaired
  clean host reg hheld := by
    rw [HostMachine.getWord_zeroed host (h.mem_allocationOrder hheld)]
    exact (State.get_initial reg).symm
  zeroWord := State.get_initial 0
  zero := h.zero
  context := by decide

theorem sound_fresh : fresh.Sound :=
  (Consistent.start (c := fresh) (m := HostMachine.zeroed) rfl (State.get_initial 0)
    (by decide)).sound

theorem Sound.start (h : c.Sound) : c.start.Sound :=
  (Consistent.start (m := HostMachine.zeroed) h.hosts (State.get_initial 0) (by decide)).sound

theorem Sound.setLocked (h : c.Sound) (locked : Vector Bool 32) :
    Sound { c with locked := locked } :=
  (h.consistent.setLocked locked).sound

theorem Sound.setImmediate (h : c.Sound) (reg : GuestIndex) (value : UInt32) :
    (c.setImmediate reg value).Sound := by
  by_cases hreg : reg = zeroRegister
  · rwa [RegisterCache.setImmediate, if_pos hreg]
  · exact (h.consistent.setImmediate hreg value).1.sound

/-- A constant, or a register in the guest state, owns no host register. -/
theorem Sound.not_held (h : c.Sound) {reg : GuestIndex}
    (hplace : ∀ host, c.location reg ≠ .host host) (slot : HostSlot) (hslot : slot ∈ c.slots) :
    slot.guest ≠ some reg := by
  intro hguest
  refine hplace slot.host ((h.resident reg slot.host).2 ⟨slot.dirty, ?_⟩)
  rw [Held, ← hguest]
  exact hslot

end RegisterCache

/-! ## Operations that keep locked registers in place -/

/-- Whatever comes of it, the operation leaves a sound cache and locked guest registers where they
are. -/
def Allocate.Sparing {α : Type} (x : Allocate α) : Prop :=
  ∀ a : Allocation, a.cache.Sound →
    (exec x a).2.cache.Sound ∧ a.cache.Spares (exec x a).2.cache

namespace Allocate.Sparing

variable {α γ : Type} {x : Allocate α}

theorem pure (r : α) : Sparing (Pure.pure r : Allocate α) :=
  fun a ha => ⟨ha, .refl a.cache⟩

theorem bind {f : α → Allocate γ} (hx : Sparing x) (hf : ∀ r, Sparing (f r)) :
    Sparing (x >>= f) := by
  intro a ha
  obtain ⟨hsound, hspares⟩ := hx a ha
  rcases hfirst : exec x a with ⟨e | r, b⟩ <;> rw [hfirst] at hsound hspares
  · rw [exec_bind_of_error hfirst]
    exact ⟨hsound, hspares⟩
  · rw [exec_bind_of_ok hfirst]
    obtain ⟨hsound', hspares'⟩ := hf r b hsound
    exact ⟨hsound', hspares.trans hspares'⟩

theorem map (reg : GuestIndex) (access : Access) : Sparing (RegisterCache.map reg access) := by
  intro a ha
  obtain ⟨n, hmoves, hspares, -⟩ := maps ha.consistent reg access
  exact ⟨hmoves.consistent.sound, hspares⟩

end Allocate.Sparing

/-- The operation locks some guest registers first, and leaves all locked ones where they are. -/
def Allocate.Locking {α : Type} (x : Allocate α) : Prop :=
  ∀ a : Allocation, a.cache.Sound → (exec x a).2.cache.Sound ∧
    ∃ locked, RegisterCache.Spares { a.cache with locked := locked } (exec x a).2.cache

namespace Allocate.Locking

variable {α γ : Type} {x : Allocate α}

theorem of_sparing (hx : Sparing x) : Locking x := by
  intro a ha
  obtain ⟨hsound, hspares⟩ := hx a ha
  exact ⟨hsound, a.cache.locked, hspares⟩

theorem lock_bind (reg : GuestIndex) (hx : Locking x) :
    Locking (update (·.lock reg) >>= fun _ => x) :=
  fun a ha => hx { a with cache := a.cache.lock reg } (ha.setLocked _)

theorem bind {f : α → Allocate γ} (hx : Locking x) (hf : ∀ r, Sparing (f r)) :
    Locking (x >>= f) := by
  intro a ha
  obtain ⟨hsound, locked, hspares⟩ := hx a ha
  rcases hfirst : exec x a with ⟨e | r, b⟩ <;> rw [hfirst] at hsound hspares
  · rw [exec_bind_of_error hfirst]
    exact ⟨hsound, locked, hspares⟩
  · rw [exec_bind_of_ok hfirst]
    obtain ⟨hsound', hspares'⟩ := hf r b hsound
    exact ⟨hsound', locked, hspares.trans hspares'⟩

theorem mapSources (rs rt : GuestIndex) : Locking (RegisterCache.mapSources rs rt) :=
  .lock_bind rs <| .lock_bind rt <| .of_sparing <| .bind (.map rs .read) fun _ =>
    .bind (.map rt .read) fun _ => .pure _

theorem mapTarget (dst src : GuestIndex) : Locking (RegisterCache.mapTarget dst src) :=
  .lock_bind dst <| .lock_bind src <| .of_sparing <| .bind (.map src .read) fun _ =>
    .bind (.map dst _) fun _ => .pure _

theorem mapTargetSources (dst rs rt : GuestIndex) :
    Locking (RegisterCache.mapTargetSources dst rs rt) :=
  .lock_bind dst <| .bind (.mapSources rs rt) fun _ => .bind (.map dst _) fun _ => .pure _

end Allocate.Locking

/-! ## Operations that emit no store of register zero -/

/-- The memory that an instruction writes. -/
def HostInstruction.target? : HostInstruction → Option HostAddress
  | .store _ dst _ | .storeImmediate dst _ => some dst
  | .groupImmediate op (.memory dst) _ => if op = .compare then none else some dst
  | _ => none

/-- Whatever memory the instruction writes is the word of a guest register other than zero. -/
def HostInstruction.SparesZero (i : HostInstruction) : Prop :=
  ∀ dst, i.target? = some dst →
    ∃ reg : GuestIndex, reg ≠ zeroRegister ∧ dst = Sequence.stateAddress (guestOffset reg)

namespace RegisterCache

variable {c : RegisterCache}

/-- A free host register is not marked as written. -/
def Tells (c : RegisterCache) : Prop :=
  ∀ slot ∈ c.slots, slot.dirty = true → slot.guest.isSome = true

theorem Tells.updateSlot (h : c.Tells) (host : HostRegister) {guest : Option GuestIndex}
    {dirty : Bool} (hdirty : dirty = true → guest.isSome = true) :
    (c.updateSlot host guest dirty).Tells := by
  intro slot hslot
  obtain ⟨s, hs, rfl⟩ := List.mem_map.1 hslot
  split
  · exact hdirty
  · exact h s hs

theorem Tells.unbind (h : c.Tells) (reg : GuestIndex) : (c.unbind reg).Tells := by
  unfold RegisterCache.unbind
  split
  · exact h.updateSlot _ nofun
  · exact h

theorem Tells.setImmediate (h : c.Tells) (reg : GuestIndex) (value : UInt32) :
    (c.setImmediate reg value).Tells := by
  unfold RegisterCache.setImmediate
  split
  · exact h
  · exact h.unbind reg

theorem Tells.start (c : RegisterCache) : c.start.Tells := by
  intro slot hslot
  obtain ⟨s, -, rfl⟩ := List.mem_map.1 hslot
  exact nofun

end RegisterCache

/-- Host registers that hold nothing are clean, and no code stores register zero. -/
structure Allocation.Kept (a : Allocation) : Prop where
  clean : a.cache.Tells
  code : ∀ i ∈ a.code, i.SparesZero

/-- Whatever comes of it, the operation keeps to this. -/
def Allocate.Keeping {α : Type} (x : Allocate α) : Prop :=
  ∀ a : Allocation, a.Kept → (exec x a).2.Kept

namespace Allocate.Keeping

variable {α γ : Type} {x : Allocate α}

theorem pure (r : α) : Keeping (Pure.pure r : Allocate α) :=
  fun _ ha => ha

theorem throw (e : Failure) : Keeping (MonadExcept.throw e : Allocate α) :=
  fun _ ha => ha

theorem bind {f : α → Allocate γ} (hx : Keeping x) (hf : ∀ r, Keeping (f r)) :
    Keeping (x >>= f) := by
  intro a ha
  have hb := hx a ha
  rcases hfirst : exec x a with ⟨e | r, b⟩ <;> rw [hfirst] at hb
  · rwa [exec_bind_of_error hfirst]
  · rw [exec_bind_of_ok hfirst]
    exact hf r b hb

theorem cache_bind {f : RegisterCache → Allocate α} (h : ∀ c, Keeping (f c)) :
    Keeping (cache >>= f) :=
  fun a ha => h a.cache a ha

theorem update {f : RegisterCache → RegisterCache} (h : ∀ c, c.Tells → (f c).Tells) :
    Keeping (Allocate.update f) :=
  fun a ha => ⟨h a.cache ha.clean, ha.code⟩

theorem emit {is : List HostInstruction} (h : ∀ i ∈ is, i.SparesZero) :
    Keeping (Allocate.emit is) :=
  fun _ ha => ⟨ha.clean, fun i hi => (List.mem_append.1 hi).elim (ha.code i) (h i)⟩

theorem report (event : Event) : Keeping (Allocate.report event) :=
  fun _ ha => ⟨ha.clean, ha.code⟩

/-- An instruction that writes no memory. -/
theorem emit_silent {i : HostInstruction} (h : i.target? = none) : Keeping (Allocate.emit [i]) :=
  .emit fun j hj dst hdst => by
    rw [List.mem_singleton.1 hj, h] at hdst
    cases hdst

theorem emit_store {i : HostInstruction} {reg : GuestIndex} (hreg : reg ≠ zeroRegister)
    (h : i.target? = some (Sequence.stateAddress (guestOffset reg))) :
    Keeping (Allocate.emit [i]) :=
  .emit fun j hj dst hdst => by
    rw [List.mem_singleton.1 hj, h] at hdst
    exact ⟨reg, hreg, (Option.some.inj hdst).symm⟩

theorem flushHost (host : HostRegister) : Keeping (RegisterCache.flushHost host) := by
  refine .cache_bind fun c => ?_
  split
  · next reg dirty _ =>
    have hunbind : Keeping (Allocate.update (·.unbind reg)) := .update fun c hc => hc.unbind reg
    split
    · next hstore =>
      exact .bind (.report _) fun _ => .bind (.emit_store hstore.2 rfl) fun _ => hunbind
    · exact hunbind
  · exact .pure ()

theorem flush (reg : GuestIndex) : Keeping (RegisterCache.flush reg) := by
  refine .cache_bind fun c => ?_
  split
  · exact .flushHost _
  · split
    · next hreg => exact .bind (.emit_store hreg rfl) fun _ => .update fun c hc => hc
    · exact .pure ()
  · exact .pure ()

theorem flushAll : Keeping RegisterCache.flushAll := by
  have hall (regs : List GuestIndex) : Keeping (regs.forM RegisterCache.flush) := by
    induction regs with
    | nil => exact .pure ()
    | cons reg regs ih => exact .bind (.flush reg) fun _ => ih
  exact .bind (hall _) fun _ => .update fun c hc => hc

theorem allocate : Keeping RegisterCache.allocate := by
  refine .cache_bind fun c => ?_
  split
  · exact .pure _
  · split
    · exact .bind (.flushHost _) fun _ => .pure _
    · exact .bind (.report _) fun _ => .throw _

theorem map (reg : GuestIndex) (access : Access) : Keeping (RegisterCache.map reg access) := by
  have hbind (host : HostRegister) {i : HostInstruction} (hi : i.target? = none) (dirty : Bool) :
      Keeping (if access ≠ .write then Allocate.emit [i] >>= fun _ =>
          Allocate.update (·.bindHost host reg dirty) >>= fun _ => Pure.pure host
        else Allocate.update (·.bindHost host reg dirty) >>= fun _ => Pure.pure host) := by
    have hupdate : Keeping (Allocate.update (·.bindHost host reg dirty) >>= fun _ =>
        Pure.pure host) :=
      .bind (.update fun c hc => hc.updateSlot host fun _ => rfl) fun _ => .pure host
    split
    · exact .bind (.emit_silent hi) fun _ => hupdate
    · exact hupdate
  unfold RegisterCache.map
  split
  · split
    · exact .bind (.emit_silent rfl) fun _ => .pure _
    · exact .pure _
  · refine .cache_bind fun c => ?_
    split
    · next host _ =>
      split
      · exact .bind (.update fun c hc => hc.updateSlot host fun _ => rfl) fun _ => .pure _
      · exact .pure _
    · exact .bind .allocate fun host => hbind host rfl _
    · exact .bind .allocate fun host => hbind host rfl _

theorem lock_bind {k : Allocate α} (reg : GuestIndex) (hk : Keeping k) :
    Keeping (Allocate.update (·.lock reg) >>= fun _ => k) :=
  .bind (.update fun _ hc => hc) fun _ => hk

theorem mapSources (rs rt : GuestIndex) : Keeping (RegisterCache.mapSources rs rt) :=
  .lock_bind rs <| .lock_bind rt <| .bind (.map rs .read) fun _ => .bind (.map rt .read) fun _ =>
    .pure _

theorem mapTarget (dst src : GuestIndex) : Keeping (RegisterCache.mapTarget dst src) :=
  .lock_bind dst <| .lock_bind src <| .bind (.map src .read) fun _ => .bind (.map dst _) fun _ =>
    .pure _

theorem mapTargetSources (dst rs rt : GuestIndex) :
    Keeping (RegisterCache.mapTargetSources dst rs rt) :=
  .lock_bind dst <| .bind (.mapSources rs rt) fun _ => .bind (.map dst _) fun _ => .pure _

end Allocate.Keeping

/-! ## All operations -/

namespace CacheOperation

/-- The operation brings guest registers into host registers. -/
def isMapping : CacheOperation → Bool
  | map .. | mapSources .. | mapTarget .. | mapTargetSources .. => true
  | _ => false

theorem keeping_perform (op : CacheOperation) : Keeping op.perform := by
  cases op with
  | map reg access => exact .bind (.map reg access) fun _ => .pure _
  | mapSources rs rt => exact .bind (.mapSources rs rt) fun _ => .pure _
  | mapTarget dst src => exact .bind (.mapTarget dst src) fun _ => .pure _
  | mapTargetSources dst rs rt => exact .bind (.mapTargetSources dst rs rt) fun _ => .pure _
  | flushHost host => exact .bind (.flushHost host) fun _ => .pure _
  | flush reg => exact .bind (.flush reg) fun _ => .pure _
  | flushAll => exact .bind .flushAll fun _ => .pure _
  | setImmediate reg value =>
    exact .bind (.update fun _ hc => hc.setImmediate reg value) fun _ => .pure _

/-- A mapping operation leaves locked guest registers where they are, those that it locks first
included. -/
theorem locking_perform {op : CacheOperation} (h : op.isMapping = true) : Locking op.perform := by
  cases op with
  | map reg access => exact .of_sparing (.bind (.map reg access) fun _ => .pure _)
  | mapSources rs rt => exact .bind (.mapSources rs rt) fun _ => .pure _
  | mapTarget dst src => exact .bind (.mapTarget dst src) fun _ => .pure _
  | mapTargetSources dst rs rt => exact .bind (.mapTargetSources dst rs rt) fun _ => .pure _
  | _ => cases h

theorem sound_perform (op : CacheOperation) {a : Allocation} (ha : a.cache.Sound) :
    (exec op.perform a).2.cache.Sound := by
  by_cases hop : ∃ reg value, op = setImmediate reg value
  · obtain ⟨reg, value, rfl⟩ := hop
    exact ha.setImmediate reg value
  · obtain ⟨n, hmoves, -⟩ := moves_perform ha.consistent op fun reg value heq =>
      hop ⟨reg, value, heq⟩
    exact hmoves.consistent.sound

end CacheOperation

/-! ## Histories -/

/-- Whatever can be asked of a register cache. -/
inductive CacheRequest where
  /-- Everything is in the guest state again, and nothing is stored. -/
  | start
  | lock (reg : GuestIndex)
  | release
  | operation (op : CacheOperation)
  deriving DecidableEq, Repr

namespace CacheRequest

/-- What is left of a cache at work when the request was answered, or could not be. -/
def answer (a : Allocation) : CacheRequest → Allocation
  | start => { a with cache := a.cache.start }
  | lock reg => { a with cache := a.cache.lock reg }
  | release => { a with cache := a.cache.release }
  | operation op => (exec op.perform a).2

/-- A fresh cache after some requests, with what it emitted. -/
def answers (requests : List CacheRequest) : Allocation :=
  requests.foldl answer ⟨fresh, [], []⟩

/-- What a request keeps. -/
theorem answer_keeps {a : Allocation} (ha : a.cache.Sound ∧ a.Kept) (r : CacheRequest) :
    (answer a r).cache.Sound ∧ (answer a r).Kept := by
  obtain ⟨hsound, hkept⟩ := ha
  cases r with
  | start => exact ⟨hsound.start, RegisterCache.Tells.start _, hkept.code⟩
  | lock reg => exact ⟨hsound.setLocked _, hkept.clean, hkept.code⟩
  | release => exact ⟨hsound.setLocked _, hkept.clean, hkept.code⟩
  | operation op => exact ⟨op.sound_perform hsound, op.keeping_perform a hkept⟩

/-- What every history keeps. -/
theorem answers_keep (requests : List CacheRequest) :
    (answers requests).cache.Sound ∧ (answers requests).Kept := by
  have hstart : fresh.Sound ∧ Allocation.Kept ⟨fresh, [], []⟩ :=
    ⟨sound_fresh, (by decide : ∀ slot ∈ fresh.slots, slot.dirty = true → slot.guest.isSome = true),
      nofun⟩
  have hall (a : Allocation) (ha : a.cache.Sound ∧ a.Kept) :
      (requests.foldl answer a).cache.Sound ∧ (requests.foldl answer a).Kept := by
    induction requests generalizing a with
    | nil => exact ha
    | cons r requests ih => exact ih _ (answer_keeps ha r)
  exact hall _ hstart

/-- Whatever was asked of a register cache, with or without success: guest registers in host registers
and occupied host registers correspond one to one, so that constants and registers in the guest state
own none; only occupied host registers are marked as written; register zero is the constant zero, or
in a host register that was not written; whatever was stored is the word of a register other than
zero; and if guest registers are mapped next, those that are locked by then stay where they are. -/
theorem representation_kept (requests : List CacheRequest) :
    let a := answers requests
    let c := a.cache
    ((∀ s ∈ c.slots, ∀ s' ∈ c.slots, s.host = s'.host → s = s') ∧
      ∀ reg host, c.location reg = .host host ↔
        ∃ slot ∈ c.slots, slot.host = host ∧ slot.guest = some reg) ∧
    (∀ reg, (∀ host, c.location reg ≠ .host host) → ∀ slot ∈ c.slots, slot.guest ≠ some reg) ∧
    (∀ slot ∈ c.slots, slot.dirty = true → slot.guest.isSome = true) ∧
    (c.location zeroRegister = .immediate 0 ∨
      ∃ host, c.location zeroRegister = .host host ∧ c.isDirty host = false) ∧
    (∀ i ∈ a.code, ∀ dst, i.target? = some dst →
      ∃ reg : GuestIndex, reg ≠ zeroRegister ∧ dst = Sequence.stateAddress (guestOffset reg)) ∧
    ∀ op : CacheOperation, op.isMapping = true → ∀ reg host,
      (exec op.perform a).2.cache.locked.get reg = true → c.location reg = .host host →
        (exec op.perform a).2.cache.location reg = .host host := by
  obtain ⟨hsound, hkept⟩ := answers_keep requests
  refine ⟨⟨fun s hs s' hs' => hsound.eq_of_host_eq hs hs', fun reg host => ?_⟩,
    fun reg => hsound.not_held, hkept.clean, ?_, hkept.code, fun op hop reg host hlocked hplace => ?_⟩
  · rw [hsound.resident]
    constructor
    · rintro ⟨dirty, hheld⟩
      exact ⟨_, hheld, rfl, rfl⟩
    · rintro ⟨⟨_, _, dirty⟩, hslot, rfl, rfl⟩
      exact ⟨dirty, hslot⟩
  · refine hsound.zero.imp_right fun ⟨host, hheld⟩ => ?_
    refine ⟨host, (hsound.resident _ host).2 ⟨false, hheld⟩, ?_⟩
    rw [isDirty, show (answers requests).cache.slot? host = _ from hsound.slot?_eq_some hheld]
    rfl
  · obtain ⟨-, locked, hspares⟩ := op.locking_perform hop (answers requests) hsound
    exact hspares.stays reg host (hspares.locked ▸ hlocked) hplace

end CacheRequest

end Recompiler
