import Mathlib.Data.List.Perm.Subperm
import Recompiler.Proofs.Block.Registers
import Recompiler.Proofs.Host.Sequence

/-!
# Bringing guest registers into host registers

Whatever an operation does to the register cache, the instructions it emits do the same to the
machine, and no guest register loses its value. Locked guest registers stay where they are.

* `Allocate.exec`: the outcome of an operation and what it leaves behind.
* `Allocation.Moves`: what was emitted brings the machine along.
* `RegisterCache.stores_flushHost`, `RegisterCache.stores_flush`, `RegisterCache.stores_flushAll`:
  storing.
* `RegisterCache.moves_allocate`, `RegisterCache.maps`: freeing a host register and mapping.
* `RegisterCache.map_ok`: mapping succeeds while three registers at most are locked.
-/

namespace Recompiler

/-! ## Running operations -/

namespace Allocate

variable {α γ : Type}

/-- The outcome of an operation and what it leaves behind. -/
def exec (x : Allocate α) (a : Allocation) : Except Failure α × Allocation :=
  x.run.run a

@[simp] theorem exec_pure (r : α) (a : Allocation) : exec (pure r) a = (.ok r, a) := rfl

@[simp] theorem exec_throw (e : Failure) (a : Allocation) :
    exec (throw e : Allocate α) a = (.error e, a) := rfl

@[simp] theorem exec_cache_bind (k : RegisterCache → Allocate α) (a : Allocation) :
    exec (cache >>= k) a = exec (k a.cache) a := rfl

@[simp] theorem exec_update (f : RegisterCache → RegisterCache) (a : Allocation) :
    exec (update f) a = (.ok (), { a with cache := f a.cache }) := rfl

@[simp] theorem exec_emit (is : List HostInstruction) (a : Allocation) :
    exec (emit is) a = (.ok (), { a with code := a.code ++ is }) := rfl

@[simp] theorem exec_report (event : Event) (a : Allocation) :
    exec (report event) a = (.ok (), { a with events := a.events ++ [event] }) := rfl

/-- Operations run one after the other until one fails. -/
theorem exec_bind (x : Allocate α) (f : α → Allocate γ) (a : Allocation) :
    exec (x >>= f) a =
      match exec x a with
      | (.ok r, a) => exec (f r) a
      | (.error e, a) => (.error e, a) := by
  unfold exec
  rw [ExceptT.run_bind, StateT.run_bind]
  generalize x.run.run a = ran
  obtain ⟨_ | r, b⟩ := ran <;> rfl

/-- Operations run one after the other, when the first succeeds. -/
theorem exec_bind_of_ok {x : Allocate α} {f : α → Allocate γ} {a b : Allocation} {r : α}
    (h : exec x a = (.ok r, b)) : exec (x >>= f) a = exec (f r) b := by
  rw [exec_bind, h]

theorem exec_bind_of_error {x : Allocate α} {f : α → Allocate γ} {a b : Allocation} {e : Failure}
    (h : exec x a = (.error e, b)) : exec (x >>= f) a = (.error e, b) := by
  rw [exec_bind, h]

end Allocate

/-! ## Code that moves guest registers -/

/-- The guest registers that lose their values when one is mapped. Register zero is on the list when
the scratch register takes what is written to it. -/
def Access.lost (access : Access) (reg : GuestIndex) : List GuestIndex :=
  if access = .write ∨ reg = zeroRegister ∧ access.writes = true then [reg] else []

@[simp] theorem Access.lost_read (reg : GuestIndex) : Access.read.lost reg = [] := by
  simp [lost, writes]

/-- Nothing but registers that hold guest registers and the words of guest registers has changed,
and the scratch register if register zero is lost. -/
structure HostMachine.Transfers {β : Type} (lost : List GuestIndex) (m n : HostMachine β) :
    Prop where
  flags : n.flags = m.flags
  stack : n.stack = m.stack
  bus : n.env.bus = m.env.bus
  events : n.env.events = m.env.events
  words : ∀ slot, 32 ≤ slot → n.env.state.get slot = m.env.state.get slot
  registers : ∀ r : HostRegister, r.Valid → r ∉ HostRegister.allocationOrder →
    (r = .scratch → zeroRegister ∉ lost) → n.get r = m.get r

namespace HostMachine.Transfers

variable {β : Type} {m n p : HostMachine β} {lost lost' : List GuestIndex}

theorem refl (m : HostMachine β) : m.Transfers lost m :=
  ⟨rfl, rfl, rfl, rfl, fun _ _ => rfl, fun _ _ _ _ => rfl⟩

theorem trans (h : m.Transfers lost n) (h' : n.Transfers lost' p) :
    m.Transfers (lost ++ lost') p where
  flags := h'.flags.trans h.flags
  stack := h'.stack.trans h.stack
  bus := h'.bus.trans h.bus
  events := h'.events.trans h.events
  words slot hslot := (h'.words slot hslot).trans (h.words slot hslot)
  registers r hr hnot hscratch :=
    (h'.registers r hr hnot fun heq hmem => hscratch heq (List.mem_append_right _ hmem)).trans
      (h.registers r hr hnot fun heq hmem => hscratch heq (List.mem_append_left _ hmem))

theorem mono (h : m.Transfers lost n) (hsub : lost ⊆ lost') : m.Transfers lost' n :=
  ⟨h.flags, h.stack, h.bus, h.events, h.words, fun r hr hnot hscratch =>
    h.registers r hr hnot fun heq hmem => hscratch heq (hsub hmem)⟩

theorem setWord {host : HostRegister} (hhost : host ∈ HostRegister.allocationOrder)
    (m : HostMachine β) (v : UInt32) : m.Transfers lost (m.setWord host v) := by
  refine ⟨rfl, rfl, rfl, rfl, fun _ _ => rfl, fun r hr hnot _ =>
    m.get_setWord_of_ne (HostRegister.valid_of_mem_allocationOrder hhost) hr ?_ v⟩
  rintro rfl
  exact hnot hhost

theorem setScratch (hlost : zeroRegister ∈ lost) (m : HostMachine β) (v : UInt32) :
    m.Transfers lost (m.setWord .scratch v) := by
  refine ⟨rfl, rfl, rfl, rfl, fun _ _ => rfl, fun r hr _ hscratch =>
    m.get_setWord_of_ne (by decide) hr ?_ v⟩
  rintro rfl
  exact hscratch rfl hlost

theorem setSlot (reg : GuestIndex) (m : HostMachine β) (v : UInt32) :
    m.Transfers lost (m.setSlot reg v) :=
  ⟨rfl, rfl, rfl, rfl, fun slot hslot => State.get_set_of_ne _ (by omega) v, fun _ _ _ _ => rfl⟩

theorem frame (h : m.Transfers lost n) : n.frame = m.frame := by
  have hkept (r : HostRegister) (hr : r.Valid)
      (hnot : r ∉ HostRegister.scratch :: HostRegister.allocationOrder) :
      n.get r = m.get r := by
    simp only [List.mem_cons, not_or] at hnot
    exact h.registers r hr hnot.2 fun heq => absurd heq hnot.1
  rw [HostMachine.frame, HostMachine.frame, h.stack, hkept _ (by decide) (by decide),
    hkept .memoryBase (by decide) (by decide), hkept .rsp (by decide) (by decide)]

end HostMachine.Transfers

/-- What was emitted from one point to another brings the machine along: the cache stays consistent
with it, and guest registers keep their values, apart from those on the list. -/
structure Allocation.Moves {β : Type} [Bus β] (lost : List GuestIndex) (a : Allocation)
    (m : HostMachine β) (b : Allocation) (n : HostMachine β) : Prop where
  code : ∃ is, b.code = a.code ++ is ∧ HostMachine.Runs is m n
  consistent : b.cache.Consistent n
  value : ∀ reg, reg ∉ lost → b.cache.value n reg = a.cache.value m reg
  transfers : m.Transfers lost n

namespace Allocation.Moves

variable {β : Type} [Bus β] {lost lost' : List GuestIndex} {a b c : Allocation}
  {m n p : HostMachine β}

theorem refl (h : a.cache.Consistent m) : a.Moves lost m a m :=
  ⟨⟨[], (List.append_nil _).symm, rfl⟩, h, fun _ _ => rfl, .refl m⟩

theorem trans (h : a.Moves lost m b n) (h' : b.Moves lost' n c p) :
    a.Moves (lost ++ lost') m c p := by
  obtain ⟨is, hcode, hruns⟩ := h.code
  obtain ⟨js, hcode', hruns'⟩ := h'.code
  refine ⟨⟨is ++ js, by rw [hcode', hcode, List.append_assoc], hruns.append hruns'⟩, h'.consistent,
    fun reg hreg => ?_, h.transfers.trans h'.transfers⟩
  simp only [List.mem_append, not_or] at hreg
  exact (h'.value reg hreg.2).trans (h.value reg hreg.1)

theorem mono (h : a.Moves lost m b n) (hsub : lost ⊆ lost') : a.Moves lost' m b n :=
  ⟨h.code, h.consistent, fun reg hreg => h.value reg fun hmem => hreg (hsub hmem),
    h.transfers.mono hsub⟩

/-- Register zero keeps its value in any case. -/
theorem value_of_zero (h : a.Moves lost m b n) (hm : a.cache.Consistent m) {reg : GuestIndex}
    (hreg : reg ∈ lost → reg = zeroRegister) : b.cache.value n reg = a.cache.value m reg := by
  by_cases hmem : reg ∈ lost
  · rw [hreg hmem, h.consistent.value_zero, hm.value_zero]
  · exact h.value reg hmem

end Allocation.Moves

namespace RegisterCache

open Allocate HostMachine

/-- Locked guest registers stay in their host registers, and locks stay as they are. -/
structure Spares (c d : RegisterCache) : Prop where
  locked : d.locked = c.locked
  stays : ∀ reg host, c.locked.get reg = true → c.location reg = .host host →
    d.location reg = .host host

namespace Spares

variable {c d e : RegisterCache}

theorem refl (c : RegisterCache) : c.Spares c :=
  ⟨rfl, fun _ _ _ h => h⟩

theorem trans (h : c.Spares d) (h' : d.Spares e) : c.Spares e :=
  ⟨h'.locked.trans h.locked, fun reg host hlocked hplace =>
    h'.stays reg host (h.locked ▸ hlocked) (h.stays reg host hlocked hplace)⟩

end Spares

variable {β : Type} [Bus β] {a : Allocation} {m : HostMachine β} {reg : GuestIndex}
  {host : HostRegister} {dirty : Bool} {access : Access}

/-! ### Flushing -/

theorem exec_flushHost_of_free (hfree : ∀ reg dirty, ¬ a.cache.Held host reg dirty) :
    exec (flushHost host) a = (.ok (), a) := by
  unfold flushHost
  rw [exec_cache_bind]
  split
  · next q reg dirty hslot =>
    have hmem := List.mem_of_find?_eq_some hslot
    have hhost : q = host := by simpa using List.find?_some hslot
    exact absurd (hhost ▸ hmem) (hfree reg dirty)
  · rfl

theorem exec_flushHost_of_held (h : a.cache.Paired) (hheld : a.cache.Held host reg dirty) :
    exec (flushHost host) a = (.ok (),
      { cache := a.cache.unbind reg
        code := a.code ++ if dirty ∧ reg ≠ zeroRegister then
          Sequence.storeState (guestOffset reg) host else []
        events := a.events ++ if dirty ∧ reg ≠ zeroRegister then [.writeBack reg host] else [] }) := by
  unfold flushHost
  rw [exec_cache_bind, show a.cache.slot? host = some ⟨host, some reg, dirty⟩ from h.slot?_eq_some hheld]
  dsimp only
  split
  · rfl
  · simp

theorem exec_flush_of_host (hplace : a.cache.location reg = .host host) :
    exec (flush reg) a = exec (flushHost host) a := by
  unfold flush
  rw [exec_cache_bind, hplace]

theorem exec_flush_of_memory (hplace : a.cache.location reg = .memory) :
    exec (flush reg) a = (.ok (), a) := by
  unfold flush
  rw [exec_cache_bind, hplace]
  rfl

theorem exec_flush_of_zero {v : UInt32} (hplace : a.cache.location zeroRegister = .immediate v) :
    exec (flush zeroRegister) a = (.ok (), a) := by
  unfold flush
  rw [exec_cache_bind, hplace]
  rfl

theorem exec_flush_of_immediate {v : UInt32} (hplace : a.cache.location reg = .immediate v)
    (hreg : reg ≠ zeroRegister) :
    exec (flush reg) a = (.ok (),
      { a with
        cache := a.cache.setLocation reg .memory
        code := a.code ++ Sequence.storeStateImmediate (guestOffset reg) v }) := by
  unfold flush
  rw [exec_cache_bind, hplace]
  simp only [ne_eq, hreg, not_false_eq_true, if_true]
  rfl

/-- Storing a host register keeps all values, and changes no host register. -/
theorem stores_flushHost (h : a.cache.Consistent m) (host : HostRegister) :
    ∃ n, (exec (flushHost host) a).1 = .ok () ∧ a.Moves [] m (exec (flushHost host) a).2 n ∧
      n.registers = m.registers := by
  by_cases hoccupied : ∃ reg dirty, a.cache.Held host reg dirty
  · obtain ⟨reg, dirty, hheld⟩ := hoccupied
    have hplace := (h.resident reg host).2 ⟨dirty, hheld⟩
    rw [exec_flushHost_of_held h.toPaired hheld]
    by_cases hdirty : dirty = true
    · subst hdirty
      have hreg := h.ne_zero_of_dirty hheld
      -- The guest register is in this host register only, so no clean copy disagrees with the
      -- store.
      have hclean (q : HostRegister) : ¬ a.cache.Held q reg false := by
        intro hq
        have hplace' := (h.resident reg q).2 ⟨false, hq⟩
        rw [hplace] at hplace'
        cases hplace'
        cases (h.held_unique hheld hq).2
      obtain ⟨hstored, hvalues⟩ := h.setSlot hreg (by simp [hplace]) hclean (m.getWord host)
      obtain ⟨hfreed, hvalues'⟩ := hstored.unbind hplace
      have hword : (m.setSlot reg (m.getWord host)).env.state.get reg = a.cache.value m reg := by
        rw [value_of_host hplace]
        exact State.get_set_self _ (Nat.lt_trans reg.isLt (by decide)) _
      refine ⟨m.setSlot reg (m.getWord host), rfl, ⟨⟨_, rfl, ?_⟩, hfreed, fun r _ => ?_,
        .setSlot reg m _⟩, rfl⟩
      · rw [if_pos ⟨rfl, hreg⟩]
        exact Sequence.runs_storeState (h.toPaired.valid hheld) h.context
          (Nat.lt_trans reg.isLt (by decide))
      · rw [hvalues', hword, hvalues]
        split
        · next hr => rw [hr]
        · rfl
    · obtain rfl : dirty = false := by simpa using hdirty
      obtain ⟨hfreed, hvalues⟩ := h.unbind hplace
      refine ⟨m, rfl, ⟨⟨[], by simp, rfl⟩, hfreed, fun r _ => ?_, .refl m⟩, rfl⟩
      rw [hvalues]
      split
      · next hr => rw [hr, value_of_host hplace, h.clean host reg hheld]
      · rfl
  · simp only [not_exists] at hoccupied
    rw [exec_flushHost_of_free hoccupied]
    exact ⟨m, rfl, .refl h, rfl⟩

/-- Storing a guest register keeps all values, and changes no host register. -/
theorem stores_flush (h : a.cache.Consistent m) (reg : GuestIndex) :
    ∃ n, (exec (flush reg) a).1 = .ok () ∧ a.Moves [] m (exec (flush reg) a).2 n ∧
      n.registers = m.registers := by
  cases hplace : a.cache.location reg with
  | host host =>
    rw [exec_flush_of_host hplace]
    exact stores_flushHost h host
  | memory =>
    rw [exec_flush_of_memory hplace]
    exact ⟨m, rfl, .refl h, rfl⟩
  | immediate v =>
    by_cases hreg : reg = zeroRegister
    · subst hreg
      rw [exec_flush_of_zero hplace]
      exact ⟨m, rfl, .refl h, rfl⟩
    -- A constant is in no host register, so storing it touches its own word alone.
    · have hnowhere (q : HostRegister) : a.cache.location reg ≠ .host q := by simp [hplace]
      have hclean (q : HostRegister) : ¬ a.cache.Held q reg false := fun hheld =>
        hnowhere q ((h.resident reg q).2 ⟨false, hheld⟩)
      obtain ⟨hstored, hvalues⟩ := h.setSlot hreg (by simp [hplace]) hclean v
      obtain ⟨hresult, hothers⟩ := hstored.setLocation hnowhere .memory (by simp) hreg
      rw [exec_flush_of_immediate hplace hreg]
      refine ⟨m.setSlot reg v, rfl, ⟨⟨_, rfl, ?_⟩, hresult, fun r _ => ?_, .setSlot reg m v⟩, rfl⟩
      · exact Sequence.runs_storeStateImmediate h.context (Nat.lt_trans reg.isLt (by decide)) v
      · by_cases hr : r = reg
        · have hplace' : (a.cache.setLocation reg .memory).location reg = .memory := by
            rw [location_setLocation, if_pos rfl]
          rw [hr, value_of_memory hplace', value_of_immediate hplace]
          exact State.get_set_self _ (Nat.lt_trans reg.isLt (by decide)) v
        · exact (hothers r hr).trans (hvalues r)

theorem stores_flushes (h : a.cache.Consistent m) (regs : List GuestIndex) :
    ∃ n, (exec (regs.forM flush) a).1 = .ok () ∧ a.Moves [] m (exec (regs.forM flush) a).2 n ∧
      n.registers = m.registers := by
  induction regs generalizing a m with
  | nil => exact ⟨m, rfl, .refl h, rfl⟩
  | cons reg regs ih =>
    obtain ⟨n, hok, hmoves, hregisters⟩ := stores_flush h reg
    obtain ⟨p, hok', hmoves', hregisters'⟩ := ih hmoves.consistent
    have hexec : exec ((reg :: regs).forM flush) a = exec (regs.forM flush) (exec (flush reg) a).2 :=
      exec_bind_of_ok (Prod.ext hok rfl)
    rw [hexec]
    exact ⟨p, hok', hmoves.trans hmoves', hregisters'.trans hregisters⟩

/-- Storing everything keeps all values, and changes no host register. -/
theorem stores_flushAll (h : a.cache.Consistent m) :
    ∃ n, (exec flushAll a).1 = .ok () ∧ a.Moves [] m (exec flushAll a).2 n ∧
      n.registers = m.registers := by
  obtain ⟨n, hok, hmoves, hregisters⟩ := stores_flushes h (List.finRange 32)
  have hexec : exec flushAll a =
      exec (update release) (exec ((List.finRange 32).forM flush) a).2 :=
    exec_bind_of_ok (Prod.ext hok rfl)
  have hc := hmoves.consistent
  rw [hexec]
  exact ⟨n, rfl, ⟨hmoves.code,
    ⟨⟨hc.hosts, hc.resident⟩, hc.clean, hc.zeroWord, hc.zero, hc.context⟩,
    hmoves.value, hmoves.transfers⟩, hregisters⟩

theorem moves_flushHost (h : a.cache.Consistent m) (host : HostRegister) :
    ∃ n, (exec (flushHost host) a).1 = .ok () ∧ a.Moves [] m (exec (flushHost host) a).2 n := by
  obtain ⟨n, hok, hmoves, -⟩ := stores_flushHost h host
  exact ⟨n, hok, hmoves⟩

theorem moves_flush (h : a.cache.Consistent m) (reg : GuestIndex) :
    ∃ n, (exec (flush reg) a).1 = .ok () ∧ a.Moves [] m (exec (flush reg) a).2 n := by
  obtain ⟨n, hok, hmoves, -⟩ := stores_flush h reg
  exact ⟨n, hok, hmoves⟩

theorem moves_flushes (h : a.cache.Consistent m) (regs : List GuestIndex) :
    ∃ n, (exec (regs.forM flush) a).1 = .ok () ∧ a.Moves [] m (exec (regs.forM flush) a).2 n := by
  obtain ⟨n, hok, hmoves, -⟩ := stores_flushes h regs
  exact ⟨n, hok, hmoves⟩

theorem moves_flushAll (h : a.cache.Consistent m) :
    ∃ n, (exec flushAll a).1 = .ok () ∧ a.Moves [] m (exec flushAll a).2 n := by
  obtain ⟨n, hok, hmoves, -⟩ := stores_flushAll h
  exact ⟨n, hok, hmoves⟩

/-! ### Mapping -/

theorem free_unbind {c : RegisterCache} (hheld : c.Held host reg dirty)
    (hlocation : c.location reg = .host host) :
    ⟨host, none, false⟩ ∈ (c.unbind reg).slots := by
  rw [unbind, hlocation]
  exact List.mem_map.2 ⟨_, hheld, if_pos rfl⟩

theorem exec_allocate_of_free {slot : HostSlot}
    (hfind : a.cache.slots.find? (·.guest.isNone) = some slot) :
    exec allocate a = (.ok slot.host, a) := by
  unfold allocate
  rw [exec_cache_bind, hfind]
  rfl

theorem exec_allocate_of_victim {slot : HostSlot}
    (hnone : a.cache.slots.find? (·.guest.isNone) = none)
    (hfind : a.cache.slots.find? (fun slot => slot.guest.any fun reg => !a.cache.locked.get reg) =
      some slot) :
    exec allocate a = exec (flushHost slot.host >>= fun _ => pure slot.host) a := by
  have hvictim : a.cache.slots.find? (fun slot => slot.guest.any fun reg => !a.cache.locked[reg]) =
    some slot := hfind
  unfold allocate
  rw [exec_cache_bind, hnone]
  dsimp only
  rw [hvictim]

theorem exec_allocate_of_locked
    (hnone : a.cache.slots.find? (·.guest.isNone) = none)
    (hfind : a.cache.slots.find? (fun slot => slot.guest.any fun reg => !a.cache.locked.get reg) =
      none) :
    ∃ e b, exec allocate a = (.error e, b) ∧ b.cache = a.cache ∧ b.code = a.code := by
  have hvictim : a.cache.slots.find? (fun slot => slot.guest.any fun reg => !a.cache.locked[reg]) =
    none := hfind
  unfold allocate
  rw [exec_cache_bind, hnone]
  dsimp only
  rw [hvictim]
  exact ⟨_, _, rfl, rfl, rfl⟩

/-- Freeing a host register keeps all values, and locked guest registers stay. -/
theorem moves_allocate (h : a.cache.Consistent m) :
    ∃ n, a.Moves [] m (exec allocate a).2 n ∧ a.cache.Spares (exec allocate a).2.cache ∧
      (∀ r, (∀ q, a.cache.location r ≠ .host q) →
        (exec allocate a).2.cache.location r = a.cache.location r) ∧
      ∀ host, (exec allocate a).1 = .ok host →
        ∃ d, ⟨host, none, d⟩ ∈ (exec allocate a).2.cache.slots := by
  cases hfree : a.cache.slots.find? (·.guest.isNone) with
  | some slot =>
    obtain ⟨host, guest, dirty⟩ := slot
    have hnone : guest = none := by simpa using List.find?_some hfree
    rw [exec_allocate_of_free hfree]
    refine ⟨m, .refl h, .refl _, fun _ _ => rfl, fun q hq => ⟨dirty, ?_⟩⟩
    cases hq
    exact hnone ▸ List.mem_of_find?_eq_some hfree
  | none =>
    cases hvictim : a.cache.slots.find? (fun slot => slot.guest.any fun reg =>
        !a.cache.locked.get reg) with
    | some slot =>
      obtain ⟨host, guest, dirty⟩ := slot
      obtain ⟨reg, rfl, hunlocked⟩ : ∃ reg, guest = some reg ∧ a.cache.locked.get reg = false := by
        have hany := List.find?_some hvictim
        cases guest with
        | none => cases hany
        | some reg => exact ⟨reg, rfl, by simpa using hany⟩
      have hheld : a.cache.Held host reg dirty := List.mem_of_find?_eq_some hvictim
      -- Nothing is free, so a guest register that is not locked is stored and makes room.
      have hplace := (h.resident reg host).2 ⟨dirty, hheld⟩
      obtain ⟨n, hok, hmoves⟩ := moves_flushHost h host
      have hexec : exec allocate a = (.ok host, (exec (flushHost host) a).2) :=
        (exec_allocate_of_victim hfree hvictim).trans (exec_bind_of_ok (Prod.ext hok rfl))
      have hcache : (exec (flushHost host) a).2.cache = a.cache.unbind reg := by
        rw [exec_flushHost_of_held h.toPaired hheld]
      have hplaces := (h.toPaired.unbind hplace).2.1
      rw [hexec]
      refine ⟨n, hmoves, ⟨?_, fun r q hlocked hr => ?_⟩, fun r hr => ?_, fun q hq => ?_⟩
      · rw [hcache, unbind, hplace]
        rfl
      · rw [hcache, hplaces, if_neg, hr]
        rintro rfl
        rw [hunlocked] at hlocked
        cases hlocked
      · rw [hcache, hplaces, if_neg]
        rintro rfl
        exact hr host hplace
      · cases hq
        exact ⟨false, hcache ▸ free_unbind hheld hplace⟩
    | none =>
      obtain ⟨e, b, hexec, hcache, hcode⟩ := exec_allocate_of_locked hfree hvictim
      rw [hexec]
      refine ⟨m, ⟨⟨[], by rw [hcode, List.append_nil], rfl⟩, hcache ▸ h, fun _ _ => by rw [hcache],
        .refl m⟩, hcache ▸ .refl _, fun _ _ => by rw [hcache], fun _ hq => by cases hq⟩

/-- The instructions that bring the value of a guest register into a host register. -/
def fetch (c : RegisterCache) (reg : GuestIndex) (host : HostRegister) : List HostInstruction :=
  match c.location reg with
  | .immediate value => Sequence.moveImmediate host value
  | _ => Sequence.loadState host (guestOffset reg)

/-- A guest register that is brought into a host register has to be stored sooner or later. -/
def bindsDirty (c : RegisterCache) (reg : GuestIndex) (access : Access) : Bool :=
  match c.location reg with
  | .immediate _ => reg ≠ zeroRegister
  | _ => access.writes

theorem exec_map_zero (haccess : access.writes = true) :
    exec (map zeroRegister access) a = (.ok .scratch,
      { a with
        code := a.code ++
          if access = .readWrite then Sequence.moveImmediate .scratch 0 else [] }) := by
  cases access with
  | read => cases haccess
  | readWrite => rfl
  | write =>
    rw [if_neg (by decide), List.append_nil]
    rfl

theorem exec_map_of_host (hzero : ¬ (reg = zeroRegister ∧ access.writes = true))
    (hplace : a.cache.location reg = .host host) :
    exec (map reg access) a = (.ok host,
      { a with
        cache := if access.writes then a.cache.updateSlot host (some reg) true
          else a.cache }) := by
  unfold map
  rw [if_neg hzero, exec_cache_bind, hplace]
  cases access <;> rfl

theorem exec_map_of_nowhere (hzero : ¬ (reg = zeroRegister ∧ access.writes = true))
    (hnowhere : ∀ q, a.cache.location reg ≠ .host q) :
    exec (map reg access) a =
      exec (allocate >>= fun host => do
        emit (if access = .write then [] else a.cache.fetch reg host)
        update (·.bindHost host reg (a.cache.bindsDirty reg access))
        return host) a := by
  unfold map fetch bindsDirty
  rw [if_neg hzero, exec_cache_bind]
  cases hplace : a.cache.location reg with
  | host q => exact absurd hplace (hnowhere q)
  | _ =>
    rw [exec_bind, exec_bind]
    rcases exec allocate a with ⟨_ | host, b⟩
    · rfl
    · cases access <;> simp [exec_bind]

/-- What a mapped register is good for: the host register holds the value unless the access is
`Access.write`, and it is the place of the guest register unless what is written is lost. -/
structure Mapped (c : RegisterCache) (m : HostMachine β) (reg : GuestIndex) (access : Access)
    (value : UInt32) (host : HostRegister) : Prop where
  value : access ≠ .write → m.getWord host = value
  place : (reg = zeroRegister ∧ access.writes = true ∧ host = .scratch) ∨
    c.location reg = .host host
  dirty : reg ≠ zeroRegister → access.writes = true → c.Held host reg true

/-- Fetching brings the value of a guest register into a free host register. -/
theorem runs_fetch {c : RegisterCache} {n : HostMachine β} (h : c.Consistent n)
    (hhost : host ∈ HostRegister.allocationOrder) (hnowhere : ∀ q, c.location reg ≠ .host q) :
    Runs (c.fetch reg host) n (n.setWord host (c.value n reg)) := by
  have hvalid := HostRegister.valid_of_mem_allocationOrder hhost
  unfold fetch value
  cases hplace : c.location reg with
  | host q => exact absurd hplace (hnowhere q)
  | immediate v => exact .one hvalid rfl
  | memory => exact Sequence.runs_loadState hvalid h.context (Nat.lt_trans reg.isLt (by decide))

theorem bindsDirty_zero {c : RegisterCache} (hzero : ¬ (reg = zeroRegister ∧ access.writes = true))
    (hreg : reg = zeroRegister) : c.bindsDirty reg access = false := by
  have haccess : access.writes = false := by simpa [hreg] using hzero
  unfold bindsDirty
  split
  · simp [hreg]
  · exact haccess

/-- A register that is not going to be stored was not going to be written. -/
theorem ne_write_of_bindsDirty {c : RegisterCache}
    (hzero : ¬ (reg = zeroRegister ∧ access.writes = true))
    (hdirty : c.bindsDirty reg access = false) : access.writes = false := by
  unfold bindsDirty at hdirty
  split at hdirty
  · have hreg : reg = zeroRegister := by simpa using hdirty
    simpa [hreg] using hzero
  · exact hdirty

omit [Bus β] in
/-- A register that is not going to be stored has the value of its state word. -/
theorem value_of_bindsDirty {c : RegisterCache} (h : c.Consistent m)
    (hnowhere : ∀ q, c.location reg ≠ .host q) (hdirty : c.bindsDirty reg access = false) :
    c.value m reg = m.env.state.get reg := by
  cases hplace : c.location reg with
  | host q => exact absurd hplace (hnowhere q)
  | memory => exact value_of_memory hplace
  | immediate v =>
    have hreg : reg = zeroRegister := by
      simpa [bindsDirty, hplace] using hdirty
    rw [hreg, h.value_zero]
    exact h.zeroWord.symm

/-- Binding a free host register to a guest register after fetching its value. -/
theorem moves_bind (reg : GuestIndex) (access : Access) (h : a.cache.Consistent m) {d : Bool}
    (hfree : ⟨host, none, d⟩ ∈ a.cache.slots)
    (hzero : ¬ (reg = zeroRegister ∧ access.writes = true))
    (hnowhere : ∀ q, a.cache.location reg ≠ .host q) :
    ∃ n, a.Moves (access.lost reg) m
        { a with
          cache := a.cache.bindHost host reg (a.cache.bindsDirty reg access)
          code := a.code ++ if access = .write then [] else a.cache.fetch reg host } n ∧
      (a.cache.bindHost host reg (a.cache.bindsDirty reg access)).Mapped n reg access
        (a.cache.value m reg) host := by
  have hhost : host ∈ HostRegister.allocationOrder := h.mem_allocationOrder hfree
  have hvalid := HostRegister.valid_of_mem_allocationOrder hhost
  have hcontext : host ≠ .context :=
    (by decide : ∀ r ∈ HostRegister.allocationOrder, r ≠ .context) host hhost
  obtain ⟨n, hruns, hconsistent, hvalues, hword, htransfers⟩ : ∃ n,
      Runs (if access = .write then [] else a.cache.fetch reg host) m n ∧
      a.cache.Consistent n ∧ (∀ r, a.cache.value n r = a.cache.value m r) ∧
      (access ≠ .write → n.getWord host = a.cache.value m reg) ∧
      m.Transfers (access.lost reg) n := by
    -- A register that is only written need not be fetched.
    by_cases haccess : access = .write
    · rw [if_pos haccess]
      exact ⟨m, rfl, h, fun _ => rfl, fun hne => absurd haccess hne, .refl m⟩
    · rw [if_neg haccess]
      obtain ⟨hconsistent, hvalues⟩ := h.setWord_free hvalid hcontext
        (fun r d => h.not_held_of_free hfree d) (a.cache.value m reg)
      exact ⟨_, runs_fetch h hhost hnowhere, hconsistent, hvalues,
        fun _ => m.getWord_setWord_self host _, .setWord hhost m _⟩
  have hclean : a.cache.bindsDirty reg access = false →
      n.getWord host = n.env.state.get reg := by
    intro hdirty
    have hreads := ne_write_of_bindsDirty hzero hdirty
    rw [hword (by rintro rfl; cases hreads), ← hvalues]
    exact value_of_bindsDirty hconsistent hnowhere hdirty
  -- A clean host register has the value that the guest state has.
  obtain ⟨hresult, hvalues'⟩ := hconsistent.bindHost hfree hnowhere hclean (bindsDirty_zero hzero)
  obtain ⟨-, hplaces, hslots⟩ := h.toPaired.bindHost hfree hnowhere (a.cache.bindsDirty reg access)
  refine ⟨n, ⟨⟨_, rfl, hruns⟩, hresult, fun r hr => ?_, htransfers⟩, hword, .inr ?_,
    fun _ hwrites => ?_⟩
  · rw [hvalues', ← hvalues r]
    split
    · next heq =>
      have haccess : access ≠ .write := by
        rintro rfl
        exact hr (by simp [Access.lost, heq])
      rw [hword haccess, heq, hvalues]
    · rfl
  · rw [hplaces, if_pos rfl]
  · refine (hslots host reg true).2 (.inr ⟨rfl, rfl, ?_⟩)
    cases hdirty : a.cache.bindsDirty reg access with
    | true => rfl
    | false => exact absurd (ne_write_of_bindsDirty hzero hdirty) (by simp [hwrites])

theorem spares_bindHost {c : RegisterCache} (hnowhere : ∀ q, c.location reg ≠ .host q) :
    c.Spares (c.bindHost host reg dirty) := by
  refine ⟨rfl, fun r q _ hplace => ?_⟩
  rw [bindHost, location_setLocation, if_neg, location_updateSlot, hplace]
  rintro rfl
  exact hnowhere q hplace

/-- What mapping a guest register comes to: all values are kept but that of a register that is to be
overwritten, locked guest registers stay where they are, and on success the host register is what
was asked for. -/
def Maps (a : Allocation) (m : HostMachine β) (reg : GuestIndex) (access : Access)
    (result : Except Failure HostRegister × Allocation) : Prop :=
  ∃ n, a.Moves (access.lost reg) m result.2 n ∧
    a.cache.Spares result.2.cache ∧
    ∀ host, result.1 = .ok host →
      result.2.cache.Mapped n reg access (a.cache.value m reg) host

theorem maps_zero (h : a.cache.Consistent m) (haccess : access.writes = true) :
    Maps a m zeroRegister access (exec (map zeroRegister access) a) := by
  rw [exec_map_zero haccess]
  by_cases hread : access = .readWrite
  · subst hread
    have hfree (r : GuestIndex) (d : Bool) : ¬ a.cache.Held .scratch r d := fun hheld =>
      (by decide : HostRegister.scratch ∉ HostRegister.allocationOrder)
        (h.mem_allocationOrder hheld)
    obtain ⟨hconsistent, hvalues⟩ := h.setWord_free (by decide) (by decide) hfree 0
    refine ⟨m.setWord .scratch 0, ⟨⟨_, rfl, .one (by decide) rfl⟩, hconsistent,
      fun r _ => hvalues r, .setScratch (by decide) m 0⟩, .refl _, fun host hok => ?_⟩
    cases hok
    exact ⟨fun _ => (m.getWord_setWord_self _ 0).trans h.value_zero.symm, .inl ⟨rfl, rfl, rfl⟩,
      fun hne => absurd rfl hne⟩
  · obtain rfl : access = .write := by
      cases access <;> first | rfl | contradiction
    refine ⟨m, ⟨⟨[], rfl, rfl⟩, h, fun _ _ => rfl, .refl m⟩, .refl _, fun host hok => ?_⟩
    cases hok
    exact ⟨fun hne => absurd rfl hne, .inl ⟨rfl, rfl, rfl⟩, fun hne => absurd rfl hne⟩

theorem maps_of_host (h : a.cache.Consistent m)
    (hzero : ¬ (reg = zeroRegister ∧ access.writes = true))
    (hplace : a.cache.location reg = .host host) :
    Maps a m reg access (exec (map reg access) a) := by
  rw [exec_map_of_host hzero hplace]
  by_cases haccess : access.writes = true
  · have hreg : reg ≠ zeroRegister := fun heq => hzero ⟨heq, haccess⟩
    rw [if_pos haccess]
    refine ⟨m, ⟨⟨[], (List.append_nil _).symm, rfl⟩, h.markDirty hplace hreg, fun _ _ => rfl,
      .refl m⟩, ⟨rfl, fun _ _ _ hr => hr⟩, fun q hok => ?_⟩
    cases hok
    exact ⟨fun _ => (value_of_host hplace).symm, .inr hplace, fun _ _ =>
      ((h.toPaired.markDirty hplace).2 host reg true).2 (.inr ⟨rfl, rfl, rfl⟩)⟩
  · rw [if_neg haccess]
    refine ⟨m, .refl h, .refl _, fun q hok => ?_⟩
    cases hok
    exact ⟨fun _ => (value_of_host hplace).symm, .inr hplace, fun _ hwrites =>
      absurd hwrites haccess⟩

theorem maps_of_nowhere (h : a.cache.Consistent m)
    (hzero : ¬ (reg = zeroRegister ∧ access.writes = true))
    (hnowhere : ∀ q, a.cache.location reg ≠ .host q) :
    Maps a m reg access (exec (map reg access) a) := by
  rw [exec_map_of_nowhere hzero hnowhere]
  obtain ⟨n, hmoves, hspares, hplaces, hfree⟩ := moves_allocate h
  cases hresult : (exec allocate a).1 with
  | error e =>
    rw [exec_bind_of_error (Prod.ext hresult rfl)]
    exact ⟨n, hmoves.mono (List.nil_subset _), hspares, fun _ hok => by cases hok⟩
  | ok host =>
    rw [exec_bind_of_ok (Prod.ext hresult rfl)]
    have hplace := hplaces reg hnowhere
    have hnowhere' (q : HostRegister) : (exec allocate a).2.cache.location reg ≠ .host q := by
      rw [hplace]
      exact hnowhere q
    -- Freeing a host register did not move this guest register, so it is fetched from where it was.
    have hfetch : a.cache.fetch reg host = (exec allocate a).2.cache.fetch reg host := by
      unfold fetch
      rw [hplace]
    have hdirty : a.cache.bindsDirty reg access =
        (exec allocate a).2.cache.bindsDirty reg access := by
      unfold bindsDirty
      rw [hplace]
    obtain ⟨d, hslot⟩ := hfree host hresult
    obtain ⟨p, hbound, hmapped⟩ := moves_bind reg access
      hmoves.consistent hslot hzero hnowhere'
    rw [hfetch, hdirty]
    refine ⟨p, hmoves.trans hbound, hspares.trans (spares_bindHost hnowhere'), fun q hok => ?_⟩
    cases hok
    rw [← hmoves.value reg List.not_mem_nil]
    exact hmapped

/-- Mapping a guest register keeps values and brings it where it is wanted. -/
theorem maps (h : a.cache.Consistent m) (reg : GuestIndex) (access : Access) :
    Maps a m reg access (exec (map reg access) a) := by
  by_cases hzero : reg = zeroRegister ∧ access.writes = true
  · obtain ⟨rfl, haccess⟩ := hzero
    exact maps_zero h haccess
  · by_cases hresident : ∃ host, a.cache.location reg = .host host
    · obtain ⟨host, hplace⟩ := hresident
      exact maps_of_host h hzero hplace
    · exact maps_of_nowhere h hzero fun q hplace => hresident ⟨q, hplace⟩

/-! ### Mapping succeeds -/

/-- While three guest registers at most are locked, there is a host register to be had. -/
theorem allocate_ok (h : a.cache.Paired) {kept : List GuestIndex} (hkept : kept.length ≤ 3)
    (hlocked : ∀ r : GuestIndex, a.cache.locked.get r = true → r ∈ kept) :
    ∃ host, (exec allocate a).1 = .ok host := by
  cases hfree : a.cache.slots.find? (·.guest.isNone) with
  | some slot =>
    rw [exec_allocate_of_free hfree]
    exact ⟨slot.host, rfl⟩
  | none =>
    cases hvictim : a.cache.slots.find? (fun slot => slot.guest.any fun reg =>
        !a.cache.locked.get reg) with
    | some slot =>
      obtain ⟨host, guest, dirty⟩ := slot
      cases guest with
      | none =>
        have hany := List.find?_some hvictim
        cases hany
      | some reg =>
        rw [exec_allocate_of_victim hfree hvictim,
          exec_bind_of_ok (exec_flushHost_of_held h (List.mem_of_find?_eq_some hvictim))]
        exact ⟨host, rfl⟩
    | none =>
      -- Four host registers would hold four different guest registers, all of them locked.
      exfalso
      have hguest (slot : HostSlot) (hslot : slot ∈ a.cache.slots) :
          ∃ reg : GuestIndex, slot.guest = some reg ∧ a.cache.locked.get reg = true := by
        have hsome := List.find?_eq_none.1 hfree slot hslot
        have hkeep := List.find?_eq_none.1 hvictim slot hslot
        cases hreg : slot.guest with
        | none => simp [hreg] at hsome
        | some reg => exact ⟨reg, rfl, by simpa [hreg] using hkeep⟩
      have hinj : ∀ s ∈ a.cache.slots, ∀ s' ∈ a.cache.slots,
          s.guest.getD 0 = s'.guest.getD 0 → s = s' := by
        intro s hs s' hs' heq
        obtain ⟨reg, hreg, -⟩ := hguest s hs
        obtain ⟨reg', hreg', -⟩ := hguest s' hs'
        rw [hreg, hreg'] at heq
        obtain rfl : reg = reg' := heq
        have hheld : a.cache.Held s.host reg s.dirty := by
          rw [Held, ← hreg]
          exact hs
        have hheld' : a.cache.Held s'.host reg s'.dirty := by
          rw [Held, ← hreg']
          exact hs'
        have hplace := (h.resident reg s.host).2 ⟨_, hheld⟩
        rw [(h.resident reg s'.host).2 ⟨_, hheld'⟩] at hplace
        exact h.eq_of_host_eq hs hs' (Location.host.inj hplace).symm
      have hslots : a.cache.slots.Nodup :=
        .of_map (·.host) (h.hosts ▸ (by decide : HostRegister.allocationOrder.Nodup))
      have hsub : a.cache.slots.map (·.guest.getD 0) ⊆ kept := by
        intro reg hreg
        obtain ⟨slot, hslot, rfl⟩ := List.mem_map.1 hreg
        obtain ⟨reg, hreg, hlock⟩ := hguest slot hslot
        rw [hreg]
        exact hlocked reg hlock
      have hle := (List.Nodup.subperm (List.Nodup.map_on hinj hslots) hsub).length_le
      have hlength := congrArg List.length h.hosts
      rw [List.length_map] at hle hlength
      change a.cache.slots.length = 4 at hlength
      omega

theorem map_ok (h : a.cache.Paired) {kept : List GuestIndex} (hkept : kept.length ≤ 3)
    (hlocked : ∀ r : GuestIndex, a.cache.locked.get r = true → r ∈ kept) (reg : GuestIndex)
    (access : Access) : ∃ host, (exec (map reg access) a).1 = .ok host := by
  by_cases hzero : reg = zeroRegister ∧ access.writes = true
  · obtain ⟨rfl, haccess⟩ := hzero
    rw [exec_map_zero haccess]
    exact ⟨_, rfl⟩
  · by_cases hresident : ∃ host, a.cache.location reg = .host host
    · obtain ⟨host, hplace⟩ := hresident
      rw [exec_map_of_host hzero hplace]
      exact ⟨host, rfl⟩
    · obtain ⟨host, hok⟩ := allocate_ok h hkept hlocked
      rw [exec_map_of_nowhere hzero fun q hplace => hresident ⟨q, hplace⟩,
        exec_bind_of_ok (Prod.ext hok rfl)]
      exact ⟨host, rfl⟩

end RegisterCache

end Recompiler
