import Recompiler.Proofs.Block.CacheHistory
import Recompiler.Proofs.Block.Showing
import Recompiler.Proofs.Host.Contained

/-!
# Storing everything

What storing everything emits, for every register cache that can come about: one store for each guest
register whose word is out of date, and nothing else. Afterwards the cache is as at the entry of a
block, so that storing everything once more does nothing.

* `RegisterCache.Reachable`: the register caches that can come about.
* `RegisterCache.pending?`: the store that a guest register is in need of.
* `RegisterCache.flush_emits`, `RegisterCache.flushes_emit`: storing one register, and some.
* `RegisterCache.flushAll_stores_once`: storing everything.
-/

namespace Recompiler

open Allocate

theorem HostMachine.flags_writeMemory {β : Type} [Bus β] {m n : HostMachine β} {width : Width}
    {addr : UInt64} {value : UInt32} (h : m.writeMemory width addr value = some n) :
    n.flags = m.flags := by
  rw [writeMemory] at h
  split at h <;> split at h <;> cases h <;> rfl

namespace RegisterCache

variable {c d : RegisterCache} {a : Allocation} {reg r : GuestIndex} {host : HostRegister}

/-! ## Caches that can come about -/

/-- The register caches that can come about: a fresh one, and what is left of one when its guest
address was set or when a request was answered, or could not be. -/
inductive Reachable : RegisterCache → Prop
  | fresh : Reachable fresh
  | setPc {c : RegisterCache} (pc : UInt32) : Reachable c → Reachable { c with pc := pc }
  | answer {c : RegisterCache} (r : CacheRequest) :
    Reachable c → Reachable (CacheRequest.answer ⟨c, [], []⟩ r).cache

theorem Reachable.keeps (h : c.Reachable) : c.Sound ∧ c.Tells := by
  induction h with
  | fresh => exact ⟨sound_fresh, by unfold Tells; decide⟩
  | setPc pc _ ih => exact ⟨⟨⟨ih.1.hosts, ih.1.resident⟩, ih.1.zero⟩, ih.2⟩
  | @answer c r _ ih =>
    have hkept : Allocation.Kept ⟨c, [], []⟩ := ⟨ih.2, fun _ hmem => absurd hmem List.not_mem_nil⟩
    obtain ⟨hsound, hkept⟩ := CacheRequest.answer_keeps ⟨ih.1, hkept⟩ r
    exact ⟨hsound, hkept.clean⟩

/-! ## Stores that are due -/

/-- The store that a guest register is in need of, if its word in the guest state may be out of
date. -/
def pending? (c : RegisterCache) (reg : GuestIndex) : Option HostInstruction :=
  if reg = zeroRegister then none
  else
    match c.location reg with
    | .memory => none
    | .immediate value => some (.storeImmediate (Sequence.stateAddress (guestOffset reg)) value)
    | .host host =>
      if c.isDirty host then some (.store .word (Sequence.stateAddress (guestOffset reg)) host)
      else none

theorem isSome_pending? (c : RegisterCache) (reg : GuestIndex) :
    (c.pending? reg).isSome = true ↔ reg ≠ zeroRegister ∧
      ((∃ value, c.location reg = .immediate value) ∨
        ∃ host, c.location reg = .host host ∧ c.isDirty host = true) := by
  unfold pending?
  by_cases hreg : reg = zeroRegister
  · simp [hreg]
  · rw [if_neg hreg]
    cases hplace : c.location reg with
    | memory => simp
    | immediate value => simp [hreg]
    | host host => by_cases hdirty : c.isDirty host = true <;> simp [hreg, hdirty]

theorem target?_pending? {i : HostInstruction} (h : c.pending? reg = some i) :
    i.target? = some (Sequence.stateAddress (guestOffset reg)) := by
  unfold pending? at h
  split at h
  · cases h
  split at h
  · cases h
  · cases h
    rfl
  · split at h <;> cases h
    rfl

/-- A store that is due writes the word of the guest register, with the value that the register has. It
changes nothing else. -/
theorem executeStraight_pending? {β : Type} [Bus β] {i : HostInstruction}
    (h : c.pending? reg = some i) (m : HostMachine β) :
    (m.get .context = Linkage.contextBase →
        m.executeStraight i = some (m.setSlot reg (c.value m reg))) ∧
      ∀ n, m.executeStraight i = some n → n.flags = m.flags ∧ n.registers = m.registers := by
  have hslot : reg.val < Slot.count := Nat.lt_trans reg.isLt (by decide)
  unfold pending? at h
  split at h
  · cases h
  split at h
  · cases h
  · next value hplace =>
    cases h
    refine ⟨fun hcontext => ?_, fun n hn =>
      ⟨HostMachine.flags_writeMemory hn, HostMachine.registers_writeMemory hn⟩⟩
    rw [value_of_immediate hplace]
    exact HostMachine.writeMemory_slot hcontext hslot value
  · next host hplace =>
    split at h
    · cases h
      refine ⟨fun hcontext => ?_, fun n hn =>
        ⟨HostMachine.flags_writeMemory hn, HostMachine.registers_writeMemory hn⟩⟩
      rw [value_of_host hplace]
      exact HostMachine.writeMemory_slot hcontext hslot _
    · cases h

/-- The stores that are due, with the guest registers that they are for. -/
def stores (c : RegisterCache) : List (GuestIndex × HostInstruction) :=
  (List.finRange 32).filterMap fun reg => (c.pending? reg).map (reg, ·)

theorem mem_stores {store : GuestIndex × HostInstruction} :
    store ∈ c.stores ↔ c.pending? store.1 = some store.2 := by
  obtain ⟨reg, i⟩ := store
  simp [stores, List.mem_filterMap]

theorem map_fst_stores (c : RegisterCache) :
    c.stores.map (·.1) = (List.finRange 32).filter fun reg => (c.pending? reg).isSome := by
  rw [← List.filterMap_eq_filter, stores, List.map_filterMap]
  refine List.filterMap_congr fun reg _ => ?_
  cases hdue : c.pending? reg <;> simp [Option.guard, hdue]

theorem map_snd_stores (c : RegisterCache) :
    c.stores.map (·.2) = (List.finRange 32).filterMap c.pending? := by
  rw [stores, List.map_filterMap]
  refine List.filterMap_congr fun reg _ => ?_
  cases c.pending? reg <;> rfl

theorem Paired.isDirty_iff (h : c.Paired) (hplace : c.location reg = .host host) :
    c.isDirty host = true ↔ c.Held host reg true := by
  obtain ⟨dirty, hheld⟩ := (h.resident reg host).1 hplace
  rw [isDirty, show c.slot? host = _ from h.slot?_eq_some hheld]
  constructor
  · rintro rfl
    exact hheld
  · intro hheld'
    exact (h.held_unique hheld hheld').2

/-- What is due depends on where the register lives and on whether it was written there. -/
theorem Paired.pending?_congr (h : c.Paired) (h' : d.Paired)
    (hplace : d.location r = c.location r)
    (hheld : ∀ host, d.Held host r true ↔ c.Held host r true) : d.pending? r = c.pending? r := by
  unfold pending?
  rw [hplace]
  split
  · rfl
  split
  · rfl
  · rfl
  · next host hhost =>
    have hdirty : d.isDirty host = true ↔ c.isDirty host = true := by
      rw [h.isDirty_iff hhost, h'.isDirty_iff (hplace.trans hhost), hheld]
    exact if_congr hdirty rfl rfl

/-! ## Storing one register after the other -/

/-- Storing a guest register emits the store that is due, and what is due for others stays so. -/
theorem flush_emits (h : a.cache.Sound) (htells : a.cache.Tells) (reg : GuestIndex) :
    ∃ b, exec (flush reg) a = (.ok (), b) ∧ b.cache.Sound ∧ b.cache.Tells ∧
      b.cache.pc = a.cache.pc ∧ b.code = a.code ++ (a.cache.pending? reg).toList ∧
      ∀ r, r ≠ reg → b.cache.pending? r = a.cache.pending? r := by
  obtain ⟨n, hok, hmoves, -⟩ := stores_flush h.consistent reg
  have hsound := hmoves.consistent.sound
  have hplaces (r : GuestIndex) (hr : r ≠ reg) :
      (exec (flush reg) a).2.cache.location r = a.cache.location r := by
    rw [location_flush h.consistent, if_neg hr]
  refine ⟨_, Prod.ext hok rfl, hsound, ?_⟩
  -- What is due depends on where the register is.
  cases hplace : a.cache.location reg with
  | memory =>
    rw [exec_flush_of_memory hplace]
    refine ⟨htells, rfl, ?_, fun _ _ => rfl⟩
    simp [pending?, hplace]
  | immediate value =>
    by_cases hreg : reg = zeroRegister
    · subst hreg
      rw [exec_flush_of_zero hplace]
      exact ⟨htells, rfl, by simp [pending?], fun _ _ => rfl⟩
    · have hexec := exec_flush_of_immediate hplace hreg
      rw [hexec] at hsound hplaces ⊢
      refine ⟨htells, rfl, ?_, fun r hr =>
        h.toPaired.pending?_congr hsound.toPaired (hplaces r hr) fun _ => Iff.rfl⟩
      simp [pending?, hplace, hreg, Sequence.storeStateImmediate]
  | host host =>
    obtain ⟨dirty, hheld⟩ := (h.resident reg host).1 hplace
    have hexec := (exec_flush_of_host hplace).trans (exec_flushHost_of_held h.toPaired hheld)
    rw [hexec] at hsound hplaces ⊢
    have hdirty : a.cache.isDirty host = dirty := by
      rw [isDirty, show a.cache.slot? host = _ from h.slot?_eq_some hheld]
      rfl
    refine ⟨htells.unbind reg, ?_, ?_, fun r hr =>
      h.toPaired.pending?_congr hsound.toPaired (hplaces r hr) fun q => ?_⟩
    · simp only [unbind, hplace]
      rfl
    · by_cases hstore : dirty = true ∧ reg ≠ zeroRegister
      · simp [pending?, hplace, hdirty, hstore, Sequence.storeState]
      · have hnone : a.cache.pending? reg = none := by
          rw [← Option.not_isSome_iff_eq_none, isSome_pending?]
          rintro ⟨hreg, ⟨value, hvalue⟩ | ⟨q, hq, hdue⟩⟩
          · cases hplace.symm.trans hvalue
          · cases hplace.symm.trans hq
            exact hstore ⟨hdirty.symm.trans hdue, hreg⟩
        rw [hnone]
        simp only [if_neg hstore]
        rfl
    · rw [(h.toPaired.unbind hplace).2.2]
      refine and_iff_right_of_imp fun hq => ?_
      rintro rfl
      exact hr (h.held_unique hheld hq).1.symm

/-- Storing some guest registers emits the stores that are due, in this order. -/
theorem flushes_emit (h : a.cache.Sound) (htells : a.cache.Tells) {regs : List GuestIndex}
    (hnodup : regs.Nodup) :
    ∃ b, exec (regs.forM flush) a = (.ok (), b) ∧ b.cache.Sound ∧ b.cache.Tells ∧
      b.cache.pc = a.cache.pc ∧ b.code = a.code ++ regs.filterMap a.cache.pending? := by
  induction regs generalizing a with
  | nil => exact ⟨a, rfl, h, htells, rfl, (List.append_nil _).symm⟩
  | cons reg regs ih =>
    obtain ⟨hmem, hnodup⟩ := List.nodup_cons.1 hnodup
    obtain ⟨b, hexec, hb, htells', hpc, hcode, hothers⟩ := flush_emits h htells reg
    obtain ⟨d, hexec', hd, htells'', hpc', hcode'⟩ := ih hb htells' hnodup
    have hlater : regs.filterMap b.cache.pending? = regs.filterMap a.cache.pending? :=
      List.filterMap_congr fun r hr => hothers r fun heq => hmem (heq ▸ hr)
    refine ⟨d, (exec_bind_of_ok hexec).trans hexec', hd, htells'', hpc'.trans hpc, ?_⟩
    rw [hcode', hcode, hlater, List.append_assoc, List.filterMap_cons]
    cases a.cache.pending? reg <;> rfl

/-! ## Storing everything -/

/-- A cache in which every guest register is at home and nothing is locked is as at the entry of a
block. -/
theorem Home.eq_start (hhome : c.Home) (hsound : c.Sound) (htells : c.Tells)
    (hhosts : d.slots.map (·.host) = HostRegister.allocationOrder) (hpc : c.pc = d.pc) :
    c.release = d.start := by
  -- A slot that held a register would not leave it at home, and only such a slot may be marked.
  have hfree (slot : HostSlot) (hslot : slot ∈ c.slots) : slot = ⟨slot.host, none, false⟩ := by
    obtain ⟨host, guest, dirty⟩ := slot
    have hguest : guest = none := by
      cases guest with
      | none => rfl
      | some reg =>
        have hplace := (hsound.resident reg host).2 ⟨dirty, hslot⟩
        rw [hhome reg, home] at hplace
        split at hplace <;> cases hplace
    subst hguest
    cases dirty with
    | false => rfl
    | true => cases htells _ hslot rfl
  have hlocations : c.locations = (Vector.replicate 32 .memory).set 0 (.immediate 0) := by
    refine Vector.ext fun k hk => ?_
    exact (hhome ⟨k, hk⟩).trans (home_fresh ⟨k, hk⟩).symm
  have hslots : c.slots = d.slots.map fun slot => { slot with guest := none, dirty := false } := by
    calc c.slots
        = c.slots.map id := (List.map_id _).symm
      _ = c.slots.map fun slot => ⟨slot.host, none, false⟩ := List.map_congr_left hfree
      _ = (c.slots.map (·.host)).map fun host => ⟨host, none, false⟩ := by
          rw [List.map_map]
          rfl
      _ = (d.slots.map (·.host)).map fun host => ⟨host, none, false⟩ := by
          rw [hsound.hosts, hhosts]
      _ = _ := by
          rw [List.map_map]
          rfl
  rw [release, start, hlocations, hslots, hpc]

/-- Where every guest register is at home, nothing is stored. -/
theorem exec_flushes_of_home (h : a.cache.Home) (regs : List GuestIndex) :
    exec (regs.forM flush) a = (.ok (), a) := by
  induction regs with
  | nil => rfl
  | cons reg regs ih =>
    have hflush : exec (flush reg) a = (.ok (), a) := by
      by_cases hreg : reg = zeroRegister
      · subst hreg
        exact exec_flush_of_zero (h zeroRegister)
      · exact exec_flush_of_memory ((h reg).trans (if_neg hreg))
    exact (exec_bind_of_ok hflush).trans ih

/-- Storing everything, for every register cache that can come about: it succeeds and leaves the cache
as at the entry of a block. It emits one instruction for each guest register other than zero that is
known to be a constant or lives in a host register that was written, and none for any other. Each of
them stores the value of the register in its own word of the guest state, and leaves the flags and all
host registers alone. Storing everything once more emits nothing and changes nothing. -/
theorem flushAll_stores_once (h : a.cache.Reachable) :
    ∃ b : Allocation, exec flushAll a = (.ok (), b) ∧ b.cache = a.cache.start ∧
      b.code = a.code ++ a.cache.stores.map (·.2) ∧
      (a.cache.stores.map (·.1)).Nodup ∧
      (∀ reg, reg ∈ a.cache.stores.map (·.1) ↔ reg ≠ zeroRegister ∧
        ((∃ value, a.cache.location reg = .immediate value) ∨
          ∃ host, a.cache.location reg = .host host ∧ a.cache.isDirty host = true)) ∧
      (∀ store ∈ a.cache.stores,
        store.2.target? = some (Sequence.stateAddress (guestOffset store.1)) ∧
        ∀ {β : Type} [Bus β] (m : HostMachine β),
          (m.get .context = Linkage.contextBase →
            m.executeStraight store.2 = some (m.setSlot store.1 (a.cache.value m store.1))) ∧
          ∀ n, m.executeStraight store.2 = some n →
            n.flags = m.flags ∧ n.registers = m.registers) ∧
      exec flushAll b = (.ok (), b) := by
  obtain ⟨hsound, htells⟩ := h.keeps
  obtain ⟨b, hexec, hb, hbtells, hpc, hcode⟩ := flushes_emit hsound htells (List.nodup_finRange 32)
  -- After one pass every register is at home, so that a second one finds nothing to store.
  have hhome : b.cache.Home := fun r => by
    have hplace := (location_flushes hsound.consistent (List.finRange 32) r).1 (List.mem_finRange r)
    rwa [hexec] at hplace
  have hreleased : b.cache.release.Home := hhome
  have hagain := exec_flushes_of_home (a := { b with cache := b.cache.release }) hreleased
    (List.finRange 32)
  refine ⟨{ b with cache := b.cache.release }, exec_bind_of_ok hexec,
    hhome.eq_start hb hbtells hsound.hosts hpc, ?_, ?_, fun reg => ?_, fun store hstore =>
      ⟨target?_pending? (mem_stores.1 hstore), fun m =>
        executeStraight_pending? (mem_stores.1 hstore) m⟩, (exec_bind_of_ok hagain).trans rfl⟩
  · rw [map_snd_stores]
    exact hcode
  · rw [map_fst_stores]
    exact (List.nodup_finRange 32).filter _
  · rw [map_fst_stores, List.mem_filter, isSome_pending?]
    exact and_iff_right (List.mem_finRange reg)

/-- A constant in `t1` and a new value of `t2` are stored, in this order. -/
theorem flushAll_stores_once_of_two :
    ∃ (c : RegisterCache) (b : Allocation), c.Reachable ∧ exec flushAll ⟨c, [], []⟩ = (.ok (), b) ∧
      b.cache = c.start ∧
      b.code = [.storeImmediate (Sequence.stateAddress 36) 5,
        .store .word (Sequence.stateAddress 40) .rbx] := by
  let known := (CacheRequest.answer ⟨fresh, [], []⟩ (.operation (.setImmediate 9 5))).cache
  let c := (CacheRequest.answer ⟨known, [], []⟩ (.operation (.map 10 .write))).cache
  have hc : c.Reachable := .answer _ (.answer _ .fresh)
  obtain ⟨b, hexec, hstart, hcode, -⟩ := flushAll_stores_once (a := ⟨c, [], []⟩) hc
  exact ⟨c, b, hc, hexec, hstart, hcode.trans (by decide)⟩

end RegisterCache

end Recompiler
