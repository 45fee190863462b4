import Recompiler.Proofs.Block.Carrying

/-!
# What a machine shows of the guest

While a block runs, the guest registers are spread over the guest state, the host registers and the
constants known during lowering. The cache says where each of them is, so that a machine and a cache
together show one state of the guest: the one that storing everything would leave in memory.

* `RegisterCache.Shows`: the machine shows a guest, some of whose registers may be out of date.
* `RegisterCache.Shows.moves`, `RegisterCache.Shows.keeps`: moving registers about and using free
  host registers shows the same guest.
* `RegisterCache.Shows.assign`, `RegisterCache.Shows.setImmediate`: the guest with a register written.
* `RegisterCache.shown`: the one guest that a machine shows.
* `RegisterCache.location_flush`, `RegisterCache.Shows.env_eq`: once everything is stored, the guest
  is the one in memory.
-/

namespace Recompiler

variable {β : Type}

theorem State.eq_of_get_eq {s s' : State} (h : ∀ slot, s.get slot = s'.get slot) : s = s' := by
  obtain ⟨words⟩ := s
  obtain ⟨words'⟩ := s'
  refine congrArg State.mk (Vector.ext fun slot hslot => ?_)
  simpa [State.get, hslot] using h slot

namespace RegisterCache

open Allocate

variable {c d : RegisterCache} {m n : HostMachine β} {e : Environment β}
  {hidden hidden' : List GuestIndex} {reg : GuestIndex} {host : HostRegister}

/-- The machine shows the guest `e`: every guest register is where the cache says, but for those that
are `hidden`, and everything else is in place. -/
structure Shows (hidden : List GuestIndex) (c : RegisterCache) (m : HostMachine β)
    (e : Environment β) : Prop where
  consistent : c.Consistent m
  zero : e.state.get 0 = 0
  registers : ∀ reg, reg ∉ hidden → c.value m reg = e.state.get reg
  words : ∀ slot, 32 ≤ slot → m.env.state.get slot = e.state.get slot
  bus : m.env.bus = e.bus
  events : m.env.events = e.events

namespace Shows

theorem mono (h : c.Shows hidden m e) (hsub : hidden ⊆ hidden') : c.Shows hidden' m e :=
  ⟨h.consistent, h.zero, fun reg hreg => h.registers reg fun hmem => hreg (hsub hmem), h.words,
    h.bus, h.events⟩

theorem of_cache (h : c.Shows hidden m e) (hconsistent : d.Consistent m)
    (hvalue : ∀ reg, reg ∉ hidden → d.value m reg = c.value m reg) : d.Shows hidden m e :=
  ⟨hconsistent, h.zero, fun reg hreg => (hvalue reg hreg).trans (h.registers reg hreg), h.words,
    h.bus, h.events⟩

/-- Locks do not matter. -/
theorem setLocked (h : c.Shows hidden m e) (locked : Vector Bool 32) :
    Shows hidden { c with locked := locked } m e :=
  ⟨⟨⟨h.consistent.hosts, h.consistent.resident⟩, h.consistent.clean, h.consistent.zeroWord,
    h.consistent.zero, h.consistent.context⟩, h.zero, h.registers, h.words, h.bus, h.events⟩

theorem setPc (h : c.Shows hidden m e) (pc : UInt32) : Shows hidden { c with pc := pc } m e :=
  ⟨⟨⟨h.consistent.hosts, h.consistent.resident⟩, h.consistent.clean, h.consistent.zeroWord,
    h.consistent.zero, h.consistent.context⟩, h.zero, h.registers, h.words, h.bus, h.events⟩

/-- Moving guest registers about hides those that are lost. -/
theorem moves [Bus β] {a b : Allocation} {lost : List GuestIndex} (h : a.cache.Shows hidden m e)
    (hmoves : a.Moves lost m b n) : b.cache.Shows (lost ++ hidden) n e := by
  refine ⟨hmoves.consistent, h.zero, fun reg hreg => ?_, fun slot hslot => ?_,
    hmoves.transfers.bus.trans h.bus, hmoves.transfers.events.trans h.events⟩
  · rw [List.mem_append, not_or] at hreg
    exact (hmoves.value reg hreg.1).trans (h.registers reg hreg.2)
  · exact (hmoves.transfers.words slot hslot).trans (h.words slot hslot)

/-- Host registers that hold no guest register may change. -/
theorem keeps (h : c.Shows hidden m e) {lost : List HostRegister} (hkeeps : m.Keeps lost n)
    (hlost : ∀ r ∈ lost, r ∉ HostRegister.allocationOrder ∧ r ≠ .context) :
    c.Shows hidden n e := by
  obtain ⟨hconsistent, hvalue⟩ := h.consistent.congr (n := n)
    (fun host reg dirty hheld => hkeeps.getWord (h.consistent.valid hheld) fun hmem =>
      (hlost host hmem).1 (h.consistent.mem_allocationOrder hheld))
    (fun reg => by rw [hkeeps.env])
    (hkeeps.registers .context (by decide) fun hmem => (hlost _ hmem).2 rfl)
  exact ⟨hconsistent, h.zero, fun reg hreg => (hvalue reg).trans (h.registers reg hreg),
    fun slot hslot => by rw [hkeeps.env, h.words slot hslot], by rw [hkeeps.env, h.bus],
    by rw [hkeeps.env, h.events]⟩

theorem setFlags (h : c.Shows hidden m e) (flags : Flags) :
    c.Shows hidden (m.setFlags flags) e := by
  have hkeeps : m.Keeps [] (m.setFlags flags) := .setFlags m flags
  exact h.keeps hkeeps (by simp)

/-- Words past the guest registers are where the guest has them. -/
theorem setSlot (h : c.Shows hidden m e) {slot : Nat} (hslot : 32 ≤ slot) (v : UInt32) :
    c.Shows hidden (m.setSlot slot v) (e.setWord slot v) := by
  have hother (s : State) {other : Nat} (hne : slot ≠ other) :
      (s.set slot v).get other = s.get other := s.get_set_of_ne hne v
  have hword (reg : GuestIndex) : slot ≠ reg.val := by
    have := reg.isLt
    omega
  obtain ⟨hconsistent, hvalue⟩ := h.consistent.congr (n := m.setSlot slot v) (fun _ _ _ _ => rfl)
    (fun reg => hother _ (hword reg)) rfl
  refine ⟨hconsistent, (hother _ (by omega)).trans h.zero, fun reg hreg => ?_, fun other hother' => ?_,
    h.bus, h.events⟩
  · exact (hvalue reg).trans ((h.registers reg hreg).trans (hother _ (hword reg)).symm)
  · change (m.env.state.set slot v).get other = (e.state.set slot v).get other
    by_cases hne : slot = other
    · subst hne
      by_cases hcount : slot < Slot.count
      · rw [State.get_set_self _ hcount, State.get_set_self _ hcount]
      · simp [State.get, State.set, hcount]
    · rw [hother _ hne, hother _ hne, h.words other hother']

/-- Writing the host register that a guest register was mapped to brings it up to date. -/
theorem assign (h : c.Shows hidden m e) (hheld : c.Held host reg true)
    {lost : List HostRegister} (hkeeps : m.Keeps lost n)
    (hlost : ∀ r ∈ lost, r = host ∨ r ∉ HostRegister.allocationOrder ∧ r ≠ .context)
    (hhidden : ∀ r ∈ hidden, r = reg ∨ r ∈ hidden') :
    c.Shows hidden' n (e.setRegister reg (n.getWord host)) := by
  have hreg := h.consistent.ne_zero_of_dirty hheld
  have hval : reg.val ≠ 0 := fun heq => hreg (Fin.ext heq)
  have hset : (e.setRegister reg (n.getWord host)).state =
      e.state.set reg (n.getWord host) := if_neg hval
  have hcontext : host ≠ .context := by
    have hmem : host ∈ HostRegister.allocationOrder := h.consistent.mem_allocationOrder hheld
    rintro rfl
    exact absurd hmem (by decide)
  obtain ⟨hconsistent, hvalue⟩ := h.consistent.setWord_dirty hheld (n.getWord host)
  -- Up to free host registers, `n` is `m` with the one word written.
  obtain ⟨hresult, hvalue'⟩ := hconsistent.congr (n := n)
    (fun q r dirty hq => by
      by_cases hne : host = q
      · subst hne
        rw [HostMachine.getWord_setWord_self]
      · have hmem : q ∉ lost := fun hmem => (hlost q hmem).elim (fun heq => hne heq.symm) fun hfree =>
          hfree.1 (h.consistent.mem_allocationOrder hq)
        rw [hkeeps.getWord (h.consistent.valid hq) hmem]
        exact (congrArg UInt64.toUInt32 (m.get_setWord_of_ne (h.consistent.valid hheld)
          (h.consistent.valid hq) hne _)).symm)
    (fun r => by rw [hkeeps.env]; rfl)
    (by
      rw [m.get_setWord_of_ne (h.consistent.valid hheld) (by decide) hcontext]
      exact hkeeps.registers .context (by decide) fun hmem =>
        (hlost _ hmem).elim (fun heq => hcontext heq.symm) fun hfree => hfree.2 rfl)
  refine ⟨hresult, ?_, fun r hr => ?_, fun slot hslot => ?_, by rw [hkeeps.env, h.bus]; rfl,
    by rw [hkeeps.env, h.events]; rfl⟩
  · rw [hset, State.get_set_of_ne _ hval, h.zero]
  · rw [hvalue', hvalue, hset]
    by_cases heq : r = reg
    · rw [if_pos heq, heq, State.get_set_self _ (Nat.lt_trans reg.isLt (by decide))]
    · rw [if_neg heq, State.get_set_of_ne _ fun hval => heq (Fin.ext hval.symm)]
      exact h.registers r fun hmem => (hhidden r hmem).elim heq hr
  · have hne : reg.val ≠ slot := by
      have := reg.isLt
      omega
    rw [hkeeps.env, hset, State.get_set_of_ne _ hne, h.words slot hslot]

/-- A register that is known to hold a constant. -/
theorem setImmediate (h : c.Shows [] m e) (v : UInt32) :
    (c.setImmediate reg v).Shows [] m (e.setRegister reg v) := by
  by_cases hreg : reg = zeroRegister
  · have hsame : c.setImmediate reg v = c := if_pos hreg
    have hval : reg.val = 0 := congrArg Fin.val hreg
    have hset : e.setRegister reg v = e := by
      rw [Environment.setRegister, State.setRegister, if_pos hval]
    rwa [hsame, hset]
  · have hval : reg.val ≠ 0 := fun heq => hreg (Fin.ext heq)
    have hset : (e.setRegister reg v).state = e.state.set reg v := if_neg hval
    obtain ⟨hconsistent, hvalue⟩ := h.consistent.setImmediate hreg v
    refine ⟨hconsistent, ?_, fun r _ => ?_, fun slot hslot => ?_, h.bus, h.events⟩
    · rw [hset, State.get_set_of_ne _ hval, h.zero]
    · rw [hvalue, hset]
      by_cases heq : r = reg
      · rw [if_pos heq, heq, State.get_set_self _ (Nat.lt_trans reg.isLt (by decide))]
      · rw [if_neg heq, State.get_set_of_ne _ fun hval => heq (Fin.ext hval.symm)]
        exact h.registers r List.not_mem_nil
    · have hne : reg.val ≠ slot := by
        have := reg.isLt
        omega
      rw [hset, State.get_set_of_ne _ hne, h.words slot hslot]

/-- A constant known during lowering is what the guest has. -/
theorem get_of_immediate? (h : c.Shows [] m e) {v : UInt32} (himmediate : c.immediate? reg = some v) :
    e.state.get reg = v := by
  rw [← h.registers reg List.not_mem_nil]
  rw [immediate?] at himmediate
  split at himmediate
  · next hplace =>
    cases himmediate
    exact value_of_immediate hplace
  · cases himmediate

end Shows

/-! ## The guest that is shown -/

/-- The guest that a machine shows: its state with the guest registers as the cache has them. -/
def shown (c : RegisterCache) (m : HostMachine β) : Environment β :=
  { m.env with state := ⟨Vector.ofFn fun slot =>
      if h : slot.val < 32 then c.value m ⟨slot, h⟩ else m.env.state.get slot⟩ }

theorem get_shown (c : RegisterCache) (m : HostMachine β) (reg : GuestIndex) :
    (c.shown m).state.get reg = c.value m reg := by
  have hslot : reg.val < Slot.count := Nat.lt_trans reg.isLt (by decide)
  simp [shown, State.get, hslot]

theorem get_shown_of_le (c : RegisterCache) (m : HostMachine β) {slot : Nat} (hslot : 32 ≤ slot) :
    (c.shown m).state.get slot = m.env.state.get slot := by
  by_cases hcount : slot < Slot.count
  · simp [shown, State.get, hcount, Nat.not_lt.2 hslot]
  · simp [State.get, hcount]

theorem bus_shown (c : RegisterCache) (m : HostMachine β) : (c.shown m).bus = m.env.bus := by
  rw [shown]

theorem events_shown (c : RegisterCache) (m : HostMachine β) :
    (c.shown m).events = m.env.events := by
  rw [shown]

theorem Consistent.shows (h : c.Consistent m) : c.Shows [] m (c.shown m) := by
  have hzero : (c.shown m).state.get zeroRegister.val = 0 :=
    (get_shown c m zeroRegister).trans h.value_zero
  exact ⟨h, hzero, fun reg _ => (get_shown c m reg).symm,
    fun _ hslot => (get_shown_of_le c m hslot).symm, (bus_shown c m).symm, (events_shown c m).symm⟩

/-- A machine shows no other guest. -/
theorem Shows.shown_eq (h : c.Shows [] m e) : c.shown m = e := by
  have hstate : (c.shown m).state = e.state := by
    refine State.eq_of_get_eq fun slot => ?_
    by_cases hslot : slot < 32
    · exact (get_shown c m ⟨slot, hslot⟩).trans (h.registers ⟨slot, hslot⟩ List.not_mem_nil)
    · have hle := Nat.le_of_not_lt hslot
      exact (get_shown_of_le c m hle).trans (h.words slot hle)
  have hbus := (bus_shown c m).trans h.bus
  have hevents := (events_shown c m).trans h.events
  generalize c.shown m = shown at hstate hbus hevents
  obtain ⟨_, _, _⟩ := shown
  obtain ⟨_, _, _⟩ := e
  rw [Environment.mk.injEq]
  exact ⟨hstate, hbus, hevents⟩

/-! ## Storing everything -/

/-- Where a guest register lives when everything is stored. -/
def home (reg : GuestIndex) : Location :=
  if reg = zeroRegister then .immediate 0 else .memory

/-- Storing a guest register sends it home and leaves the others where they are. -/
theorem location_flush {a : Allocation} (h : a.cache.Consistent m) (reg r : GuestIndex) :
    (exec (flush reg) a).2.cache.location r =
      if r = reg then home reg else a.cache.location r := by
  -- Where the register is decides what is stored. Register zero is a constant even at home.
  cases hplace : a.cache.location reg with
  | host host =>
    obtain ⟨dirty, hheld⟩ := (h.resident reg host).1 hplace
    rw [exec_flush_of_host hplace, exec_flushHost_of_held h.toPaired hheld]
    dsimp only
    rw [(h.toPaired.unbind hplace).2.1]
    exact if_congr eq_comm rfl rfl
  | memory =>
    have hreg : reg ≠ zeroRegister := by
      rintro rfl
      obtain hzero | ⟨host, hheld⟩ := h.zero
      · rw [hzero] at hplace
        cases hplace
      · rw [(h.resident _ host).2 ⟨_, hheld⟩] at hplace
        cases hplace
    rw [exec_flush_of_memory hplace, home, if_neg hreg]
    split
    · next heq => rw [heq, hplace]
    · rfl
  | immediate v =>
    by_cases hreg : reg = zeroRegister
    · subst hreg
      have hzero : a.cache.location zeroRegister = .immediate 0 := by
        refine h.zero.resolve_right fun ⟨host, hheld⟩ => ?_
        rw [(h.resident _ host).2 ⟨_, hheld⟩] at hplace
        cases hplace
      rw [exec_flush_of_zero hplace, home, if_pos rfl]
      split
      · next heq => rw [heq, hzero]
      · rfl
    · rw [exec_flush_of_immediate hplace hreg, home, if_neg hreg]
      dsimp only
      rw [location_setLocation]
      exact if_congr eq_comm rfl rfl

theorem location_flushes [Bus β] {a : Allocation} (h : a.cache.Consistent m)
    (regs : List GuestIndex) (r : GuestIndex) :
    (r ∈ regs → (exec (regs.forM flush) a).2.cache.location r = home r) ∧
      (r ∉ regs → (exec (regs.forM flush) a).2.cache.location r = a.cache.location r) := by
  induction regs generalizing a m with
  | nil => exact ⟨fun h => absurd h List.not_mem_nil, fun _ => rfl⟩
  | cons reg regs ih =>
    obtain ⟨n, hok, hmoves⟩ := moves_flush h reg
    have hexec : exec ((reg :: regs).forM flush) a = exec (regs.forM flush) (exec (flush reg) a).2 :=
      exec_bind_of_ok (Prod.ext hok rfl)
    obtain ⟨hflushed, hother⟩ := ih hmoves.consistent
    rw [hexec]
    refine ⟨fun hmem => ?_, fun hmem => ?_⟩
    · by_cases hlater : r ∈ regs
      · exact hflushed hlater
      · obtain rfl : r = reg := (List.mem_cons.1 hmem).resolve_right hlater
        rw [hother hlater, location_flush h, if_pos rfl]
    · rw [hother (hmem ∘ List.mem_cons_of_mem _), location_flush h,
        if_neg fun hr : r = reg => hmem (hr ▸ List.mem_cons_self)]

/-- Every guest register is at home. -/
def Home (c : RegisterCache) : Prop :=
  ∀ reg, c.location reg = home reg

theorem home_flushAll [Bus β] {a : Allocation} (h : a.cache.Consistent m) :
    (exec flushAll a).2.cache.Home := by
  intro r
  obtain ⟨n, hok, -⟩ := moves_flushes h (List.finRange 32)
  have hexec : exec flushAll a = exec (update release)
      (exec ((List.finRange 32).forM flush) a).2 := exec_bind_of_ok (Prod.ext hok rfl)
  rw [hexec]
  exact (location_flushes h (List.finRange 32) r).1 (List.mem_finRange r)

theorem home_fresh : fresh.Home :=
  show ∀ reg, fresh.location reg = home reg by decide

/-- Once everything is stored, the guest is the one in memory. -/
theorem Shows.env_eq (h : c.Shows [] m e) (hhome : c.Home) : m.env = e := by
  have hstate : m.env.state = e.state := by
    refine State.eq_of_get_eq fun slot => ?_
    by_cases hslot : slot < 32
    · by_cases hzero : slot = 0
      · rw [hzero, h.zero]
        exact h.consistent.zeroWord
      · have hplace := hhome ⟨slot, hslot⟩
        rw [home, if_neg fun heq => hzero (congrArg Fin.val heq)] at hplace
        rw [← h.registers ⟨slot, hslot⟩ List.not_mem_nil, value_of_memory hplace]
    · exact h.words slot (Nat.le_of_not_lt hslot)
  obtain ⟨_, _, _, _, ⟨state, bus, events⟩⟩ := m
  obtain ⟨_, _, _⟩ := e
  obtain rfl : state = _ := hstate
  obtain rfl : bus = _ := h.bus
  obtain rfl : events = _ := h.events
  rfl

/-- A machine whose guest registers are all at home shows the guest in memory, whatever guest that
is. -/
theorem Home.shows (hhome : c.Home) (hpaired : c.Paired) (hzero : m.env.state.get 0 = 0)
    (hcontext : m.get .context = Linkage.contextBase) : c.Shows [] m m.env := by
  have hplace (r : GuestIndex) (q : HostRegister) : c.location r ≠ .host q := by
    rw [hhome r, home]
    split <;> simp
  have hheld (q : HostRegister) (r : GuestIndex) (dirty : Bool) : ¬ c.Held q r dirty := fun hheld =>
    hplace r q ((hpaired.resident r q).2 ⟨dirty, hheld⟩)
  refine ⟨⟨hpaired, fun q r hq => absurd hq (hheld q r false), hzero, .inl (hhome zeroRegister),
    hcontext⟩, hzero, fun r _ => ?_, fun _ _ => rfl, rfl, rfl⟩
  by_cases hr : r = zeroRegister
  · rw [hr, value_of_immediate (hhome zeroRegister)]
    exact hzero.symm
  · have hmemory := hhome r
    rw [home, if_neg hr] at hmemory
    exact value_of_memory hmemory

end RegisterCache

end Recompiler
