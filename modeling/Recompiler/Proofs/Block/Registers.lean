import Mathlib.Data.List.Nodup
import Recompiler.Block.RegisterCache
import Recompiler.Proofs.Host.Machine

/-!
# The register cache and the machine

The register cache says where guest registers live while a block is lowered. Here it is held against
the machine that runs the block, and changes of one and of the other are matched.

* `RegisterCache.Paired`: guest registers in host registers and occupied host registers correspond.
* `RegisterCache.value`: the value of a guest register, wherever it lives.
* `RegisterCache.Consistent`: the cache, the host registers and the guest state agree.
-/

namespace Recompiler

/-! ## Places -/

theorem HostRegister.valid_of_mem_allocationOrder {r : HostRegister}
    (h : r ∈ HostRegister.allocationOrder) : r.Valid :=
  (by decide : ∀ r ∈ HostRegister.allocationOrder, r.Valid) r h

namespace RegisterCache

variable {c : RegisterCache} {reg r : GuestIndex} {host q : HostRegister} {dirty : Bool}

/-- The host register holds the guest register. -/
def Held (c : RegisterCache) (host : HostRegister) (reg : GuestIndex) (dirty : Bool) : Prop :=
  ⟨host, some reg, dirty⟩ ∈ c.slots

/-- Guest registers in host registers and occupied host registers correspond one to one. -/
structure Paired (c : RegisterCache) : Prop where
  hosts : c.slots.map (·.host) = HostRegister.allocationOrder
  resident : ∀ reg host, c.location reg = .host host ↔ ∃ dirty, c.Held host reg dirty

theorem location_setLocation (c : RegisterCache) (reg : GuestIndex) (place : Location)
    (r : GuestIndex) :
    (c.setLocation reg place).location r = if reg = r then place else c.location r := by
  change (c.locations.set reg place)[r] = _
  rw [Fin.getElem_fin, Vector.getElem_set]
  simp only [Fin.val_inj]
  rfl

@[simp] theorem location_updateSlot (c : RegisterCache) (host : HostRegister)
    (guest : Option GuestIndex) (dirty : Bool) (r : GuestIndex) :
    (c.updateSlot host guest dirty).location r = c.location r := rfl

@[simp] theorem held_setLocation (c : RegisterCache) (reg : GuestIndex) (place : Location) :
    (c.setLocation reg place).Held host r dirty ↔ c.Held host r dirty := Iff.rfl

theorem hosts_updateSlot (c : RegisterCache) (host : HostRegister) (guest : Option GuestIndex)
    (dirty : Bool) :
    (c.updateSlot host guest dirty).slots.map (·.host) = c.slots.map (·.host) := by
  rw [updateSlot, List.map_map]
  refine List.map_congr_left fun slot _ => ?_
  change (if slot.host = host then _ else _ : HostSlot).host = _
  split <;> rfl

/-- Other host registers hold what they held. -/
theorem held_updateSlot_of_ne (hne : q ≠ host) (guest : Option GuestIndex) (dirty d : Bool) :
    (c.updateSlot host guest dirty).Held q r d ↔ c.Held q r d := by
  rw [Held, updateSlot, List.mem_map]
  constructor
  · rintro ⟨slot, hslot, heq⟩
    split at heq
    · next hhost => exact absurd ((congrArg HostSlot.host heq).symm.trans hhost) hne
    · rwa [heq] at hslot
  · intro h
    exact ⟨_, h, if_neg hne⟩

theorem held_updateSlot_self (hslot : ∃ slot ∈ c.slots, slot.host = host)
    (guest : Option GuestIndex) (dirty d : Bool) :
    (c.updateSlot host guest dirty).Held host r d ↔ guest = some r ∧ dirty = d := by
  rw [Held, updateSlot, List.mem_map]
  constructor
  · rintro ⟨slot, -, heq⟩
    split at heq
    · exact ⟨congrArg HostSlot.guest heq, congrArg HostSlot.dirty heq⟩
    · next hhost => exact absurd (congrArg HostSlot.host heq) hhost
  · rintro ⟨rfl, rfl⟩
    obtain ⟨slot, hmem, rfl⟩ := hslot
    exact ⟨slot, hmem, if_pos rfl⟩

namespace Paired

theorem mem_allocationOrder (h : c.Paired) {slot : HostSlot} (hslot : slot ∈ c.slots) :
    slot.host ∈ HostRegister.allocationOrder := by
  rw [← h.hosts]
  exact List.mem_map_of_mem hslot

theorem valid (h : c.Paired) (hheld : c.Held host reg dirty) : host.Valid :=
  HostRegister.valid_of_mem_allocationOrder (h.mem_allocationOrder hheld)

theorem eq_of_host_eq (h : c.Paired) {s s' : HostSlot} (hs : s ∈ c.slots) (hs' : s' ∈ c.slots)
    (heq : s.host = s'.host) : s = s' := by
  refine List.inj_on_of_nodup_map (f := (·.host)) ?_ hs hs' heq
  rw [h.hosts]
  decide

/-- A host register holds one guest register only. -/
theorem held_unique (h : c.Paired) {d : Bool} (hheld : c.Held host reg dirty)
    (hheld' : c.Held host r d) : reg = r ∧ dirty = d := by
  have heq := h.eq_of_host_eq hheld hheld' rfl
  exact ⟨Option.some.inj (congrArg HostSlot.guest heq), congrArg HostSlot.dirty heq⟩

theorem not_held_of_free (h : c.Paired) (hfree : ⟨host, none, dirty⟩ ∈ c.slots) (d : Bool) :
    ¬ c.Held host r d := by
  intro hheld
  have heq := h.eq_of_host_eq hfree hheld rfl
  cases congrArg HostSlot.guest heq

theorem slot?_eq_some (h : c.Paired) {slot : HostSlot} (hslot : slot ∈ c.slots) :
    c.slot? slot.host = some slot := by
  cases hfind : c.slot? slot.host with
  | none =>
    have hnone := List.find?_eq_none.1 hfind slot hslot
    simp at hnone
  | some s =>
    have hhost : s.host = slot.host := by
      simpa using List.find?_some hfind
    rw [h.eq_of_host_eq (List.mem_of_find?_eq_some hfind) hslot hhost]

/-- Freeing a host register. -/
theorem unbind (h : c.Paired) (hlocation : c.location reg = .host host) :
    (c.unbind reg).Paired ∧
      (∀ r, (c.unbind reg).location r =
        if reg = r then (if reg = zeroRegister then .immediate 0 else .memory)
        else c.location r) ∧
      ∀ q r d, (c.unbind reg).Held q r d ↔ q ≠ host ∧ c.Held q r d := by
  obtain ⟨dirty, hheld⟩ := (h.resident reg host).1 hlocation
  have hunbind : c.unbind reg = (c.updateSlot host none false).setLocation reg
      (if reg = zeroRegister then .immediate 0 else .memory) := by
    rw [RegisterCache.unbind, hlocation]
  have hplaces (r : GuestIndex) : (c.unbind reg).location r =
      if reg = r then (if reg = zeroRegister then .immediate 0 else .memory)
      else c.location r := by
    rw [hunbind, location_setLocation, location_updateSlot]
  have hslots (q : HostRegister) (r : GuestIndex) (d : Bool) :
      (c.unbind reg).Held q r d ↔ q ≠ host ∧ c.Held q r d := by
    rw [hunbind, held_setLocation]
    -- Only the slot of the freed host register changes, and only the location of its guest.
    by_cases hq : q = host
    · subst hq
      rw [held_updateSlot_self ⟨_, hheld, rfl⟩]
      simp
    · rw [held_updateSlot_of_ne hq]
      simp [hq]
  refine ⟨⟨?_, fun r q => ?_⟩, hplaces, hslots⟩
  · rw [hunbind]
    exact (hosts_updateSlot c host none false).trans h.hosts
  · rw [hplaces]
    simp only [hslots]
    by_cases hr : reg = r
    · subst hr
      rw [if_pos rfl]
      refine ⟨fun hplace => ?_, ?_⟩
      · split at hplace <;> cases hplace
      · rintro ⟨d, hq, hheld'⟩
        have hplace := (h.resident reg q).2 ⟨d, hheld'⟩
        rw [hlocation] at hplace
        exact absurd (Location.host.inj hplace).symm hq
    · rw [if_neg hr, h.resident]
      refine exists_congr fun d => ⟨fun hheld' => ⟨?_, hheld'⟩, And.right⟩
      rintro rfl
      exact hr (h.held_unique hheld hheld').1

/-- Occupying a free host register. -/
theorem bindHost (h : c.Paired) {d' : Bool} (hfree : ⟨host, none, d'⟩ ∈ c.slots)
    (hlocation : ∀ q, c.location reg ≠ .host q) (dirty : Bool) :
    (c.bindHost host reg dirty).Paired ∧
      (∀ r, (c.bindHost host reg dirty).location r =
        if reg = r then .host host else c.location r) ∧
      ∀ q r d, (c.bindHost host reg dirty).Held q r d ↔
        c.Held q r d ∨ (q = host ∧ r = reg ∧ d = dirty) := by
  -- The register gets a place and the host register an owner; the others stay where they are.
  have hplaces (r : GuestIndex) : (c.bindHost host reg dirty).location r =
      if reg = r then .host host else c.location r := by
    rw [RegisterCache.bindHost, location_setLocation, location_updateSlot]
  have hslots (q : HostRegister) (r : GuestIndex) (d : Bool) :
      (c.bindHost host reg dirty).Held q r d ↔
        c.Held q r d ∨ (q = host ∧ r = reg ∧ d = dirty) := by
    rw [RegisterCache.bindHost, held_setLocation]
    by_cases hq : q = host
    · subst hq
      rw [held_updateSlot_self ⟨_, hfree, rfl⟩]
      constructor
      · rintro ⟨hr, rfl⟩
        exact .inr ⟨rfl, (Option.some.inj hr).symm, rfl⟩
      · rintro (hheld | ⟨-, rfl, rfl⟩)
        · exact absurd hheld (h.not_held_of_free hfree d)
        · exact ⟨rfl, rfl⟩
    · rw [held_updateSlot_of_ne hq]
      simp [hq]
  refine ⟨⟨(hosts_updateSlot c host _ _).trans h.hosts, fun r q => ?_⟩, hplaces, hslots⟩
  rw [hplaces]
  simp only [hslots]
  -- The register had no place before, so that its new one is the only one.
  by_cases hr : reg = r
  · subst hr
    rw [if_pos rfl]
    constructor
    · intro hplace
      exact ⟨dirty, .inr ⟨(Location.host.inj hplace).symm, rfl, rfl⟩⟩
    · rintro ⟨d, hheld | ⟨rfl, -, -⟩⟩
      · exact absurd ((h.resident reg q).2 ⟨d, hheld⟩) (hlocation q)
      · rfl
  · rw [if_neg hr, h.resident]
    refine exists_congr fun d => ⟨.inl, ?_⟩
    rintro (hheld | ⟨-, hreg, -⟩)
    · exact hheld
    · exact absurd hreg.symm hr

/-- Marking a host register as written. -/
theorem markDirty (h : c.Paired) (hlocation : c.location reg = .host host) :
    (c.updateSlot host (some reg) true).Paired ∧
      ∀ q r d, (c.updateSlot host (some reg) true).Held q r d ↔
        (q ≠ host ∧ c.Held q r d) ∨ (q = host ∧ r = reg ∧ d = true) := by
  obtain ⟨dirty, hheld⟩ := (h.resident reg host).1 hlocation
  have hslots (q : HostRegister) (r : GuestIndex) (d : Bool) :
      (c.updateSlot host (some reg) true).Held q r d ↔
        (q ≠ host ∧ c.Held q r d) ∨ (q = host ∧ r = reg ∧ d = true) := by
    by_cases hq : q = host
    · subst hq
      rw [held_updateSlot_self ⟨_, hheld, rfl⟩]
      simp [eq_comm]
    · rw [held_updateSlot_of_ne hq]
      simp [hq]
  refine ⟨⟨(hosts_updateSlot c host _ _).trans h.hosts, fun r q => ?_⟩, hslots⟩
  rw [location_updateSlot, h.resident]
  simp only [hslots]
  constructor
  · rintro ⟨d, hheld'⟩
    by_cases hq : q = host
    · subst hq
      exact ⟨true, .inr ⟨rfl, (h.held_unique hheld hheld').1.symm, rfl⟩⟩
    · exact ⟨d, .inl ⟨hq, hheld'⟩⟩
  · rintro ⟨d, ⟨-, hheld'⟩ | ⟨rfl, rfl, -⟩⟩
    · exact ⟨d, hheld'⟩
    · exact ⟨dirty, hheld⟩

/-- A guest register that is in no host register may live anywhere else. -/
theorem setLocation (h : c.Paired) (hlocation : ∀ q, c.location reg ≠ .host q) {place : Location}
    (hplace : ∀ q, place ≠ .host q) : (c.setLocation reg place).Paired := by
  refine ⟨h.hosts, fun r q => ?_⟩
  rw [location_setLocation]
  simp only [held_setLocation]
  split
  · next hr =>
    subst hr
    exact ⟨fun heq => absurd heq (hplace q),
      fun hheld => absurd ((h.resident reg q).2 hheld) (hlocation q)⟩
  · exact h.resident r q

end Paired

/-! ## The cache and the machine -/

variable {β : Type} {m n : HostMachine β}

/-- The value of a guest register, wherever it lives. -/
def value (c : RegisterCache) (m : HostMachine β) (reg : GuestIndex) : UInt32 :=
  match c.location reg with
  | .memory => m.env.state.get reg
  | .immediate value => value
  | .host host => m.getWord host

theorem value_of_memory (h : c.location reg = .memory) : c.value m reg = m.env.state.get reg := by
  rw [value, h]

theorem value_of_immediate {v : UInt32} (h : c.location reg = .immediate v) :
    c.value m reg = v := by
  rw [value, h]

theorem value_of_host (h : c.location reg = .host host) : c.value m reg = m.getWord host := by
  rw [value, h]

/-- The cache, the host registers and the guest state agree: a host register that was not written
holds what the guest state holds, and register zero is zero everywhere. -/
structure Consistent (c : RegisterCache) (m : HostMachine β) : Prop extends c.Paired where
  clean : ∀ host reg, c.Held host reg false → m.getWord host = m.env.state.get reg
  zeroWord : m.env.state.get 0 = 0
  zero : c.location zeroRegister = .immediate 0 ∨ ∃ host, c.Held host zeroRegister false
  context : m.get .context = Linkage.contextBase

namespace Consistent

theorem value_zero (h : c.Consistent m) : c.value m zeroRegister = 0 := by
  obtain hplace | ⟨host, hheld⟩ := h.zero
  · exact value_of_immediate hplace
  · rw [value_of_host ((h.resident _ host).2 ⟨false, hheld⟩), h.clean host _ hheld]
    exact h.zeroWord

/-- Register zero is never in a host register that was written. -/
theorem ne_zero_of_dirty (h : c.Consistent m) (hheld : c.Held host reg true) :
    reg ≠ zeroRegister := by
  rintro rfl
  have hplace := (h.resident _ host).2 ⟨true, hheld⟩
  obtain hzero | ⟨q, hclean⟩ := h.zero
  · rw [hzero] at hplace
    cases hplace
  · have hq := (h.resident _ q).2 ⟨false, hclean⟩
    rw [hplace] at hq
    cases hq
    cases (h.held_unique hheld hclean).2

/-- At the entry of a block everything is in the guest state. -/
theorem start (hhosts : c.slots.map (·.host) = HostRegister.allocationOrder)
    (hzero : m.env.state.get 0 = 0) (hcontext : m.get .context = Linkage.contextBase) :
    c.start.Consistent m := by
  have hplaces (r : GuestIndex) :
      c.start.location r = if r = zeroRegister then .immediate 0 else .memory := by
    change ((Vector.replicate 32 Location.memory).set 0 (.immediate 0))[r.val] = _
    rw [Vector.getElem_set, Vector.getElem_replicate]
    by_cases hr : r = zeroRegister
    · rw [if_pos hr]
      exact if_pos (congrArg Fin.val hr).symm
    · rw [if_neg hr]
      exact if_neg fun heq => hr (Fin.ext heq.symm)
  have hslots (q : HostRegister) (r : GuestIndex) (d : Bool) : ¬ c.start.Held q r d := by
    intro hheld
    obtain ⟨slot, -, heq⟩ := List.mem_map.1 hheld
    cases congrArg HostSlot.guest heq
  refine ⟨⟨?_, fun r q => ?_⟩, fun q r hheld => absurd hheld (hslots q r false), hzero,
    .inl (hplaces zeroRegister), hcontext⟩
  · rw [← hhosts, RegisterCache.start, List.map_map]
    rfl
  · rw [hplaces]
    constructor
    · intro hplace
      split at hplace <;> cases hplace
    · rintro ⟨d, hheld⟩
      exact absurd hheld (hslots q r d)

/-! ### Changes of the machine -/

/-- Only occupied host registers and the words of guest registers matter. -/
theorem congr (h : c.Consistent m)
    (hhosts : ∀ host reg dirty, c.Held host reg dirty → n.getWord host = m.getWord host)
    (hwords : ∀ reg : GuestIndex, n.env.state.get reg = m.env.state.get reg)
    (hcontext : n.get .context = m.get .context) :
    c.Consistent n ∧ ∀ reg, c.value n reg = c.value m reg := by
  refine ⟨⟨h.toPaired, fun host reg hheld => ?_, (hwords 0).trans h.zeroWord, h.zero,
    hcontext.trans h.context⟩, fun reg => ?_⟩
  · rw [hhosts host reg false hheld, hwords, h.clean host reg hheld]
  · cases hplace : c.location reg with
    | memory => rw [value_of_memory hplace, value_of_memory hplace, hwords]
    | immediate v => rw [value_of_immediate hplace, value_of_immediate hplace]
    | host host =>
      obtain ⟨dirty, hheld⟩ := (h.resident reg host).1 hplace
      rw [value_of_host hplace, value_of_host hplace, hhosts host reg dirty hheld]

/-- Writing a host register that holds no guest register. -/
theorem setWord_free (h : c.Consistent m) (hvalid : host.Valid) (hcontext : host ≠ .context)
    (hfree : ∀ reg dirty, ¬ c.Held host reg dirty) (v : UInt32) :
    c.Consistent (m.setWord host v) ∧ ∀ reg, c.value (m.setWord host v) reg = c.value m reg := by
  refine h.congr (fun q reg dirty hheld => ?_) (fun _ => rfl)
    (m.get_setWord_of_ne hvalid (by decide) hcontext v)
  have hne : host ≠ q := by
    rintro rfl
    exact hfree reg dirty hheld
  exact congrArg UInt64.toUInt32 (m.get_setWord_of_ne hvalid (h.valid hheld) hne v)

/-- Writing the host register of a guest register that is to be stored anyway. -/
theorem setWord_dirty (h : c.Consistent m) (hheld : c.Held host reg true) (v : UInt32) :
    c.Consistent (m.setWord host v) ∧
      ∀ r, c.value (m.setWord host v) r = if r = reg then v else c.value m r := by
  have hother (q : HostRegister) (hq : q.Valid) (hne : host ≠ q) :
      (m.setWord host v).getWord q = m.getWord q :=
    congrArg UInt64.toUInt32 (m.get_setWord_of_ne (h.valid hheld) hq hne v)
  have hcontext : host ≠ .context := by
    have hmem : host ∈ HostRegister.allocationOrder := h.mem_allocationOrder hheld
    -- No register of the cache has that role.
    rintro rfl
    exact absurd hmem (by decide)
  refine ⟨⟨h.toPaired, fun q r hclean => ?_, h.zeroWord, h.zero, ?_⟩, fun r => ?_⟩
  · have hne : host ≠ q := by
      rintro rfl
      cases (h.held_unique hheld hclean).2
    rw [hother q (h.valid hclean) hne]
    exact h.clean q r hclean
  · exact (m.get_setWord_of_ne (h.valid hheld) (by decide) hcontext v).trans h.context
  · split
    · next hr =>
      rw [hr, value_of_host ((h.resident reg host).2 ⟨true, hheld⟩), m.getWord_setWord_self]
    · next hr =>
      cases hplace : c.location r with
      | memory =>
        rw [value_of_memory hplace, value_of_memory hplace]
        rfl
      | immediate v => rw [value_of_immediate hplace, value_of_immediate hplace]
      | host q =>
        obtain ⟨dirty, hheld'⟩ := (h.resident r q).1 hplace
        have hne : host ≠ q := by
          rintro rfl
          exact hr (h.held_unique hheld' hheld).1
        rw [value_of_host hplace, value_of_host hplace, hother q (h.valid hheld') hne]

/-- Writing the state word of a guest register that lives elsewhere and is to be stored anyway. -/
theorem setSlot (h : c.Consistent m) (hreg : reg ≠ zeroRegister)
    (hplace : c.location reg ≠ .memory) (hdirty : ∀ host, ¬ c.Held host reg false) (v : UInt32) :
    c.Consistent (m.setSlot reg v) ∧ ∀ r, c.value (m.setSlot reg v) r = c.value m r := by
  have hother {r : GuestIndex} (hr : reg ≠ r) :
      (m.setSlot reg v).env.state.get r = m.env.state.get r :=
    State.get_set_of_ne _ (fun heq => hr (Fin.ext heq)) v
  refine ⟨⟨h.toPaired, fun q r hclean => ?_, (hother hreg).trans h.zeroWord, h.zero, h.context⟩,
    fun r => ?_⟩
  · rw [hother (r := r)]
    · exact h.clean q r hclean
    · rintro rfl
      exact hdirty q hclean
  · cases hr : c.location r with
    | memory =>
      rw [value_of_memory hr, value_of_memory hr, hother]
      rintro rfl
      exact hplace hr
    | immediate v => rw [value_of_immediate hr, value_of_immediate hr]
    | host q =>
      rw [value_of_host hr, value_of_host hr]
      rfl

/-! ### Changes of the cache -/

/-- Freeing a host register without storing it. -/
theorem unbind (h : c.Consistent m) (hlocation : c.location reg = .host host) :
    (c.unbind reg).Consistent m ∧
      ∀ r, (c.unbind reg).value m r = if r = reg then m.env.state.get reg else c.value m r := by
  obtain ⟨hpaired, hplaces, hslots⟩ := h.toPaired.unbind hlocation
  refine ⟨⟨hpaired, fun q r hheld => h.clean q r ((hslots q r false).1 hheld).2, h.zeroWord, ?_,
    h.context⟩, fun r => ?_⟩
  · by_cases hreg : reg = zeroRegister
    · exact .inl (by rw [hplaces, if_pos hreg, if_pos hreg])
    · refine h.zero.imp (fun hzero => ?_) fun ⟨q, hheld⟩ => ⟨q, (hslots q _ false).2 ⟨?_, hheld⟩⟩
      · rw [hplaces, if_neg hreg, hzero]
      · rintro rfl
        obtain ⟨dirty, hheld'⟩ := (h.resident reg q).1 hlocation
        exact hreg (h.held_unique hheld' hheld).1
  · have hplace := hplaces r
    by_cases hr : r = reg
    · subst hr
      rw [if_pos rfl] at hplace ⊢
      by_cases hzero : r = zeroRegister
      · subst hzero
        rw [if_pos rfl] at hplace
        rw [value_of_immediate hplace]
        exact h.zeroWord.symm
      · rw [if_neg hzero] at hplace
        exact value_of_memory hplace
    · rw [if_neg (Ne.symm hr)] at hplace
      rw [if_neg hr, value, value, hplace]

/-- Occupying a free host register, which takes over the value it holds. -/
theorem bindHost (h : c.Consistent m) {d : Bool} (hfree : ⟨host, none, d⟩ ∈ c.slots)
    (hlocation : ∀ q, c.location reg ≠ .host q)
    (hclean : dirty = false → m.getWord host = m.env.state.get reg)
    (hzero : reg = zeroRegister → dirty = false) :
    (c.bindHost host reg dirty).Consistent m ∧
      ∀ r, (c.bindHost host reg dirty).value m r =
        if r = reg then m.getWord host else c.value m r := by
  obtain ⟨hpaired, hplaces, hslots⟩ := h.toPaired.bindHost hfree hlocation dirty
  refine ⟨⟨hpaired, fun q r hheld => ?_, h.zeroWord, ?_, h.context⟩, fun r => ?_⟩
  · obtain hheld | ⟨rfl, rfl, hdirty⟩ := (hslots q r false).1 hheld
    · exact h.clean q r hheld
    · exact hclean hdirty.symm
  · by_cases hreg : reg = zeroRegister
    · exact .inr ⟨host, (hslots host _ false).2 (.inr ⟨rfl, hreg.symm, (hzero hreg).symm⟩)⟩
    · refine h.zero.imp (fun hzero => ?_) fun ⟨q, hheld⟩ => ⟨q, (hslots q _ false).2 (.inl hheld)⟩
      rw [hplaces, if_neg hreg, hzero]
  · have hplace := hplaces r
    by_cases hr : r = reg
    · subst hr
      rw [if_pos rfl] at hplace ⊢
      exact value_of_host hplace
    · rw [if_neg (Ne.symm hr)] at hplace
      rw [if_neg hr, value, value, hplace]

/-- Marking a host register as written. -/
theorem markDirty (h : c.Consistent m) (hlocation : c.location reg = .host host)
    (hreg : reg ≠ zeroRegister) :
    (c.updateSlot host (some reg) true).Consistent m := by
  obtain ⟨hpaired, hslots⟩ := h.toPaired.markDirty hlocation
  refine ⟨hpaired, fun q r hheld => ?_, h.zeroWord, ?_, h.context⟩
  · obtain ⟨-, hheld⟩ | ⟨-, -, hdirty⟩ := (hslots q r false).1 hheld
    · exact h.clean q r hheld
    · cases hdirty
  · refine h.zero.imp_right fun ⟨q, hheld⟩ => ⟨q, (hslots q _ false).2 (.inl ⟨?_, hheld⟩)⟩
    rintro rfl
    obtain ⟨dirty, hheld'⟩ := (h.resident reg q).1 hlocation
    exact hreg (h.held_unique hheld' hheld).1

/-- A guest register that is in no host register may come to live anywhere else. -/
theorem setLocation (h : c.Consistent m) (hlocation : ∀ q, c.location reg ≠ .host q)
    (place : Location) (hplace : ∀ q, place ≠ .host q) (hreg : reg ≠ zeroRegister) :
    (c.setLocation reg place).Consistent m ∧
      ∀ r, r ≠ reg → (c.setLocation reg place).value m r = c.value m r := by
  refine ⟨⟨h.toPaired.setLocation hlocation hplace, h.clean, h.zeroWord, ?_, h.context⟩,
    fun r hr => ?_⟩
  · refine h.zero.imp_left fun hzero => ?_
    rw [location_setLocation, if_neg hreg, hzero]
  · have hother := location_setLocation c reg place r
    rw [if_neg (Ne.symm hr)] at hother
    rw [value, value, hother]

/-- Recording a constant. -/
theorem setImmediate (h : c.Consistent m) (hreg : reg ≠ zeroRegister) (v : UInt32) :
    (c.setImmediate reg v).Consistent m ∧
      ∀ r, (c.setImmediate reg v).value m r = if r = reg then v else c.value m r := by
  have hset : c.setImmediate reg v = (c.unbind reg).setLocation reg (.immediate v) := if_neg hreg
  have hvalue : (c.setImmediate reg v).value m reg = v := by
    refine value_of_immediate ?_
    rw [hset, location_setLocation, if_pos rfl]
  -- The host register is freed first, and what it held is not stored, for it is overwritten.
  have hfreed : (c.unbind reg).Consistent m ∧ (∀ q, (c.unbind reg).location reg ≠ .host q) ∧
      ∀ r, r ≠ reg → (c.unbind reg).value m r = c.value m r := by
    cases hplace : c.location reg with
    | host host =>
      obtain ⟨hconsistent, hvalues⟩ := h.unbind hplace
      refine ⟨hconsistent, fun q => ?_, fun r hr => (hvalues r).trans (if_neg hr)⟩
      rw [(h.toPaired.unbind hplace).2.1, if_pos rfl]
      split <;> simp
    | _ =>
      have hsame : c.unbind reg = c := by
        rw [RegisterCache.unbind, hplace]
      rw [hsame, hplace]
      exact ⟨h, by simp, fun _ _ => rfl⟩
  obtain ⟨hconsistent, hnowhere, hothers⟩ := hfreed
  obtain ⟨hresult, hsame⟩ := hconsistent.setLocation hnowhere (.immediate v) (by simp) hreg
  refine ⟨hset ▸ hresult, fun r => ?_⟩
  split
  · next hr => rw [hr, hvalue]
  · next hr => rw [hset, hsame r hr, hothers r hr]

end Consistent

end RegisterCache

end Recompiler
