import Recompiler.Proofs.Block.CacheOperation
import Recompiler.Proofs.Block.GuardedAccess

/-!
# Loads and stores

A guest load or store as a whole, its registers included. The code that is emitted for it does what
the helper of the access does, whichever way it goes: directly at a constant address, directly after
checks, or by asking the bus.

* `MemoryOp.Agrees`: the guest after an access is as the helper leaves it.
* `Surroundings.Guards`: the fast regions of a lowering are those of the board behind the machine.
* `Lower.Sends`, `Lower.sends_of_firstHit`: where an access goes whose address is known at run time.
* `Lower.constantAccess_spec`: constant addresses.
* `Lower.loadStore_agrees`: all loads and stores.
-/

namespace Recompiler

open HostMachine

variable {β γ : Type}

/-! ## The guest after an access -/

namespace MemoryOp

/-- The helpers of loads and stores leave the guest processor alone, and do not look at it. -/
theorem asked_congr [Bus β] (op : MemoryOp) (addr value : UInt32) {e e' : Environment β}
    (hbus : e'.bus = e.bus) (hevents : e'.events = e.events) :
    (op.asked addr value e').state = e'.state ∧
      (op.asked addr value e').bus = (op.asked addr value e).bus ∧
      (op.asked addr value e').events = (op.asked addr value e).events ∧
      ∀ kind, (e'.load kind addr).1 = (e.load kind addr).1 := by
  obtain ⟨state, bus, events⟩ := e
  obtain ⟨state', bus', events'⟩ := e'
  cases hbus
  cases hevents
  have hload (kind : LoadKind) :
      ((⟨state', bus, events⟩ : Environment β).load kind addr).1 =
        ((⟨state, bus, events⟩ : Environment β).load kind addr).1 := by
    simp only [Environment.load, Environment.read]
    rcases Bus.read kind.width addr bus with ⟨_ | _, _⟩ <;> rfl
  cases op with
  | load kind =>
    simp only [asked, Environment.load, Environment.read] at hload ⊢
    rcases Bus.read kind.width addr bus with ⟨_ | _, _⟩ <;> exact ⟨rfl, rfl, rfl, hload⟩
  | store width =>
    simp only [asked, Environment.write]
    rcases Bus.write width addr (width.truncate value) bus with ⟨_ | _, _⟩ <;>
      exact ⟨rfl, rfl, rfl, hload⟩

/-- The guest after an access is as the helper leaves it: memory and events are the same, a loaded
value is in its register, and all other registers keep their values. -/
structure Agrees [Bus β] (op : MemoryOp) (rt : GuestIndex) (addr : UInt32) (c : RegisterCache)
    (m : HostMachine β) (d : RegisterCache) (n : HostMachine β) : Prop where
  consistent : d.Consistent n
  bus : n.env.bus = (op.asked addr (c.value m rt) m.env).bus
  events : n.env.events = (op.asked addr (c.value m rt) m.env).events
  loaded : ∀ kind, op = load kind → d.value n rt = (m.env.load kind addr).1
  others : ∀ r, (∀ kind, op = load kind → r ≠ rt) → d.value n r = c.value m r

variable [Bus β] {op : MemoryOp} {value : HostRegister} {addr : UInt32} {rt : GuestIndex}
  {c : RegisterCache} {m n : HostMachine β}

/-- An access to host registers, as the guest registers in them see it. -/
theorem Accesses.agrees (h : op.Accesses value addr m n) (hm : c.Consistent m)
    (hheld : ∀ kind, op = load kind → c.Held value rt true)
    (hword : ∀ width, op = store width → m.getWord value = c.value m rt) :
    op.Agrees rt addr c m c n := by
  have hstate : n.env.state = m.env.state := by
    rw [h.keeps.env]
    exact (asked_congr op addr _ rfl rfl).1
  -- No other host register of the cache is touched, since the helpers clobber none of them.
  have hkept {host : HostRegister} {reg : GuestIndex} {dirty : Bool} (hr : c.Held host reg dirty)
      (hne : ∀ kind, op = load kind → host ≠ value) : n.getWord host = m.getWord host := by
    refine congrArg UInt64.toUInt32 (h.keeps.registers host (hm.valid hr) ?_)
    have hvolatile : host ∉ HostRegister.volatile := fun hmem =>
      ne_volatile (hm.mem_allocationOrder hr) hmem rfl
    cases op with
    | load kind =>
      rw [lost, List.mem_cons, not_or]
      exact ⟨hne kind rfl, hvolatile⟩
    | store width => exact hvolatile
  -- A load overwrites the register that it was mapped to, a store none.
  cases op with
  | load kind =>
    have hvalue := hheld kind rfl
    obtain ⟨hloaded, hvalues⟩ := hm.setWord_dirty hvalue (m.env.load kind addr).1
    have hhosts (host : HostRegister) (reg : GuestIndex) (dirty : Bool)
        (hr : c.Held host reg dirty) :
        n.getWord host = (m.setWord value (m.env.load kind addr).1).getWord host := by
      by_cases hhost : host = value
      · rw [hhost, getWord_setWord_self, h.loaded kind rfl]
      · rw [hkept hr fun _ _ => hhost]
        exact (congrArg UInt64.toUInt32
          (m.get_setWord_of_ne (hm.valid hvalue) (hm.valid hr) (Ne.symm hhost) _)).symm
    have hcontext : n.get .context = (m.setWord value (m.env.load kind addr).1).get .context := by
      rw [hloaded.context]
      refine (h.keeps.registers _ (by decide) ?_).trans hm.context
      rw [lost, List.mem_cons, not_or]
      refine ⟨fun heq => ?_, by decide⟩
      have hmem : value ∈ HostRegister.allocationOrder := hm.mem_allocationOrder hvalue
      exact absurd hmem (heq ▸ by decide)
    obtain ⟨hresult, hsame⟩ := hloaded.congr hhosts (fun reg => by rw [hstate]; rfl) hcontext
    refine ⟨hresult, congrArg Environment.bus h.keeps.env, congrArg Environment.events h.keeps.env,
      fun kind' hop => ?_, fun r hr => ?_⟩
    · cases hop
      rw [hsame, hvalues, if_pos rfl]
    · rw [hsame, hvalues, if_neg (hr kind rfl)]
  | store width =>
    have hloads (kind : LoadKind) (hop : store width = load kind) : False := by cases hop
    obtain ⟨hresult, hsame⟩ := hm.congr (n := n)
      (fun host reg dirty hr => hkept hr fun kind hop => (hloads kind hop).elim)
      (fun reg => by rw [hstate])
      (h.keeps.registers .context (by decide) (by decide : _ ∉ HostRegister.volatile))
    refine ⟨hresult, ?_, ?_, fun kind hop => (hloads kind hop).elim, fun r _ => hsame r⟩
    · rw [h.keeps.env, ← hword width rfl]
      rfl
    · rw [h.keeps.env, ← hword width rfl]
      rfl

/-- What is going to be done with the register of an access. -/
def access : MemoryOp → Access
  | load _ => .write
  | store _ => .read

theorem mem_lost_access {r : GuestIndex} (h : r ∈ op.access.lost rt) :
    ∃ kind, op = load kind ∧ r = rt := by
  cases op with
  | load kind =>
    rw [access, Access.lost, if_pos (.inl rfl)] at h
    exact ⟨kind, rfl, List.mem_singleton.1 h⟩
  | store width =>
    rw [access, Access.lost_read] at h
    cases h

/-- Moving guest registers before an access makes no difference. -/
theorem Agrees.of_moves {lost : List GuestIndex} {t u : Lowering γ} {d : RegisterCache}
    {p : HostMachine β} (hmoves : t.Moves lost m u n)
    (hlost : ∀ r ∈ lost, ∃ kind, op = load kind ∧ r = rt)
    (h : op.Agrees rt addr u.registers n d p) : op.Agrees rt addr t.registers m d p := by
  have hsame := asked_congr op addr (t.registers.value m rt) hmoves.transfers.bus
    hmoves.transfers.events
  have hvalue : op.asked addr (u.registers.value n rt) n.env =
      op.asked addr (t.registers.value m rt) n.env := by
    cases op with
    | load kind => rfl
    | store width =>
      rw [hmoves.value rt fun hmem => ?_]
      obtain ⟨kind, hop, -⟩ := hlost rt hmem
      cases hop
  refine ⟨h.consistent, ?_, ?_, fun kind hop => ?_, fun r hr => ?_⟩
  · rw [h.bus, hvalue, hsame.2.1]
  · rw [h.events, hvalue, hsame.2.2.1]
  · rw [h.loaded kind hop, hsame.2.2.2 kind]
  · rw [h.others r hr, hmoves.value r fun hmem => ?_]
    obtain ⟨kind, hop, heq⟩ := hlost r hmem
    exact hr kind hop heq

end MemoryOp

/-! ## Regions of the board -/

namespace Surroundings

/-- The lowering knows the regions of the board behind the machine. The options are accepted for
them, and ask for guarded accesses. -/
structure Guards (s : Surroundings) (m : HostMachine Board) : Prop where
  hosted : m.env.bus.Hosted
  regions : s.regions = m.env.bus.regions
  accepted : s.options.validate s.regions = .ok ()
  guarded : s.options.fastMemory = false
  main : ∀ r, s.regions[0]? = some r → m.get .memoryBase = r.pointer

/-- The lowering knows the regions of the board behind the machine, and the options are accepted for
them. -/
structure Maps (s : Surroundings) (m : HostMachine Board) : Prop where
  hosted : m.env.bus.Hosted
  regions : s.regions = m.env.bus.regions
  accepted : s.options.validate s.regions = .ok ()
  main : ∀ r, s.regions[0]? = some r → m.get .memoryBase = r.pointer

/-- No region reaches so far past the end of the address space that it comes round to the access. -/
def Clear (s : Surroundings) (addr : UInt32) (size : Nat) : Prop :=
  ∀ r ∈ s.regions, addr < r.start → r.stop < UInt32.size + addr.toNat + size

variable {s : Surroundings} {m n : HostMachine Board}

theorem Guards.maps (h : s.Guards m) : s.Maps m :=
  ⟨h.hosted, h.regions, h.accepted, h.main⟩

theorem Maps.congr (h : s.Maps m) (hbus : n.env.bus = m.env.bus)
    (hmain : n.get .memoryBase = m.get .memoryBase) : s.Maps n where
  hosted := hbus ▸ h.hosted
  regions := hbus ▸ h.regions
  accepted := h.accepted
  main r hr := hmain.trans (h.main r hr)

theorem Maps.apart (h : s.Maps m) : m.env.bus.Apart :=
  Board.apart_of_validate h.hosted (h.regions ▸ h.accepted)

theorem Guards.apart (h : s.Guards m) : m.env.bus.Apart :=
  h.maps.apart

end Surroundings

theorem MemoryOp.size_le (op : MemoryOp) : op.size ≤ 4 := by
  obtain ⟨kind⟩ | ⟨width⟩ := op
  · cases kind <;> decide
  · cases width <;> decide

namespace Lower

variable {s : Surroundings} {t : Lowering γ} {m : HostMachine Board} {op : MemoryOp}
  {addr : UInt32} {rt : GuestIndex}

/-! ## Addresses known at run time -/

/-- The code for an access to the address in the scratch register does at `addr` what the helper does
at `target`. -/
def Sends (γ : Type) (s : Surroundings) (op : MemoryOp) (addr target : UInt32) : Prop :=
  ∀ (m : HostMachine Board) (value : HostRegister), s.Maps m →
    value ∈ HostRegister.allocationOrder → m.get .context = Linkage.contextBase →
      m.get .scratch = addr.toUInt64 → ∀ t : Lowering γ, ∃ u n,
        exec (dynamicAccess op value) s t = (.ok (), u) ∧ u.registers = t.registers ∧
          t.Carries m u n ∧ op.Accesses value target m n

/-- A guarded access goes to its own address, if the first region whose check finds a place holds the
access there. -/
theorem sends_of_firstHit (hguarded : s.options.fastMemory = false)
    (hplace : ∀ r offset, firstHit s.regions.zipIdx addr op.size = some (r, offset) →
      r.1.offset? addr op.size = some offset) : Sends γ s op addr addr := by
  intro m value hmaps hvalue hcontext haddr t
  have hword : m.getWord .scratch = addr := getWord_of_get haddr
  -- The region with the first hit gives the place, and the place is where the bus has the address.
  have hoffers : Offers op value (op.Accesses value addr m) addr s.regions.zipIdx m := by
    refine ⟨fun r hr hzero => ?_, fun r offset hhit p fast hkeeps haims => ?_⟩
    · have hfirst := List.mem_zipIdx_iff_getElem?.1 hr
      rw [hzero] at hfirst
      exact hmaps.main _ hfirst
    · have hregion := List.mem_zipIdx_iff_getElem?.1 (firstHit_eq_some hhit).1
      rw [hmaps.regions] at hregion
      obtain ⟨is, hdirect, q, hruns, haccess⟩ := op.accesses_direct (hkeeps.env ▸ hmaps.hosted)
        (hkeeps.env ▸ hmaps.apart) (hkeeps.env ▸ hregion) (hplace r offset hhit) hvalue haims
      exact ⟨is, hdirect, q, hruns, haccess.of_keeps hvalue hkeeps⟩
  unfold dynamicAccess
  rw [exec_read_bind]
  cases hregions : s.regions with
  | nil =>
    obtain ⟨is, hslow, n, hruns, haccess⟩ := op.accesses_slow hcontext hvalue hword
    exact ⟨_, n, exec_emitChecked hslow s t, rfl, .instructions rfl hruns, haccess⟩
  | cons main rest =>
    dsimp only
    rw [if_neg (by simp [hguarded]), ← hregions]
    have hslow (p : HostMachine Board) (hkeeps : m.Keeps [.scratch] p)
        (hword : p.getWord .scratch = addr) :
        ∃ is, op.slow value = .ok is ∧ ∃ q, Runs is p q ∧ op.Accesses value addr m q := by
      obtain ⟨is, hcall, q, hruns, haccess⟩ := op.accesses_slow
        ((hkeeps.registers _ (by decide) (by decide)).trans hcontext) hvalue hword
      exact ⟨is, hcall, q, hruns, haccess.of_keeps hvalue (hkeeps.mono (by simp))⟩
    obtain ⟨code, labels, n, hexec, hcarries, haccess⟩ :=
      guardedAccess_spec hoffers (fun _ => hslow) haddr s t
    exact ⟨_, n, hexec, rfl, hcarries, haccess⟩

theorem sends_of_clear (hguarded : s.options.fastMemory = false) (hclear : s.Clear addr op.size) :
    Sends γ s op addr addr := by
  refine sends_of_firstHit hguarded fun r offset hhit => ?_
  obtain ⟨hr, hwrapped⟩ := firstHit_eq_some hhit
  have hregion := List.mem_of_getElem? (List.mem_zipIdx_iff_getElem?.1 hr)
  rwa [FastRegion.wrapped?_eq op.size_le (hclear _ hregion)] at hwrapped

/-! ## Constant addresses -/

theorem findRegion_eq_some {regions : List FastRegion} {size n : Nat} {region : FastRegion}
    {offset : UInt32} (h : findRegion regions addr size = some (n, region, offset)) :
    regions[n]? = some region ∧ region.offset? addr size = some offset := by
  obtain ⟨⟨r, k⟩, hr, hfound⟩ := List.exists_of_findSome?_eq_some h
  obtain ⟨o, hoffset, heq⟩ := Option.map_eq_some_iff.1 hfound
  cases heq
  exact ⟨List.mem_zipIdx_iff_getElem?.1 hr, hoffset⟩

/-- The fast address of a known place in region number `n`. -/
def placeAddress (n : Nat) (offset : UInt32) : FastAddress :=
  if n = 0 then if offset < 0x80000000 then .fixed offset else .indexed .scratch
  else .based .pointer .scratch

/-- The instructions that prepare the address of a known place in region number `n`. -/
def placeInstructions (n : Nat) (region : FastRegion) (offset : UInt32) : List HostInstruction :=
  if n = 0 ∧ offset < 0x80000000 then []
  else Sequence.moveImmediate .scratch offset ++
    if n = 0 then [] else Sequence.movePointer .pointer region.pointer

theorem exec_constantAddress (n : Nat) (region : FastRegion) (offset : UInt32) (s : Surroundings)
    (t : Lowering γ) :
    exec (constantAddress n region offset) s t = (.ok (placeAddress n offset),
      { t with code := t.code ++ (placeInstructions n region offset).map Item.instruction }) := by
  have hnothing : t.code ++ (([] : List HostInstruction).map Item.instruction) = t.code :=
    Array.appendList_nil
  unfold constantAddress placeAddress placeInstructions
  by_cases hn : n = 0
  · by_cases hoffset : offset < 0x80000000
    · simp only [hn, hoffset, and_self, if_true, hnothing, exec_pure]
    · simp only [hn, hoffset, and_false, if_true, if_false, exec_bind, exec_emit, exec_pure,
        List.append_nil]
  · simp only [hn, false_and, if_false, exec_bind, exec_emit, exec_pure, List.map_append,
      appendList_append]

/-- The prepared address is that of the place. -/
theorem runs_placeInstructions [Bus β] {m : HostMachine β} {n : Nat} {region : FastRegion}
    (hmain : n = 0 → m.get .memoryBase = region.pointer) (offset : UInt32) :
    ∃ p, Runs (placeInstructions n region offset) m p ∧
      (placeAddress n offset).Aims p (region.pointer + offset.toUInt64) ∧
      Keeps [.scratch, .pointer] m p := by
  unfold placeAddress placeInstructions
  have hscratch : Runs (Sequence.moveImmediate .scratch offset) m (m.setWord .scratch offset) :=
    .one (by decide : HostRegister.scratch.Valid) rfl
  have hkeeps : Keeps [.scratch, .pointer] m (m.setWord .scratch offset) :=
    .setWord (by decide) (by decide) m _
  -- The main region is addressed from a register of its own, by a displacement if that is possible.
  by_cases hn : n = 0
  · by_cases hoffset : offset < 0x80000000
    · rw [if_pos ⟨hn, hoffset⟩, if_pos hn, if_pos hoffset]
      exact ⟨m, rfl, FastAddress.aims_fixed (hmain hn) hoffset, .refl _ m⟩
    · rw [if_neg fun h => hoffset h.2, if_pos hn, if_neg hoffset, if_pos hn, List.append_nil]
      refine ⟨_, hscratch, FastAddress.aims_indexed ?_ (get_setWord_self m _ _), hkeeps⟩
      rw [get_setWord_of_ne m (by decide) (by decide) (by decide), hmain hn]
  · rw [if_neg fun h => hn h.1, if_neg hn, if_neg hn]
    have hpointer : Runs (Sequence.movePointer .pointer region.pointer) (m.setWord .scratch offset)
        ((m.setWord .scratch offset).set .pointer region.pointer) :=
      .one (by decide : HostRegister.pointer.Valid) rfl
    refine ⟨_, hscratch.append hpointer, FastAddress.aims_based (get_set_self _ _ _) ?_,
      hkeeps.trans (.set (by decide) (by decide) _ _)⟩
    rw [get_set_of_ne _ (by decide) (by decide) (by decide)]
    exact get_setWord_self m _ _

/-- The register of an access in a host register, and an access to that. -/
theorem agrees_of_mapped {u : Lowering γ} {n p : HostMachine Board} {value : HostRegister}
    (hrt : ∀ kind, op = .load kind → rt ≠ zeroRegister)
    (hmoves : t.Moves (op.access.lost rt) m u n)
    (hmapped : u.registers.Mapped n rt op.access (t.registers.value m rt) value)
    (h : op.Accesses value addr n p) : op.Agrees rt addr t.registers m u.registers p := by
  refine .of_moves hmoves (fun r hr => MemoryOp.mem_lost_access hr)
    (h.agrees hmoves.consistent (fun kind hop => ?_) fun width hop => ?_)
  · cases hop
    exact hmapped.dirty (hrt kind rfl) rfl
  · cases hop
    rw [hmapped.value nofun, hmoves.value rt (by simp [MemoryOp.access])]

theorem mem_allocationOrder_of_mapped (op : MemoryOp) {c : RegisterCache} {n : HostMachine Board}
    {v : UInt32} {value : HostRegister} (hrt : ∀ kind, op = .load kind → rt ≠ zeroRegister) (h : c.Paired)
    (hmapped : c.Mapped n rt op.access v value) : value ∈ HostRegister.allocationOrder := by
  obtain ⟨hzero, hwrites, -⟩ | hplace := hmapped.place
  · cases op with
    | load kind => exact absurd hzero (hrt kind rfl)
    | store width => cases hwrites
  · obtain ⟨dirty, hheld⟩ := (h.resident rt value).1 hplace
    exact h.mem_allocationOrder hheld

/-- An access to a constant address that a region holds. -/
theorem constantAccess_fast (hmaps : s.Maps m) (h : t.registers.Consistent m)
    (hunlocked : ∀ r : GuestIndex, t.registers.locked.get r = false)
    (hrt : ∀ kind, op = .load kind → rt ≠ zeroRegister) {n : Nat} {region : FastRegion}
    {offset : UInt32} (hfind : findRegion s.regions addr op.size = some (n, region, offset)) :
    ∃ u p, exec (map rt op.access >>= fun value => constantAddress n region offset >>=
        fun fast => emitChecked (op.direct value fast)) s t = (.ok (), u) ∧
      t.Carries m u p ∧ op.Agrees rt addr t.registers m u.registers p := by
  obtain ⟨hregion, hoffset⟩ := findRegion_eq_some hfind
  obtain ⟨value, u₁, m₁, hmap, hmoves, -, hmapped⟩ :=
    moves_map h (show ([] : List GuestIndex).length ≤ 3 by simp)
    (fun r hr => by simp [hunlocked r] at hr) s rt op.access
  have hvalue := mem_allocationOrder_of_mapped op hrt hmoves.consistent.toPaired hmapped
  have hmaps₁ := hmaps.congr hmoves.transfers.bus
    (congrArg Frame.memoryBase hmoves.transfers.frame)
  -- The address is prepared in registers that are not in the cache.
  obtain ⟨m₂, hprepare, haims, hkeeps⟩ := runs_placeInstructions (m := m₁) (n := n)
    (fun hn => hmaps₁.main region (hn ▸ hregion)) offset
  have hmaps₂ := hmaps₁.congr (congrArg Environment.bus hkeeps.env)
    (hkeeps.registers .memoryBase (by decide) (by decide))
  obtain ⟨is, hdirect, p, hruns, haccess⟩ := op.accesses_direct hmaps₂.hosted hmaps₂.apart
    (hmaps₂.regions ▸ hregion) hoffset hvalue haims
  have hexec : exec (map rt op.access >>= fun value => constantAddress n region offset >>=
      fun fast => emitChecked (op.direct value fast)) s t = (.ok (), { u₁ with
        code := u₁.code ++ (placeInstructions n region offset ++ is).map Item.instruction }) := by
    rw [exec_bind_of_ok hmap, exec_bind_of_ok (exec_constantAddress ..),
      exec_emitChecked hdirect, List.map_append, appendList_append]
  have hagrees := agrees_of_mapped hrt hmoves hmapped (haccess.of_keeps hvalue hkeeps)
  exact ⟨_, p, hexec, hmoves.carries.trans (.instructions rfl (hprepare.append hruns)), hagrees⟩

/-- A store to a constant address outside of all regions. -/
theorem constantStore_slow {width : Width} (h : t.registers.Consistent m)
    (hunlocked : ∀ r : GuestIndex, t.registers.locked.get r = false) (addr : UInt32)
    (rt : GuestIndex) (s : Surroundings) :
    ∃ u p, exec (map rt .read >>= fun value => emit (Sequence.moveImmediate .scratch addr) >>=
        fun _ => emitChecked ((MemoryOp.store width).slow value)) s t = (.ok (), u) ∧
      t.Carries m u p ∧
      (MemoryOp.store width).Agrees rt addr t.registers m u.registers p := by
  obtain ⟨value, u₁, m₁, hmap, hmoves, -, hmapped⟩ :=
    moves_map h (show ([] : List GuestIndex).length ≤ 3 by simp)
    (fun r hr => by simp [hunlocked r] at hr) s rt .read
  have hvalue := mem_allocationOrder_of_mapped (.store width) nofun
    hmoves.consistent.toPaired hmapped
  have hscratch : Runs (Sequence.moveImmediate .scratch addr) m₁ (m₁.setWord .scratch addr) :=
    .one (by decide : HostRegister.scratch.Valid) rfl
  have hkeeps : Keeps [.scratch, .pointer] m₁ (m₁.setWord .scratch addr) :=
    .setWord (by decide) (by decide) m₁ _
  obtain ⟨is, hslow, p, hruns, haccess⟩ := (MemoryOp.store width).accesses_slow
    ((hkeeps.registers .context (by decide) (by decide)).trans hmoves.consistent.context) hvalue
    (getWord_setWord_self m₁ _ addr)
  refine ⟨{ u₁ with code := u₁.code ++
      (Sequence.moveImmediate .scratch addr ++ is).map Item.instruction }, p, ?_,
    hmoves.carries.trans (.instructions rfl (hscratch.append hruns)),
    agrees_of_mapped (u := u₁) nofun hmoves hmapped (haccess.of_keeps hvalue hkeeps)⟩
  rw [exec_bind_of_ok hmap, exec_bind_of_ok (exec_emit ..), exec_emitChecked hslow,
    List.map_append, appendList_append]

/-- A load from a constant address outside of all regions. The register is mapped after the call. -/
theorem constantLoad_slow (kind : LoadKind) (h : t.registers.Consistent m)
    (hunlocked : ∀ r : GuestIndex, t.registers.locked.get r = false) (addr : UInt32)
    (hrt : rt ≠ zeroRegister) (s : Surroundings) :
    ∃ u p, exec (emit (Sequence.moveImmediate .scratch addr) >>= fun _ =>
        emitChecked (Sequence.call (Helper.load kind).address [.context, .register .scratch]) >>=
          fun _ => map rt .write >>= fun value => emit (Sequence.move value .scratch)) s t =
        (.ok (), u) ∧
      t.Carries m u p ∧
      (MemoryOp.load kind).Agrees rt addr t.registers m u.registers p := by
  have hscratch : Runs (Sequence.moveImmediate .scratch addr) m (m.setWord .scratch addr) :=
    .one (by decide : HostRegister.scratch.Valid) rfl
  have hchanged : Keeps HostRegister.volatile m (m.setWord .scratch addr) :=
    .setWord (by decide) (by decide) m _
  -- The call clobbers volatile registers, of which none is in the cache.
  obtain ⟨is, hcall, m₁, hruns, hloaded, hkeeps⟩ := Sequence.runs_loadHelper
    ((hchanged.registers .context (by decide) (by decide)).trans h.context) kind
  rw [getWord_setWord_self] at hloaded hkeeps
  have hstate : m₁.env.state = m.env.state := by
    rw [hkeeps.env]
    exact ((MemoryOp.load kind).asked_congr addr 0 rfl rfl).1
  have hregisters (r : HostRegister) (hr : r.Valid) (hnot : r ∉ HostRegister.volatile) :
      m₁.get r = m.get r :=
    (hkeeps.registers r hr hnot).trans (hchanged.registers r hr hnot)
  obtain ⟨hconsistent, hvalues⟩ := h.congr (n := m₁)
    (fun host reg dirty hheld => congrArg UInt64.toUInt32 (hregisters host (h.valid hheld)
      fun hmem => MemoryOp.ne_volatile (h.mem_allocationOrder hheld) hmem rfl))
    (fun reg => by rw [hstate]) (hregisters .context (by decide) (by decide))
  let t₁ : Lowering γ := { t with
    code := t.code ++ (Sequence.moveImmediate .scratch addr ++ is).map Item.instruction }
  -- The target gets a host register, by which the loaded word in the scratch register is not lost.
  obtain ⟨value, u, m₂, hmap, hmoves, -, hmapped⟩ := moves_map (t := t₁) hconsistent
    (show ([] : List GuestIndex).length ≤ 3 by simp) (fun r hr => by simp [t₁, hunlocked r] at hr)
    s rt .write
  have hheld := hmapped.dirty hrt rfl
  have hvalue : value ∈ HostRegister.allocationOrder := hmoves.consistent.mem_allocationOrder hheld
  have hword : m₂.getWord .scratch = (m.env.load kind addr).1 := by
    refine (congrArg UInt64.toUInt32 (hmoves.transfers.registers .scratch (by decide) (by decide)
      fun _ hmem => ?_)).trans hloaded
    exact hrt (List.mem_singleton.1 (by simpa [Access.lost] using hmem)).symm
  have hmove : Runs (Sequence.move value .scratch) m₂ (m₂.setWord value (m₂.getWord .scratch)) := by
    rw [Sequence.move, if_neg (MemoryOp.ne_volatile hvalue (by decide))]
    exact .one ⟨HostRegister.valid_of_mem_allocationOrder hvalue, by decide⟩ rfl
  obtain ⟨hresult, hsame⟩ := hmoves.consistent.setWord_dirty hheld (m₂.getWord .scratch)
  have hcarries : t.Carries m t₁ m₁ := .instructions rfl (hscratch.append hruns)
  refine ⟨{ u with code := u.code ++ (Sequence.move value .scratch).map Item.instruction }, _, ?_,
    (hcarries.trans hmoves.carries).trans (.instructions rfl hmove),
    hresult, ?_, ?_, fun kind' hop => ?_, fun r hr => ?_⟩
  · have hcode : exec (emitChecked (Sequence.call (Helper.load kind).address
        [.context, .register .scratch])) s { t with
          code := t.code ++ (Sequence.moveImmediate .scratch addr).map Item.instruction } =
        (.ok (), t₁) := by
      rw [exec_emitChecked hcall]
      simp only [t₁, List.map_append, appendList_append]
    rw [exec_bind_of_ok (exec_emit ..), exec_bind_of_ok hcode, exec_bind_of_ok hmap, exec_emit]
  · exact hmoves.transfers.bus.trans (congrArg Environment.bus hkeeps.env)
  · exact hmoves.transfers.events.trans (congrArg Environment.events hkeeps.env)
  · cases hop
    rw [hsame, if_pos rfl, hword]
  · rw [hsame, if_neg (hr kind rfl), hmoves.value r fun hmem => hr kind rfl ?_, hvalues r]
    simpa [Access.lost] using hmem

/-- An access to a constant address. -/
theorem constantAccess_spec (hmaps : s.Maps m) (h : t.registers.Consistent m)
    (hunlocked : ∀ r : GuestIndex, t.registers.locked.get r = false) (addr : UInt32)
    (hrt : ∀ kind, op = .load kind → rt ≠ zeroRegister) :
    ∃ u n, exec (constantAccess op rt addr) s t = (.ok (), u) ∧ t.Carries m u n ∧
      op.Agrees rt addr t.registers m u.registers n := by
  unfold constantAccess
  rw [exec_read_bind]
  cases hfind : findRegion s.regions addr op.size with
  | some place =>
    obtain ⟨n, region, offset⟩ := place
    have hfast := constantAccess_fast hmaps h hunlocked hrt hfind
    cases op with
    | load kind => exact hfast
    | store width => exact hfast
  | none =>
    cases op with
    | load kind => exact constantLoad_slow kind h hunlocked addr (hrt kind rfl) s
    | store width => exact constantStore_slow h hunlocked addr rt s

/-! ## Loads and stores -/

/-- The locks that were set, and those before. -/
theorem mem_of_locked {c : RegisterCache} {reg r : GuestIndex}
    (h : (c.lock reg).locked.get r = true) : r = reg ∨ c.locked.get r = true := by
  change (c.locked.set reg true)[r.val] = true at h
  rw [Vector.getElem_set] at h
  split at h
  · next heq => exact .inl (Fin.ext heq.symm)
  · exact .inr h

theorem mem_of_locked_pair {c : RegisterCache} (h : ∀ r : GuestIndex, c.locked.get r = false)
    (reg reg' r : GuestIndex) (hr : ((c.lock reg).lock reg').locked.get r = true) :
    r ∈ [reg, reg'] := by
  rcases mem_of_locked hr with rfl | hr
  · simp
  · rcases mem_of_locked hr with rfl | hr
    · simp
    · simp [h r] at hr

/-- Mapping two registers for reading while none is locked. -/
theorem moves_mapSources (h : t.registers.Consistent m)
    (hunlocked : ∀ r : GuestIndex, t.registers.locked.get r = false) (s : Surroundings)
    (rs rt : GuestIndex) :
    ∃ x y u n, exec (allocating (RegisterCache.mapSources rs rt)) s t = (.ok (x, y), u) ∧
      t.Moves [] m u n ∧ u.registers.Mapped n rs .read (t.registers.value m rs) x ∧
      u.registers.Mapped n rt .read (t.registers.value m rt) y := by
  let a : Allocation := ⟨(t.registers.lock rs).lock rt, [], []⟩
  have ha : a.cache.Consistent m :=
    ⟨⟨h.hosts, h.resident⟩, h.clean, h.zeroWord, h.zero, h.context⟩
  have hlocked : ∀ r : GuestIndex, a.cache.locked.get r = true → r ∈ [rs, rt] :=
    mem_of_locked_pair hunlocked rs rt
  obtain ⟨x, hx⟩ := RegisterCache.map_ok ha.toPaired (show [rs, rt].length ≤ 3 by simp) hlocked rs .read
  obtain ⟨m₁, hmoves₁, hspares, -⟩ := RegisterCache.maps ha rs .read
  obtain ⟨y, hy⟩ := RegisterCache.map_ok hmoves₁.consistent.toPaired (show [rs, rt].length ≤ 3 by simp)
    (fun r hr => hlocked r (hspares.locked ▸ hr)) rt .read
  have hok : ((RegisterCache.mapSources rs rt).exec ⟨t.registers, [], []⟩).1 = .ok (x, y) := by
    have hexec : (RegisterCache.mapSources rs rt).exec ⟨t.registers, [], []⟩ =
        Allocate.exec (RegisterCache.map rs .read >>= fun x =>
          RegisterCache.map rt .read >>= fun y => pure (x, y)) a := rfl
    rw [hexec, Allocate.exec_bind_of_ok (Prod.ext hx rfl), Allocate.exec_bind_of_ok (Prod.ext hy rfl)]
    rfl
  obtain ⟨n, hmoves, -, hmapped⟩ := RegisterCache.moves_mapSources (a := ⟨t.registers, [], []⟩) h rs rt
  exact ⟨x, y, _, n, (exec_allocating _ s t).trans (Prod.ext hok rfl), .of_allocation hmoves rfl rfl,
    hmapped x y hok⟩

/-- A guest register that is in a host register already is mapped for writing without any code. -/
theorem moves_map_resident (h : t.registers.Consistent m) (hrt : rt ≠ zeroRegister)
    {host : HostRegister} (hplace : t.registers.location rt = .host host) (s : Surroundings) :
    ∃ u, exec (map rt .write) s t = (.ok host, u) ∧ t.Moves [] m u m ∧
      u.registers.Held host rt true := by
  have hexec : (RegisterCache.map rt .write).exec ⟨t.registers, [], []⟩ =
      (.ok host, ⟨t.registers.updateSlot host (some rt) true, [], []⟩) :=
    RegisterCache.exec_map_of_host (fun hzero => hrt hzero.1) hplace
  refine ⟨_, exec_allocating _ s t |>.trans (by rw [hexec]), ⟨.of_code_eq ?_ m, ?_, fun _ _ => ?_,
    .refl m⟩, ?_⟩
  · exact Array.appendList_nil
  · exact h.markDirty hplace hrt
  · rfl
  · exact ((h.toPaired.markDirty hplace).2 host rt true).2 (.inr ⟨rfl, rfl, rfl⟩)

/-- Mapping the base and the destination of a load, which may be the same. -/
theorem moves_mapLoad (h : t.registers.Consistent m)
    (hunlocked : ∀ r : GuestIndex, t.registers.locked.get r = false) (hrt : rt ≠ zeroRegister)
    (s : Surroundings) (base : GuestIndex) :
    ∃ x y u₁ u n,
      exec (map base .read) s { t with registers := (t.registers.lock base).lock rt } =
        (.ok x, u₁) ∧
      exec (map rt .write) s u₁ = (.ok y, u) ∧
      t.Moves [rt] m u n ∧ x.Valid ∧ n.getWord x = t.registers.value m base ∧
      u.registers.Held y rt true := by
  let t₁ : Lowering γ := { t with registers := (t.registers.lock base).lock rt }
  have hlocks : t.Moves [] m t₁ m := .locks h rfl ⟨_, rfl⟩
  have hlocked : ∀ r : GuestIndex, t₁.registers.locked.get r = true → r ∈ [base, rt] :=
    mem_of_locked_pair hunlocked base rt
  obtain ⟨x, u₁, m₁, hx, hmoves₁, hspares₁, hmapped₁⟩ :=
    moves_map hlocks.consistent (show [base, rt].length ≤ 3 by simp) hlocked s base .read
  rw [Access.lost_read] at hmoves₁
  have hplace : u₁.registers.location base = .host x :=
    hmapped₁.place.resolve_left fun hzero => by cases hzero.2.1
  obtain ⟨dirty, hheld⟩ := (hmoves₁.consistent.resident base x).1 hplace
  have hvalid := hmoves₁.consistent.valid hheld
  have hword : m₁.getWord x = t.registers.value m base := hmapped₁.value nofun
  -- If the base is overwritten by the load, both are in the same host register.
  by_cases hbase : base = rt
  · subst hbase
    obtain ⟨u, hy, hmoves₂, hdirty⟩ := moves_map_resident hmoves₁.consistent hrt hplace s
    exact ⟨x, x, u₁, u, m₁, hx, hy, ((hlocks.trans hmoves₁).trans hmoves₂).mono (by simp), hvalid,
      hword, hdirty⟩
  · obtain ⟨y, u, n, hy, hmoves₂, hspares₂, hmapped₂⟩ := moves_map hmoves₁.consistent
      (show [base, rt].length ≤ 3 by simp) (fun r hr => hlocked r (hspares₁.locked ▸ hr)) s rt .write
    have hlost : Access.write.lost rt = [rt] := if_pos (.inl rfl)
    rw [hlost] at hmoves₂
    have hbaseLocked : t₁.registers.locked.get base = true :=
      RegisterCache.locked_lock_lock _ base rt
    have hplace' : u.registers.location base = .host x :=
      hspares₂.stays base x (hspares₁.locked ▸ hbaseLocked) hplace
    refine ⟨x, y, u₁, u, n, hx, hy, (hlocks.trans hmoves₁).trans hmoves₂, hvalid, ?_,
      hmapped₂.dirty hrt rfl⟩
    rw [← RegisterCache.value_of_host (m := n) hplace',
      hmoves₂.value base (by simpa using hbase), RegisterCache.value_of_host hplace, hword]

/-- Computing the address of an access, and the access itself. -/
theorem Sends.addressed {x value : HostRegister} {b offset target : UInt32}
    (h : Sends γ s op (b + offset) target) (hmaps : s.Maps m)
    (hvalue : value ∈ HostRegister.allocationOrder) (hcontext : m.get .context = Linkage.contextBase)
    (hx : x.Valid) (hword : m.getWord x = b) (t : Lowering γ) :
    ∃ u n, exec (emit (Sequence.loadAddress .scratch x offset) >>= fun _ => dynamicAccess op value)
        s t = (.ok (), u) ∧ u.registers = t.registers ∧ t.Carries m u n ∧
      op.Accesses value target m n := by
  have hruns := Sequence.runs_loadAddress (by decide : HostRegister.scratch.Valid) hx offset m
  rw [hword] at hruns
  have hkeeps : Keeps [.scratch, .pointer] m (m.setWord .scratch (b + offset)) :=
    .setWord (by decide) (by decide) m _
  obtain ⟨u, n, hexec, hregisters, hcarries, haccess⟩ := h _ value
    (hmaps.congr (congrArg Environment.bus hkeeps.env)
      (hkeeps.registers .memoryBase (by decide) (by decide)))
    hvalue ((hkeeps.registers .context (by decide) (by decide)).trans hcontext)
    (get_setWord_self m _ _)
    { t with code := t.code ++ (Sequence.loadAddress .scratch x offset).map Item.instruction }
  exact ⟨u, n, (exec_bind_of_ok (exec_emit ..)).trans hexec, hregisters,
    (Lowering.Carries.instructions rfl hruns).trans hcarries, haccess.of_keeps hvalue hkeeps⟩

@[simp] theorem exec_immediate? (reg : GuestIndex) (s : Surroundings) (t : Lowering γ) :
    exec (immediate? reg) s t = (.ok (t.registers.immediate? reg), t) := rfl

theorem exec_registerOperand {x : Except Breach UInt32} {v : UInt32} (h : x = .ok v)
    (s : Surroundings) (t : Lowering γ) :
    exec (registerOperand x) s t = (.ok (guestOperand v), t) := by
  rw [h]
  rfl

theorem exec_checked {α : Type} {x : Except Breach α} {v : α} (h : x = .ok v) (s : Surroundings)
    (t : Lowering γ) : exec (checked x) s t = (.ok v, t) := by
  rw [h]
  rfl

theorem value_of_immediate? {c : RegisterCache} {base : GuestIndex} {v : UInt32}
    (h : c.immediate? base = some v) : c.value m base = v := by
  unfold RegisterCache.immediate? at h
  split at h
  · next hplace =>
    cases h
    exact RegisterCache.value_of_immediate hplace
  · cases h

/-- A load or store whose address is known at run time, with its operands. -/
theorem Sends.memoryAccess {target : UInt32} (hsends : Sends γ s op addr target) (hmaps : s.Maps m)
    (h : t.registers.Consistent m) (hunlocked : ∀ r : GuestIndex, t.registers.locked.get r = false)
    {i : Instruction} {rt base offset : UInt32} (hrt : i.rt = .ok rt) (hbase : i.base = .ok base)
    (hoffset : i.offset = .ok offset)
    (haddr : addr = t.registers.value m (guestOperand base) + offset)
    (hunknown : t.registers.immediate? (guestOperand base) = none)
    (hwrites : ∀ kind, op = .load kind → guestOperand rt ≠ zeroRegister) :
    ∃ u n, exec (Lower.memoryAccess i op) s t = (.ok (), u) ∧ t.Carries m u n ∧
      op.Agrees (guestOperand rt) target t.registers m u.registers n := by
  subst haddr
  rw [Lower.memoryAccess, exec_bind_of_ok (exec_registerOperand hrt s t),
    exec_bind_of_ok (exec_registerOperand hbase s t), exec_bind_of_ok (exec_checked hoffset s t)]
  -- A load maps its target for writing, a store its source for reading.
  cases op with
  | load kind =>
    obtain ⟨x, y, u₁, u₂, m₁, hx, hy, hmoves, hvalid, hword, hheld⟩ :=
      moves_mapLoad h hunlocked (hwrites kind rfl) s (guestOperand base)
    have hmaps₁ := hmaps.congr hmoves.transfers.bus
      (congrArg Frame.memoryBase hmoves.transfers.frame)
    obtain ⟨u, n, hexec, hregisters, hcarries, haccess⟩ := hsends.addressed hmaps₁
      (hmoves.consistent.mem_allocationOrder hheld) hmoves.consistent.context hvalid hword u₂
    refine ⟨u, n, ?_, hmoves.carries.trans hcarries, ?_⟩
    · dsimp only
      rw [if_neg (hwrites kind rfl), exec_bind_of_ok (exec_immediate? ..), hunknown]
      exact (exec_bind_of_ok hx).trans ((exec_bind_of_ok hy).trans hexec)
    · rw [hregisters]
      exact .of_moves hmoves (fun r hr => ⟨kind, rfl, List.mem_singleton.1 hr⟩)
        (haccess.agrees hmoves.consistent (fun _ _ => hheld) nofun)
  | store width =>
    obtain ⟨x, y, u₁, m₁, hmap, hmoves, hmappedBase, hmapped⟩ :=
      moves_mapSources h hunlocked s (guestOperand base) (guestOperand rt)
    have hmaps₁ := hmaps.congr hmoves.transfers.bus
      (congrArg Frame.memoryBase hmoves.transfers.frame)
    have hbaseHost : x ∈ HostRegister.allocationOrder := mem_allocationOrder_of_mapped
      (.store width) nofun hmoves.consistent.toPaired hmappedBase
    obtain ⟨u, n, hexec, hregisters, hcarries, haccess⟩ := hsends.addressed hmaps₁
      (mem_allocationOrder_of_mapped (.store width) nofun hmoves.consistent.toPaired hmapped)
      hmoves.consistent.context (HostRegister.valid_of_mem_allocationOrder hbaseHost)
      (hmappedBase.value nofun) u₁
    refine ⟨u, n, ?_, hmoves.carries.trans hcarries, ?_⟩
    · dsimp only
      rw [exec_bind_of_ok (exec_immediate? ..), hunknown]
      exact (exec_bind_of_ok hmap).trans hexec
    · rw [hregisters]
      exact .of_moves hmoves nofun (haccess.agrees hmoves.consistent nofun fun _ _ => by
        rw [hmapped.value nofun, hmoves.value _ List.not_mem_nil])

/-- A load or store with its operands. -/
theorem memoryAccess_spec (hguards : s.Guards m) (h : t.registers.Consistent m)
    (hunlocked : ∀ r : GuestIndex, t.registers.locked.get r = false) {i : Instruction}
    {rt base offset : UInt32} (hrt : i.rt = .ok rt) (hbase : i.base = .ok base)
    (hoffset : i.offset = .ok offset)
    (haddr : addr = t.registers.value m (guestOperand base) + offset)
    (hclear : t.registers.immediate? (guestOperand base) = none → s.Clear addr op.size)
    (hwrites : ∀ kind, op = .load kind → guestOperand rt ≠ zeroRegister) :
    ∃ u n, exec (memoryAccess i op) s t = (.ok (), u) ∧ t.Carries m u n ∧
      op.Agrees (guestOperand rt) addr t.registers m u.registers n := by
  cases hknown : t.registers.immediate? (guestOperand base) with
  | none =>
    exact (sends_of_clear hguards.guarded (hclear hknown)).memoryAccess hguards.maps h hunlocked hrt
      hbase hoffset haddr hknown hwrites
  | some v =>
    subst haddr
    rw [memoryAccess, exec_bind_of_ok (exec_registerOperand hrt s t),
      exec_bind_of_ok (exec_registerOperand hbase s t), exec_bind_of_ok (exec_checked hoffset s t)]
    have hconstant := constantAccess_spec hguards.maps h hunlocked (v + offset) hwrites
    rw [value_of_immediate? hknown]
    cases op with
    | load kind =>
      dsimp only
      rwa [if_neg (hwrites kind rfl), exec_bind_of_ok (exec_immediate? ..), hknown]
    | store width =>
      dsimp only
      rwa [exec_bind_of_ok (exec_immediate? ..), hknown]

/-! ### From the word on -/

/-- The encodings of loads and stores have a target register, a base register and an offset. -/
theorem operands_of_decode? {word : UInt32} {i : Instruction}
    (hdecode : Instruction.decode? word = some i) (hop : MemoryOp.ofMnemonic? i.mnemonic = some op) :
    ∃ rt base offset, i.rt = .ok rt ∧ i.base = .ok base ∧ i.offset = .ok offset := by
  have hall : ∀ e ∈ Entry.table, MemoryOp.ofMnemonic? e.mnemonic ≠ none →
      ∀ o ∈ [Operand.target, .base, .offset], (e.pattern.fields.find? (·.operand == o)).isSome := by
    decide
  obtain ⟨e, he, rfl⟩ := Option.map_eq_some_iff.1 hdecode
  have hfields := hall e (List.mem_of_find?_eq_some he) (by
    change MemoryOp.ofMnemonic? e.mnemonic = some op at hop
    simp [hop])
  have hoperand (o : Operand) (ho : o ∈ [Operand.target, .base, .offset]) (what : String) :
      ∃ v, (⟨e, word⟩ : Instruction).operand o what = .ok v := by
    obtain ⟨f, hf⟩ := Option.isSome_iff_exists.1 (hfields o ho)
    have hget : (⟨e, word⟩ : Instruction).get? o = some (f.extract word) := by
      rw [Instruction.get?, Pattern.get?, hf]
      rfl
    exact ⟨_, by rw [Instruction.operand, hget]⟩
  obtain ⟨rt, hrt⟩ := hoperand .target (by simp) "target register"
  obtain ⟨base, hbase⟩ := hoperand .base (by simp) "base register"
  obtain ⟨offset, hoffset⟩ := hoperand .offset (by simp) "offset"
  refine ⟨rt, base, Word.signExtend16 offset, hrt, hbase, ?_⟩
  rw [Instruction.offset, hoffset]
  rfl

theorem straight_of_memoryOp {i : Instruction} (hop : MemoryOp.ofMnemonic? i.mnemonic = some op) :
    (straight i : Lower γ Unit) = memoryAccess i op := by
  have himmediate : BinaryOp.ofImmediate? i.mnemonic = none := by
    revert hop
    cases i.mnemonic <;> simp [MemoryOp.ofMnemonic?, BinaryOp.ofImmediate?]
  have hregister : BinaryOp.ofRegister? i.mnemonic = none := by
    revert hop
    cases i.mnemonic <;> simp [MemoryOp.ofMnemonic?, BinaryOp.ofRegister?]
  unfold straight
  simp only [himmediate, hregister, hop]

/-- Reading through the board leaves it as it is. -/
theorem bus_load (e : Environment Board) (kind : LoadKind) (addr : UInt32) :
    (e.load kind addr).2.bus = e.bus := by
  obtain ⟨state, bus, events⟩ := e
  have hread : (Bus.read kind.width addr bus).2 = bus := rfl
  simp only [Environment.load, Environment.read]
  rcases hresult : Bus.read kind.width addr bus with ⟨_ | _, bus'⟩ <;> rw [hresult] at hread <;>
    exact hread

/-- The code for any load and store, with guarded accesses and options that are accepted for the
regions of the board: it runs to its end, and then memory is as the helper of the access leaves it,
a loaded value is in its register, and all other registers have the values they had. If the base
register holds a known constant this is the code for a constant address, and it is so at all
addresses. If not, it is so at all addresses to which no region comes round from past the end of
the address space. -/
theorem loadStore_agrees (hguards : s.Guards m) (h : t.registers.Consistent m)
    (hunlocked : ∀ r : GuestIndex, t.registers.locked.get r = false) {word : UInt32} {i : Instruction}
    (hdecode : Instruction.decode? word = some i)
    (hop : MemoryOp.ofMnemonic? i.mnemonic = some op) :
    ∃ rt base offset, i.rt = .ok rt ∧ i.base = .ok base ∧ i.offset = .ok offset ∧
      ∀ addr, addr = t.registers.value m (guestOperand base) + offset →
        (t.registers.immediate? (guestOperand base) = none → s.Clear addr op.size) →
        ∃ (u : Lowering γ) (n : HostMachine Board) (items : List Item),
          exec (straight i) s t = (.ok (), u) ∧ u.code = t.code ++ items ∧
          (∀ (code : Arena) (start : Nat), Laid code.written start items →
            Layout.stop start items < 0x80000000 →
              ∃ k, Steps code k (m.goto start) (n.goto (Layout.stop start items))) ∧
          u.registers.Consistent n ∧
          n.env.bus = (op.asked addr (t.registers.value m (guestOperand rt)) m.env).bus ∧
          (∀ kind, op = .load kind → guestOperand rt ≠ zeroRegister →
            u.registers.value n (guestOperand rt) = (m.env.load kind addr).1) ∧
          ∀ r, (∀ kind, op = .load kind → r = guestOperand rt → r = zeroRegister) →
            u.registers.value n r = t.registers.value m r := by
  obtain ⟨rt, base, offset, hrt, hbase, hoffset⟩ := operands_of_decode? hdecode hop
  refine ⟨rt, base, offset, hrt, hbase, hoffset, fun addr haddr hclear => ?_⟩
  rw [straight_of_memoryOp hop]
  -- A load to register zero emits nothing, and its helper would leave memory as it is.
  by_cases hnothing : ∃ kind, op = .load kind ∧ guestOperand rt = zeroRegister
  · obtain ⟨kind, rfl, hzero⟩ := hnothing
    refine ⟨t, m, [], ?_, Array.appendList_nil.symm, fun _ _ _ _ => ⟨0, rfl⟩, h,
      (bus_load m.env kind addr).symm, fun _ _ hne => absurd hzero hne, fun _ _ => rfl⟩
    rw [memoryAccess, exec_bind_of_ok (exec_registerOperand hrt s t),
      exec_bind_of_ok (exec_registerOperand hbase s t), exec_bind_of_ok (exec_checked hoffset s t)]
    exact congrArg (fun x => exec x s t) (if_pos hzero)
  · obtain ⟨u, n, hexec, ⟨items, hcode, hclosed, hpasses⟩, hagrees⟩ := memoryAccess_spec hguards h
      hunlocked hrt hbase hoffset haddr hclear fun kind hkind hzero =>
        hnothing ⟨kind, hkind, hzero⟩
    refine ⟨u, n, items, hexec, hcode, fun code start hlaid hstop =>
      hpasses.steps hlaid hclosed (Nat.le_of_lt hstop), hagrees.consistent, hagrees.bus,
      fun kind hkind _ => hagrees.loaded kind hkind, fun r hr => hagrees.others r fun kind hkind heq =>
        hnothing ⟨kind, hkind, heq ▸ hr kind hkind heq⟩⟩

/-- `lw t0, 0(a0)` reads a word of the only memory, whose address is in the guest state. -/
theorem loadStore_agrees_of_word :
    ∃ (s : Surroundings) (t u : Lowering Board) (m n : HostMachine Board) (i : Instruction),
      Instruction.decode? 0x8C880000 = some i ∧ m.env.state.get 4 = 0x1004 ∧
      exec (straight i) s t = (.ok (), u) ∧ u.registers.value n 8 = 7 := by
  let memory : FlatMemory :=
    ⟨0x1000, 64, Linkage.memoryBase 0, (∅ : Std.HashMap Nat UInt8).insert 4 7⟩
  let board : Board := ⟨#[memory], [memory.region], fun _ => none⟩
  let s : Surroundings := ⟨.standard, board.regions, ⟨0, 0, 0, 0, 0, 0⟩, fun _ => none⟩
  let t : Lowering Board := { Lowering.initial board 0 with registers := RegisterCache.fresh.start }
  let m : HostMachine Board :=
    ((HostMachine.start ((Environment.initial board).setWord 4 0x1004) 0 0 0).set .context
      Linkage.contextBase).set .memoryBase memory.pointer
  have hhosted : m.env.bus.Hosted := by
    refine Board.hosted_of_pointers (by decide) rfl (by decide) fun k memory' hk => ?_
    obtain rfl : k = 0 := by
      obtain ⟨hlt, -⟩ := Array.getElem?_eq_some_iff.1 hk
      exact Nat.lt_one_iff.1 hlt
    cases hk
    rfl
  have hguards : s.Guards m := by
    refine ⟨hhosted, rfl, by decide, rfl, fun r hr => ?_⟩
    cases hr
    exact get_set_self _ _ _
  have hconsistent : t.registers.Consistent m := .start rfl (by decide) (by decide)
  let i : Instruction := (Instruction.decode? 0x8C880000).get (by decide)
  have hdecode : Instruction.decode? 0x8C880000 = some i := (Option.some_get _).symm
  have hop : MemoryOp.ofMnemonic? i.mnemonic = some (.load .u32) := by decide
  obtain ⟨rt, base, offset, hrt, hbase, hoffset, hall⟩ := loadStore_agrees (t := t) hguards
    hconsistent (by decide) hdecode hop
  obtain rfl : 8 = rt := Except.ok.inj ((by decide : i.rt = .ok 8).symm.trans hrt)
  obtain rfl : 4 = base := Except.ok.inj ((by decide : i.base = .ok 4).symm.trans hbase)
  obtain rfl : 0 = offset := Except.ok.inj ((by decide : i.offset = .ok 0).symm.trans hoffset)
  have hclear : s.Clear 0x1004 4 := fun r hr hlow => by
    obtain rfl : r = memory.region := List.mem_singleton.1 hr
    exact absurd hlow (by decide)
  obtain ⟨u, n, items, hexec, -, -, -, -, hloaded, -⟩ := hall 0x1004 (by decide) fun _ => hclear
  have hword : (m.env.load .u32 0x1004).1 = 7 := by
    have hroute : board.route 0x1004 = 0 :=
      Board.route_eq hguards.apart (m := memory) rfl (by decide) (by decide)
    have hrun : memory.run 4 4 = [7, 0, 0, 0] := by
      simp [FlatMemory.run, FlatMemory.byte, memory, List.range, List.range.loop,
        Std.HashMap.getD_insert]
    have hoffset : memory.offset 0x1004 Width.word.size = .ok 4 := by decide
    have hvalue : memory.read .word 0x1004 = .ok 7 := by
      rw [FlatMemory.read, hoffset]
      exact congrArg (fun bytes => Except.ok (Word.ofBytes bytes)) hrun
    have hread : Bus.read .word 0x1004 m.env.bus = (.ok 7, board) := by
      change (board.read .word 0x1004, board) = _
      rw [Board.read, hroute, ← hvalue]
      rfl
    rw [Environment.load, Environment.read, LoadKind.width, hread]
    rfl
  exact ⟨s, t, u, m, n, i, hdecode, by decide, hexec, (hloaded .u32 rfl (by decide)).trans hword⟩

end Lower

end Recompiler
