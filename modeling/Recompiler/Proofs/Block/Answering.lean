import Recompiler.Proofs.Block.Arithmetic
import Recompiler.Proofs.Block.ContainedAccess
import Recompiler.Proofs.Block.Performing

/-!
# The code of loads and stores

The code for a load or store does what `MemoryOp.effect` says, for every bus that backs the fast
regions.

* `MemoryOp.Gets`: the machine after an access, by the bus or past it.
* `MemoryOp.gets_slow`, `MemoryOp.gets_direct`: the two ways.
* `Lower.dynamicAccess_gets`: an address known at run time.
* `Acts.constantAccess`, `Acts.dynamicAccess`, `Acts.memoryAccess`: the guest afterwards.
-/

namespace Recompiler

open HostMachine

variable {β : Type} [Bus β]

/-! ## The machine after an access -/

namespace MemoryOp

/-- The machine after an access: the guest is as the access leaves it, and a loaded value is where
it is wanted. -/
structure Gets (op : MemoryOp) (value : HostRegister) (place? : Option UInt64) (addr : UInt32)
    (m n : HostMachine β) : Prop where
  keeps : Keeps (op.lost value) (m.withEnv (op.act place? addr (m.getWord value) m.env).2) n
  loaded : op.isLoad = true → n.getWord value = (op.act place? addr (m.getWord value) m.env).1

variable {op : MemoryOp} {value : HostRegister} {place? : Option UInt64} {addr : UInt32}
  {m n : HostMachine β}

/-- Preparations that leave the value alone. -/
theorem Gets.of_keeps {m₁ : HostMachine β} (hvalue : value ∈ HostRegister.allocationOrder)
    (hkeeps : Keeps [.scratch, .pointer] m m₁) (h : op.Gets value place? addr m₁ n) :
    op.Gets value place? addr m n := by
  have hkeeps' := h.keeps
  have hloaded := h.loaded
  rw [getWord_of_prepared hvalue hkeeps, hkeeps.env] at hkeeps' hloaded
  exact ⟨((hkeeps.withEnv _).mono (op.prepared_subset_lost value)).trans hkeeps', hloaded⟩

/-- Asking the bus. -/
theorem gets_slow (op : MemoryOp) (hcontext : m.get .context = Linkage.contextBase)
    (hvalue : value ∈ HostRegister.allocationOrder) (haddr : m.getWord .scratch = addr) :
    ∃ is, op.slow value = .ok is ∧ ∃ n, Runs is m n ∧ op.Gets value none addr m n := by
  obtain ⟨is, hslow, n, hruns, haccess⟩ := op.accesses_slow hcontext hvalue haddr
  refine ⟨is, hslow, n, hruns, ?_⟩
  cases op with
  | load kind => exact ⟨haccess.keeps, fun _ => haccess.loaded kind rfl⟩
  | store width => exact ⟨haccess.keeps, fun hload => by cases hload⟩

/-- Reaching host memory. -/
theorem gets_direct (op : MemoryOp) {pointer : UInt64} (hstate : stateSlot? pointer = none)
    (hbytes : ∀ i < op.size, (Bus.hostByte? m.env.bus (pointer + i.toUInt64)).isSome = true)
    (hvalue : value ∈ HostRegister.allocationOrder) {fast : FastAddress}
    (haims : fast.Aims m pointer) :
    ∃ is, op.direct value fast = .ok is ∧ ∃ n, Runs is m n ∧
      op.Gets value (some pointer) addr m n := by
  have hvalid := HostRegister.valid_of_mem_allocationOrder hvalue
  obtain ⟨a, hresolve, haddress, hpointer⟩ := haims.resolves
  refine ⟨_, op.direct_eq value hresolve, ?_⟩
  cases op with
  | load kind =>
    -- All bytes are there, so the word is read.
    obtain ⟨v, hread⟩ : ∃ v, Bus.hostWord? m.env.bus kind.width pointer = some v := by
      have hall (i : Nat) (hi : i ∈ List.range kind.width.size) :
          Bus.hostByte? m.env.bus (pointer + i.toUInt64) =
            some ((Bus.hostByte? m.env.bus (pointer + i.toUInt64)).getD 0) := by
        obtain ⟨b, hb⟩ := Option.isSome_iff_exists.1 (hbytes i (List.mem_range.1 hi))
        rw [hb]
        rfl
      rw [Bus.hostWord?, mapM_option_eq hall]
      exact ⟨_, rfl⟩
    have hexecute : m.executeStraight (.load kind value a) = some (m.setWord value (kind.extend v)) := by
      simp only [executeStraight, hpointer, readMemory, hstate]
      rw [Bus.hostWord?] at hread
      rw [hread]
      rfl
    refine ⟨_, .one ⟨hvalid, haddress⟩ hexecute, .setWord hvalid List.mem_cons_self _ _, fun _ => ?_⟩
    rw [getWord_setWord_self, act, hread]
    rfl
  | store width =>
    have hall : (List.range width.size).all (fun i =>
        (Bus.hostByte? m.env.bus (pointer + i.toUInt64)).isSome) = true :=
      List.all_eq_true.2 fun i hi => hbytes i (List.mem_range.1 hi)
    have hexecute : m.executeStraight (.store width a value) =
        some (m.withEnv { m.env with
          bus := Bus.setHostWord m.env.bus width pointer (m.getWord value) }) := by
      simp only [executeStraight, hpointer, writeMemory, hstate]
      rw [if_pos hall]
      rfl
    exact ⟨_, .one ⟨haddress, hvalid⟩ hexecute, .refl _ _, fun hload => by cases hload⟩

/-- The host register of an access stands for the guest register `rt`: a load may write it, a store
finds its value there. -/
structure Ready (op : MemoryOp) (c : RegisterCache) (rt : GuestIndex) (value : HostRegister)
    (e : Environment β) (hidden : List GuestIndex) (m : HostMachine β) : Prop where
  free : value ∈ HostRegister.allocationOrder
  destination : op.isLoad = true → c.Held value rt true ∧ ∀ r ∈ hidden, r = rt
  source : op.isLoad = false → m.getWord value = e.state.get rt ∧ hidden = []

omit [Bus β] in
theorem Ready.of_mapped {c : RegisterCache} {rt : GuestIndex} {e : Environment β}
    (h : c.Mapped m rt op.access (e.state.get rt) value) (hc : c.Paired)
    (hrt : op.isLoad = true → rt ≠ zeroRegister) :
    op.Ready c rt value e (op.access.lost rt) m := by
  cases op with
  | load kind =>
    exact ⟨h.mem_allocationOrder hc fun hzero => absurd hzero (hrt rfl),
      fun _ => ⟨h.dirty (hrt rfl) rfl, fun r hr => Access.eq_of_mem_lost hr⟩,
      fun hstore => (by cases hstore)⟩
  | store width =>
    exact ⟨h.mem_of_read hc, fun hload => (by cases hload),
      fun _ => ⟨h.value (show Access.read ≠ .write by decide), Access.lost_read rt⟩⟩

theorem width_pos (op : MemoryOp) : 0 < op.size := by
  cases op
  · exact Width.size_pos _
  · exact Width.size_pos _

end MemoryOp

/-! ### Host registers and guest registers -/

namespace RegisterCache.Shows

variable {c : RegisterCache} {m n : HostMachine β} {e : Environment β} {hidden : List GuestIndex}
  {op : MemoryOp} {value : HostRegister} {place? : Option UInt64} {addr : UInt32} {rt : GuestIndex}

omit [Bus β] in
/-- The registers do not depend on the memory. -/
theorem withMemory (h : c.Shows hidden m e) (bus : β) (events : Array Event) :
    c.Shows hidden (m.withEnv { m.env with bus := bus, events := events })
      { e with bus := bus, events := events } := by
  obtain ⟨hconsistent, hvalues⟩ := h.consistent.congr
    (n := m.withEnv { m.env with bus := bus, events := events }) (fun _ _ _ _ => rfl)
    (fun _ => rfl) rfl
  exact ⟨hconsistent, h.zero, fun reg hreg => (hvalues reg).trans (h.registers reg hreg), h.words,
    rfl, rfl⟩

/-- What is left of a machine before an access. -/
theorem withAct (h : c.Shows hidden m e) (op : MemoryOp) (place? : Option UInt64)
    (addr stored : UInt32) :
    c.Shows hidden (m.withEnv (op.act place? addr stored m.env).2)
      (op.act place? addr stored e).2 := by
  have hact := op.act_congr place? addr stored h.bus h.events
  have hstate := op.state_act place? addr stored e
  generalize op.act place? addr stored e = r at hact hstate
  obtain ⟨v, state, bus, events⟩ := r
  cases hstate
  rw [hact]
  exact h.withMemory bus events

/-- An access shows the guest that its effect leaves. -/
theorem gets (h : c.Shows hidden m e) (hready : op.Ready c rt value e hidden m)
    (hgets : op.Gets value place? addr m n) : c.Shows [] n (op.effect addr e place? rt) := by
  have hfree : ∀ r ∈ HostRegister.volatile, r ∉ HostRegister.allocationOrder ∧ r ≠ .context := by
    decide
  have hafter := h.withAct op place? addr (m.getWord value)
  cases op with
  | store width =>
    obtain ⟨hword, rfl⟩ := hready.source rfl
    have hshows := hafter.keeps hgets.keeps hfree
    rw [hword] at hshows
    exact hshows
  | load kind =>
    obtain ⟨hheld, hhidden⟩ := hready.destination rfl
    have hlost : ∀ r ∈ value :: HostRegister.volatile,
        r = value ∨ r ∉ HostRegister.allocationOrder ∧ r ≠ .context :=
      fun r hr => (List.mem_cons.1 hr).imp id (hfree r)
    have hnone : ∀ r ∈ hidden, r = rt ∨ r ∈ ([] : List GuestIndex) :=
      fun r hr => .inl (hhidden r hr)
    have hshows := hafter.assign hheld hgets.keeps hlost hnone
    rw [hgets.loaded rfl, MemoryOp.act_congr _ _ _ _ h.bus h.events] at hshows
    cases place? <;> exact hshows

end RegisterCache.Shows

/-! ## Addresses known at run time -/

/-- The place that a check finds has room for the access. -/
theorem FastRegion.fits_of_wrapped? {r : FastRegion} {addr offset : UInt32} {size : Nat}
    (hsize : size ≤ 4) (h : r.wrapped? addr size = some offset) :
    offset.toNat + size ≤ r.length.toNat := by
  have hsize32 : size.toUInt32.toNat = size := UInt32.toNat_ofNat_of_lt' (by change _ < 2 ^ 32; omega)
  have hlength := r.length.toNat_lt
  have hlast := UInt32.toNat_sub r.length size.toUInt32
  rw [wrapped?] at h
  split at h
  · next hhit =>
    have hle := UInt32.le_iff_toNat_le.1 hhit.2
    cases h
    omega
  · cases h

namespace Lower

variable {γ : Type} {s : Surroundings} {m : HostMachine β} {op : MemoryOp} {value : HostRegister}
  {addr : UInt32}

/-- An access whose address is wrapped into the main region. -/
theorem maskedAccess_gets (op : MemoryOp) {main : FastRegion} (hpower : isPowerOfTwo main.length = true)
    (hbacks : Bus.Backs [main] m.env.bus) (hmain : m.get .memoryBase = main.pointer)
    (hvalue : value ∈ HostRegister.allocationOrder)
    (hcontext : m.get .context = Linkage.contextBase) (haddr : m.get .scratch = addr.toUInt64)
    (s : Surroundings) (t : Lowering γ) :
    ∃ code n, exec (maskedAccess op value main) s t = (.ok (), { t with code := code }) ∧
      t.Carries m { t with code := code } n ∧
      op.Gets value (if main.length.toNat < op.size then none else
        some (main.pointer + ((addr - main.start) &&&
          ((main.length - 1) &&& ~~~(op.size.toUInt32 - 1))).toUInt64)) addr m n := by
  have hword : m.getWord .scratch = addr := getWord_of_get haddr
  unfold maskedAccess
  by_cases hsize : main.length.toNat < op.size
  · obtain ⟨is, hslow, n, hruns, hgets⟩ := op.gets_slow hcontext hvalue hword
    rw [if_pos hsize, if_pos hsize]
    exact ⟨_, n, exec_emitChecked hslow s t, .instructions rfl hruns, hgets⟩
  · rw [if_neg hsize, if_neg hsize]
    -- The address is rebased and masked, which wraps it into the region.
    generalize hmask : (main.length - 1) &&& ~~~(op.size.toUInt32 - 1) = mask
    obtain ⟨m₁, hrebase, hscratch, hkeeps⟩ := Sequence.runs_rebase (.inl rfl) haddr main.start
    obtain ⟨m₂, hand, hmasked, hkeeps'⟩ := Paves.runs_mask m₁ mask
    have hoffset : m₁.getWord .scratch = addr - main.start := getWord_of_get hscratch
    rw [hoffset] at hmasked
    have hkept := hkeeps.trans hkeeps'
    have hfits := Paves.toNat_masked_add_size op hpower (Nat.le_of_not_lt hsize) (addr - main.start)
    rw [hmask] at hfits
    obtain ⟨hstate, hbytes⟩ := hbacks.access List.mem_cons_self op.width_pos hfits
    obtain ⟨is, hdirect, n, hruns, hgets⟩ := op.gets_direct hstate (hkept.env ▸ hbytes) hvalue
      (FastAddress.aims_indexed ((hkept.registers _ (by decide) (by decide)).trans hmain) hmasked)
    refine ⟨_, n, ?_, .instructions rfl ((hrebase.append hand).append hruns),
      hgets.of_keeps hvalue (hkept.mono (by simp))⟩
    by_cases hstart : main.start = 0
    · simp only [hstart, ne_eq, not_true_eq_false, if_false, exec_bind, exec_emit,
        exec_emitChecked hdirect, List.nil_append, List.map_append, appendList_append]
    · simp only [hstart, ne_eq, not_false_eq_true, if_true, exec_bind, exec_emit,
        exec_emitChecked hdirect, List.map_append, appendList_append]

/-- An access to the address in the scratch register. -/
theorem dynamicAccess_gets (haccepted : s.options.Accepted s.regions)
    (hbacks : Bus.Backs s.regions m.env.bus)
    (hmain : ∀ r, s.regions[0]? = some r → m.get .memoryBase = r.pointer)
    (hvalue : value ∈ HostRegister.allocationOrder)
    (hcontext : m.get .context = Linkage.contextBase) (haddr : m.get .scratch = addr.toUInt64)
    (t : Lowering γ) :
    ∃ code labels n,
      exec (dynamicAccess op value) s t = (.ok (), { t with code := code, labels := labels }) ∧
      t.Carries m { t with code := code, labels := labels } n ∧
      op.Gets value (s.options.place? s.regions false addr op.size) addr m n := by
  have hword : m.getWord .scratch = addr := getWord_of_get haddr
  unfold dynamicAccess
  rw [exec_read_bind]
  -- Without regions every access is a call. Otherwise the address is masked if fast memory is on,
  -- and compared with the regions if it is off.
  cases hregions : s.regions with
  | nil =>
    obtain ⟨is, hslow, n, hruns, hgets⟩ := op.gets_slow hcontext hvalue hword
    exact ⟨_, t.labels, n, exec_emitChecked hslow s t, .instructions rfl hruns, hgets⟩
  | cons main rest =>
    dsimp only
    rw [hregions] at hbacks hmain
    by_cases hfast : s.options.fastMemory = true
    · obtain ⟨main', rest', hregions', hpower⟩ := haccepted.main hfast
      cases hregions.symm.trans hregions'
      obtain ⟨code, n, hexec, hcarries, hgets⟩ := maskedAccess_gets op hpower
        (fun r hr => hbacks r (List.mem_singleton.1 hr ▸ List.mem_cons_self))
        (hmain main rfl) hvalue hcontext haddr s t
      refine ⟨code, t.labels, n, by rw [if_pos hfast, hexec], hcarries, ?_⟩
      simpa [Options.place?, hfast] using hgets
    · rw [if_neg hfast, ← hregions]
      have hplace : s.options.place? s.regions false addr op.size =
          (firstHit s.regions.zipIdx addr op.size).map fun x => x.1.1.pointer + x.2.toUInt64 := by
        unfold Options.place?
        rw [hregions]
        simp [hfast]
      rw [← hregions] at hbacks hmain
      rw [hplace]
      -- The region that the address lies in is backed by the bytes that the bus has there.
      have hoffers : Offers op value (op.Gets value ((firstHit s.regions.zipIdx addr op.size).map
          fun x => x.1.1.pointer + x.2.toUInt64) addr m) addr s.regions.zipIdx m := by
        refine ⟨fun r hr hzero => ?_, fun r offset hhit p fast hkeeps haims => ?_⟩
        · have hfirst := List.mem_zipIdx_iff_getElem?.1 hr
          rw [hzero] at hfirst
          exact hmain _ hfirst
        · obtain ⟨hr, hwrapped⟩ := firstHit_eq_some hhit
          have hregion := List.mem_of_getElem? (List.mem_zipIdx_iff_getElem?.1 hr)
          obtain ⟨hstate, hbytes⟩ := hbacks.access hregion op.width_pos
            (FastRegion.fits_of_wrapped? op.size_le hwrapped)
          obtain ⟨is, hdirect, q, hruns, hgets⟩ :=
            op.gets_direct hstate (hkeeps.env ▸ hbytes) hvalue haims
          rw [hhit]
          exact ⟨is, hdirect, q, hruns, hgets.of_keeps hvalue hkeeps⟩
      obtain ⟨code, labels, n, hexec, hcarries, hgets⟩ := guardedAccess_spec hoffers
        (fun hmissed p hkeeps hword => by
          obtain ⟨is, hcall, q, hruns, hgets⟩ := op.gets_slow
            ((hkeeps.registers _ (by decide) (by decide)).trans hcontext) hvalue hword
          rw [hmissed]
          exact ⟨is, hcall, q, hruns, hgets.of_keeps hvalue (hkeeps.mono (by simp))⟩) haddr s t
      exact ⟨code, labels, n, hexec, hcarries, hgets⟩

/-! ## The guest after the code -/

end Lower

/-- The base register of a load or store is known to hold a constant. -/
def Lowering.knows {β : Type} (t : Lowering β) (i : Instruction) : Bool :=
  match i.base with
  | .ok base => (t.registers.immediate? (guestOperand base)).isSome
  | .error _ => false

namespace Lower

variable {s : Surroundings} {m : HostMachine β} {op : MemoryOp} {value : HostRegister} {addr : UInt32}

namespace Acts

variable {f : Footing β} {e : Environment β} {hidden : List GuestIndex} {rt : GuestIndex}

/-- A step whose outcome is known. -/
theorem of_exec {α : Type} {pre : Assertion β} {x : Lower β α} {post : α → Assertion β}
    (h : ∀ t m, pre t m → ∃ r u n, exec x s t = (.ok r, u) ∧ t.Carries m u n ∧ post r u n) :
    Acts s pre x post := by
  intro t r u hexec m hm
  obtain ⟨r', u', n, hexec', hcarries, hn⟩ := h t m hm
  obtain ⟨hr, rfl⟩ := Prod.mk.inj (hexec.symm.trans hexec')
  cases hr
  exact ⟨n, hcarries, hn⟩

/-- A machine that has come to an access shows the guest that its effect leaves. -/
theorem shows_of_gets {t u : Lowering β} {n : HostMachine β} {place? : Option UInt64}
    (ht : t.Shows f hidden e m) (hready : op.Ready t.registers rt value e hidden m)
    (hgets : op.Gets value place? addr m n) (hregisters : u.registers = t.registers)
    (hfooting : ∀ p, u.footing p = t.footing p) :
    u.Shows f [] (op.effect addr e place? rt) n := by
  have hrole {r : HostRegister} (hr : r ∉ HostRegister.volatile)
      (hr' : r ∉ HostRegister.allocationOrder) : r ∉ op.lost value := by
    cases op with
    | load kind =>
      rw [MemoryOp.lost, List.mem_cons, not_or]
      exact ⟨fun heq => hr' (heq ▸ hready.free), hr⟩
    | store width => exact hr
  have hframe : n.frame = m.frame := hgets.keeps.frame (hrole (by decide) (by decide))
    (hrole (by decide) (by decide)) (hrole (by decide) (by decide))
  refine ⟨hregisters ▸ ht.registers.gets hready hgets, ?_⟩
  rw [hfooting, ← ht.footing, Lowering.footing, Lowering.footing, hframe]

/-- Asking the bus for the address in the scratch register. -/
theorem slowAccess : Acts s (fun t m => t.Shows f hidden e m ∧
      op.Ready t.registers rt value e hidden m ∧ m.getWord .scratch = addr)
    (emitChecked (op.slow value)) fun _ => Lowering.Shows f [] (op.effect addr e none rt) := by
  refine of_exec fun t m hm => ?_
  obtain ⟨ht, hready, haddr⟩ := hm
  obtain ⟨is, hslow, n, hruns, hgets⟩ := op.gets_slow ht.context hready.free haddr
  exact ⟨(), _, n, exec_emitChecked hslow s t, .instructions rfl hruns,
    shows_of_gets ht hready hgets rfl fun _ => rfl⟩

/-- A constant in the scratch register. -/
theorem scratch (addr : UInt32) {p : Lowering β → HostMachine β → Prop}
    (hpost : ∀ (t u : Lowering β) m, u.registers = t.registers → p t m →
      p u (m.setWord .scratch addr)) :
    Acts s (fun t m => t.Shows f hidden e m ∧ p t m)
      (Lower.emit (Sequence.moveImmediate .scratch addr)) fun _ t m =>
        t.Shows f hidden e m ∧ p t m ∧ m.getWord .scratch = addr := by
  refine emit fun t m hm => ⟨m.setWord .scratch addr, .one (by decide : HostRegister.scratch.Valid) rfl,
    fun u hregisters hfooting => ⟨?_, hpost t u m hregisters hm.2, getWord_setWord_self m _ _⟩⟩
  have hkeeps : m.Keeps [.scratch] (m.setWord .scratch addr) := .setWord (by decide) (by decide) m _
  exact (hm.1.keeps hkeeps (by simp [HostRegister.volatile, HostRegister.scratch])).of_eq hregisters
    (hfooting _)

section Regions

variable (hbacks : Bus.Backs s.regions e.bus)
  (hmain : ∀ r, s.regions[0]? = some r → f.frame.memoryBase = r.pointer)

include hbacks hmain

theorem dynamicAccess (haccepted : s.options.Accepted s.regions) :
    Acts s (fun t m => t.Shows f hidden e m ∧ op.Ready t.registers rt value e hidden m ∧
        m.get .scratch = addr.toUInt64) (Lower.dynamicAccess op value) fun _ =>
      Lowering.Shows f []
        (op.effect addr e (s.options.place? s.regions false addr op.size) rt) := by
  refine of_exec fun t m hm => ?_
  obtain ⟨ht, hready, haddr⟩ := hm
  have hbase : m.get .memoryBase = f.frame.memoryBase := congrArg (·.frame.memoryBase) ht.footing
  obtain ⟨code, labels, n, hexec, hcarries, hgets⟩ := dynamicAccess_gets haccepted
    (ht.registers.bus ▸ hbacks) (fun r hr => hbase.trans (hmain r hr)) hready.free ht.context haddr t
  exact ⟨(), _, n, hexec, hcarries, shows_of_gets ht hready hgets rfl fun _ => rfl⟩

/-- An access to a known place in a region. -/
theorem placedAccess {k : Nat} {region : FastRegion} {offset : UInt32}
    (hfind : findRegion s.regions addr op.size = some (k, region, offset)) :
    Acts s (fun t m => t.Shows f hidden e m ∧ op.Ready t.registers rt value e hidden m)
      (constantAddress k region offset >>= fun fast => emitChecked (op.direct value fast)) fun _ =>
        Lowering.Shows f []
          (op.effect addr e (s.options.place? s.regions true addr op.size) rt) := by
  refine of_exec fun t m hm => ?_
  obtain ⟨ht, hready⟩ := hm
  obtain ⟨hregion, hoffset⟩ := findRegion_eq_some hfind
  have hfits : offset.toNat + op.size ≤ region.length.toNat := by
    rw [FastRegion.offset?] at hoffset
    split at hoffset
    · next hle =>
      cases hoffset
      exact hle.2
    · cases hoffset
  -- The address that the code forms is the one that the effect names.
  have hplace : s.options.place? s.regions true addr op.size =
      some (region.pointer + offset.toUInt64) := by
    unfold Options.place?
    rw [if_pos rfl, hfind]
    rfl
  have hbase : m.get .memoryBase = f.frame.memoryBase := congrArg (·.frame.memoryBase) ht.footing
  obtain ⟨m₁, hprepare, haims, hkeeps⟩ := runs_placeInstructions (m := m) (n := k)
    (fun hk => hbase.trans (hmain region (hk ▸ hregion))) offset
  obtain ⟨hstate, hbytes⟩ :=
    (ht.registers.bus ▸ hbacks : Bus.Backs s.regions m.env.bus).access
      (List.mem_of_getElem? hregion) op.width_pos hfits
  obtain ⟨is, hdirect, n, hruns, hgets⟩ :=
    op.gets_direct hstate (hkeeps.env ▸ hbytes) hready.free haims
  refine ⟨(), { t with
      code := t.code ++ (placeInstructions k region offset ++ is).map Item.instruction }, n, ?_,
    .instructions rfl (hprepare.append hruns), ?_⟩
  · rw [exec_bind_of_ok (exec_constantAddress ..), exec_emitChecked hdirect, List.map_append,
      appendList_append]
  · rw [hplace]
    exact shows_of_gets ht hready (hgets.of_keeps hready.free hkeeps) rfl fun _ => rfl

end Regions

/-! ### Registers that are mapped on the way -/

/-- Mapping a register, and what mapping keeps. -/
theorem map_keeping (reg : GuestIndex) (access : Access) {p : Assertion β}
    {q : RegisterCache → HostMachine β → Prop}
    (hkept : ∀ (t : Lowering β) m (c : RegisterCache) n, p t m → m.Transfers (access.lost reg) n →
      t.registers.Spares c →
      (∀ r, r ∉ access.lost reg → c.value n r = t.registers.value m r) → q c n) :
    Acts s (fun t m => t.Shows f [] e m ∧ p t m) (Lower.map reg access) fun host u n =>
      u.Shows f (access.lost reg) e n ∧
        u.registers.Mapped n reg access (e.state.get reg) host ∧ q u.registers n := by
  intro t host u hexec m hm
  obtain ⟨ht, hbefore⟩ := hm
  obtain ⟨n, hmoves, hspares, hmapped⟩ :=
    RegisterCache.maps (a := ⟨t.registers, [], []⟩) ht.consistent reg access
  rw [Lower.map, exec_allocating] at hexec
  obtain ⟨hresult, rfl⟩ := Prod.mk.inj hexec
  have hshows := ht.registers.moves (a := ⟨t.registers, [], []⟩) hmoves
  rw [List.append_nil] at hshows
  have hfooting : t.footing n = t.footing m := by
    rw [Lowering.footing, Lowering.footing, hmoves.transfers.frame]
  refine ⟨n, .moves hmoves rfl, ⟨hshows, hfooting.trans ht.footing⟩, ?_,
    hkept t m _ n hbefore hmoves.transfers hspares hmoves.value⟩
  rw [← ht.registers.registers reg List.not_mem_nil]
  exact hmapped host hresult

/-- A guest register that is in a host register already is mapped for writing without any code. -/
theorem map_resident {base : GuestIndex} (hne : base ≠ zeroRegister) {x : HostRegister} :
    Acts s (fun t m => t.Shows f [] e m ∧
        t.registers.Mapped m base .read (e.state.get base) x)
      (Lower.map base .write) fun y u n => u.Shows f [base] e n ∧
        u.registers.Mapped n base .write (e.state.get base) y ∧
        x ∈ HostRegister.allocationOrder ∧ n.getWord x = e.state.get base := by
  refine of_exec fun t m hm => ?_
  obtain ⟨ht, hmapped⟩ := hm
  have hplace : t.registers.location base = .host x :=
    hmapped.place.resolve_left fun hzero => hne hzero.1
  have hexec : (RegisterCache.map base .write).exec ⟨t.registers, [], []⟩ =
      (.ok x, ⟨t.registers.updateSlot x (some base) true, [], []⟩) :=
    RegisterCache.exec_map_of_host (fun hzero => hne hzero.1) hplace
  refine ⟨x, { t with registers := t.registers.updateSlot x (some base) true }, m, ?_,
    .of_code_eq rfl m, ⟨?_, ht.footing⟩, ⟨fun h => absurd rfl h, .inr hplace, fun _ _ => ?_⟩,
    hmapped.mem_of_read ht.consistent.toPaired, hmapped.value (by decide)⟩
  · rw [Lower.map, exec_allocating, hexec]
    simp
  · exact (ht.registers.of_cache (ht.consistent.markDirty hplace hne) fun _ _ => rfl).mono (by simp)
  · exact ((ht.consistent.toPaired.markDirty hplace).2 x base true).2 (.inr ⟨rfl, rfl, rfl⟩)

/-- Mapping the base and the destination of a load, which may be the same register. -/
theorem mapLoad {base : GuestIndex} (hrt : rt ≠ zeroRegister) {α : Type}
    {k : HostRegister → HostRegister → Lower β α} {post : α → Assertion β}
    (hk : ∀ x y, Acts s (fun t m => t.Shows f [rt] e m ∧
      t.registers.Mapped m rt .write (e.state.get rt) y ∧
      x ∈ HostRegister.allocationOrder ∧ m.getWord x = e.state.get base) (k x y) post) :
    Acts s (fun t m => t.Shows f [] e m ∧ t.registers.locked.get base = true)
      (Lower.map base .read >>= fun x => Lower.map rt .write >>= fun y => k x y) post := by
  have hread := map_keeping (s := s) (f := f) (e := e) base .read
    (p := fun t _ => t.registers.locked.get base = true)
    (q := fun c _ => c.locked.get base = true)
    fun _ _ _ _ hlocked _ hspares _ => hspares.locked ▸ hlocked
  rw [Access.lost_read] at hread
  refine hread.bind fun x => ?_
  -- The same register is mapped once, and is both read and overwritten.
  by_cases hbase : base = rt
  · subst hbase
    exact ((map_resident hrt).mono (fun t m hm => ⟨hm.1, hm.2.1⟩) fun _ _ _ h => h).bind (hk x)
  · have hlost : Access.write.lost rt = [rt] := if_pos (.inl rfl)
    have hwrite := map_keeping (s := s) (f := f) (e := e) rt .write
      (p := fun t m => t.registers.Mapped m base .read (e.state.get base) x ∧
        t.registers.locked.get base = true)
      (q := fun c n => c.Mapped n base .read (e.state.get base) x)
      fun t m c n hm _ hspares hvalue =>
        hm.1.stays hm.2 hspares (hvalue base (by rw [hlost]; simpa using hbase))
    rw [hlost] at hwrite
    refine hwrite.bind fun y => (hk x y).mono (fun t m hm => ?_) fun _ _ _ h => h
    exact ⟨hm.1, hm.2.1, hm.2.2.mem_of_read hm.1.consistent.toPaired, hm.2.2.value (by decide)⟩

/-! ### Constant addresses -/

/-- The helper of a load leaves the value in the scratch register. -/
theorem loadCall (kind : LoadKind) (stored : UInt32) :
    Acts s (fun t m => t.Shows f [] e m ∧ m.getWord .scratch = addr)
      (emitChecked (Sequence.call (Helper.load kind).address [.context, .register .scratch]))
      fun _ t m => t.Shows f [] ((MemoryOp.load kind).act none addr stored e).2 m ∧
        m.getWord .scratch = ((MemoryOp.load kind).act none addr stored e).1 := by
  refine of_exec fun t m hm => ?_
  obtain ⟨ht, haddr⟩ := hm
  obtain ⟨is, hcall, n, hruns, hloaded, hkeeps⟩ := Sequence.runs_loadHelper ht.context kind
  rw [haddr] at hloaded hkeeps
  have hafter := ht.registers.withAct (.load kind) none addr stored
  have hact := (MemoryOp.load kind).act_congr none addr stored ht.registers.bus ht.registers.events
  have hvalue : (m.env.load kind addr).1 = ((MemoryOp.load kind).act none addr stored e).1 := by
    change ((MemoryOp.load kind).act none addr stored m.env).1 = _
    rw [hact]
  have hfree : ∀ r ∈ HostRegister.volatile, r ∉ HostRegister.allocationOrder ∧ r ≠ .context := by
    decide
  have hframe : n.frame = m.frame := hkeeps.frame (by decide) (by decide) (by decide)
  refine ⟨(), _, n, exec_emitChecked hcall s t, .instructions rfl hruns,
    ⟨hafter.keeps hkeeps hfree, ?_⟩, hloaded.trans hvalue⟩
  rw [← ht.footing, Lowering.footing, Lowering.footing, hframe]

/-- A load from a constant address outside of all regions. The register is mapped after the call. -/
theorem constantLoad_slow (kind : LoadKind) (hrt : rt ≠ zeroRegister) :
    Acts s (Lowering.Shows f [] e)
      (Lower.emit (Sequence.moveImmediate .scratch addr) >>= fun _ =>
        emitChecked (Sequence.call (Helper.load kind).address [.context, .register .scratch]) >>=
          fun _ => Lower.map rt .write >>= fun dst => Lower.emit (Sequence.move dst .scratch))
      fun _ => Lowering.Shows f [] ((MemoryOp.load kind).effect addr e none rt) := by
  refine ((scratch addr (p := fun _ _ => True) fun _ _ _ _ _ => trivial).mono
    (fun t m ht => ⟨ht, trivial⟩) fun _ _ _ h => h).bind fun _ => ?_
  refine ((loadCall kind (e.register rt)).mono (fun t m hm => ⟨hm.1, hm.2.2⟩)
    fun _ _ _ h => h).bind fun _ => ?_
  refine (map_keeping rt .write (q := fun _ n => n.getWord .scratch =
    ((MemoryOp.load kind).act none addr (e.register rt) e).1) fun t m c n hword htransfers _ _ => ?_).bind
      fun dst => ?_
  · refine (congrArg UInt64.toUInt32 (htransfers.registers .scratch (by decide) (by decide)
      fun _ hmem => ?_)).trans hword
    exact hrt (Access.eq_of_mem_lost hmem).symm
  · refine emit_assign (l := [dst]) hrt rfl (fun r hr => Access.eq_of_mem_lost hr) (by simp)
      fun t m ht hhost hword => ?_
    obtain ⟨n, hruns, hvalue, -, hkeeps⟩ := Sequence.runs_move
      (HostRegister.valid_of_mem_allocationOrder hhost) (by decide : HostRegister.scratch.Valid) m
    exact ⟨n, hruns, hvalue.trans hword, hkeeps⟩

/-- A store to a constant address outside of all regions. -/
theorem constantStore_slow (width : Width) :
    Acts s (Lowering.Shows f [] e)
      (Lower.map rt .read >>= fun src => Lower.emit (Sequence.moveImmediate .scratch addr) >>=
        fun _ => emitChecked ((MemoryOp.store width).slow src))
      fun _ => Lowering.Shows f [] ((MemoryOp.store width).effect addr e none rt) := by
  refine (map_read rt).bind fun src => ?_
  refine ((scratch addr (p := fun t m =>
    (MemoryOp.store width).Ready t.registers rt src e [] m) fun t u m hregisters hready => ?_).mono
      (fun t m hm => ⟨hm.1, ?_⟩) fun _ _ _ h => h).bind fun _ => slowAccess
  · refine ⟨hready.free, fun hload => (by cases hload), fun _ => ?_⟩
    obtain ⟨hword, hnil⟩ := hready.source rfl
    refine ⟨?_, hnil⟩
    rw [← hword]
    exact congrArg UInt64.toUInt32 (m.get_setWord_of_ne (by decide)
      (HostRegister.valid_of_mem_allocationOrder hready.free)
      (MemoryOp.ne_volatile hready.free (by decide)).symm _)
  · have hready : (MemoryOp.store width).Ready t.registers rt src e (Access.read.lost rt) m :=
      .of_mapped hm.2 hm.1.consistent.toPaired fun hload => (by cases hload)
    rwa [Access.lost_read] at hready

section Accesses

variable (hbacks : Bus.Backs s.regions e.bus)
  (hmain : ∀ r, s.regions[0]? = some r → f.frame.memoryBase = r.pointer)

include hbacks hmain

/-- An access to a constant address. -/
theorem constantAccess (hrt : op.isLoad = true → rt ≠ zeroRegister) :
    Acts s (Lowering.Shows f [] e) (Lower.constantAccess op rt addr) fun _ =>
      Lowering.Shows f []
        (op.effect addr e (s.options.place? s.regions true addr op.size) rt) := by
  refine read_bind ?_
  cases hfind : findRegion s.regions addr op.size with
  | some place =>
    obtain ⟨k, region, offset⟩ := place
    have hplaced : Acts s (Lowering.Shows f [] e) (Lower.map rt op.access >>= fun value =>
        constantAddress k region offset >>= fun fast => emitChecked (op.direct value fast))
        fun _ => Lowering.Shows f []
          (op.effect addr e (s.options.place? s.regions true addr op.size) rt) :=
      (map rt op.access).bind fun value => (placedAccess hbacks hmain hfind).mono
        (fun t m hm => ⟨hm.1, .of_mapped hm.2 hm.1.consistent.toPaired hrt⟩) fun _ _ _ h => h
    cases op <;> exact hplaced
  | none =>
    have hplace : s.options.place? s.regions true addr op.size = none := by
      unfold Options.place?
      rw [if_pos rfl, hfind]
      rfl
    rw [hplace]
    cases op with
    | load kind => exact constantLoad_slow kind (hrt rfl)
    | store width => exact constantStore_slow width

/-! ### Addresses known at run time -/

/-- An access to the sum of a register and a constant. -/
theorem addressedAccess (haccepted : s.options.Accepted s.regions) {base : HostRegister}
    (hbase : base.Valid) {b offset : UInt32} (hidden : List GuestIndex) :
    Acts s (fun t m => t.Shows f hidden e m ∧ op.Ready t.registers rt value e hidden m ∧
        m.getWord base = b)
      (Lower.emit (Sequence.loadAddress .scratch base offset) >>= fun _ =>
        Lower.dynamicAccess op value) fun _ => Lowering.Shows f [] (op.effect (b + offset) e
          (s.options.place? s.regions false (b + offset) op.size) rt) := by
  have haccess : Acts s (fun t m => t.Shows f hidden e m ∧
      op.Ready t.registers rt value e hidden m ∧ m.get .scratch = (b + offset).toUInt64)
      (Lower.dynamicAccess op value) fun _ => Lowering.Shows f [] (op.effect (b + offset) e
        (s.options.place? s.regions false (b + offset) op.size) rt) :=
    dynamicAccess hbacks hmain haccepted
  refine (emit fun t m hm => ?_).bind fun _ => haccess
  obtain ⟨ht, hready, rfl⟩ := hm
  have hruns := Sequence.runs_loadAddress (by decide : HostRegister.scratch.Valid) hbase offset m
  have hkeeps : m.Keeps [.scratch] (m.setWord .scratch (m.getWord base + offset)) :=
    .setWord (by decide) (by decide) m _
  refine ⟨_, hruns, fun u hregisters hfooting => ⟨?_, ?_, get_setWord_self m _ _⟩⟩
  · exact (ht.keeps hkeeps (by simp [HostRegister.volatile, HostRegister.scratch])).of_eq hregisters
      (hfooting _)
  · rw [hregisters]
    refine ⟨hready.free, hready.destination, fun hstore => ?_⟩
    obtain ⟨hword, hnil⟩ := hready.source hstore
    refine ⟨(hkeeps.getWord (HostRegister.valid_of_mem_allocationOrder hready.free) ?_).trans hword,
      hnil⟩
    simpa using MemoryOp.ne_volatile hready.free (by decide)

end Accesses

/-! ### Instructions -/

/-- What a lowering knows of a register decides how it goes on. -/
theorem immediate?_bind_known {α : Type} {reg : GuestIndex} {k : Option UInt32 → Lower β α}
    {post : α → Assertion β} {known : Bool}
    (hsome : known = true → Acts s (Lowering.Shows f [] e) (k (some (e.state.get reg))) post)
    (hnone : known = false → Acts s (Lowering.Shows f [] e) (k none) post) :
    Acts s (fun t m => t.Shows f [] e m ∧ (t.registers.immediate? reg).isSome = known)
      (immediate? reg >>= k) post := by
  intro t r u hexec m hm
  obtain ⟨ht, hknown⟩ := hm
  rw [exec_bind_of_ok (exec_immediate? ..)] at hexec
  cases himmediate : t.registers.immediate? reg with
  | none =>
    rw [himmediate] at hexec hknown
    exact hnone hknown.symm hexec ht
  | some v =>
    rw [himmediate] at hexec hknown
    rw [← ht.registers.get_of_immediate? himmediate] at hexec
    exact hsome hknown.symm hexec ht

/-- Locking the base and the destination of a load. -/
theorem lock_bind {α : Type} {base : GuestIndex} {k : Lower β α} {post : α → Assertion β}
    (hk : Acts s (fun t m => t.Shows f [] e m ∧ t.registers.locked.get base = true) k post) :
    Acts s (Lowering.Shows f [] e) (Lower.updateRegisters (·.lock base) >>= fun _ =>
      Lower.updateRegisters (·.lock rt) >>= fun _ => k) post := by
  have hlock : Acts s (Lowering.Shows f [] e) (Lower.updateRegisters (·.lock base))
      fun _ t m => t.Shows f [] e m ∧ t.registers.locked.get base = true :=
    modify (fun _ => rfl) fun t m ht =>
      ⟨⟨ht.registers.setLocked _, ht.footing⟩, RegisterCache.locked_lock_self t.registers base⟩
  refine hlock.bind fun _ => bind (modify (fun _ => rfl) fun t m ht => ?_) fun _ => hk
  refine ⟨⟨ht.1.registers.setLocked _, ht.1.footing⟩, ?_⟩
  change (t.registers.locked.set rt true)[base.val] = true
  rw [Vector.getElem_set]
  split
  · rfl
  · exact ht.2

/-- A load or store. -/
theorem memoryAccess (haccepted : s.options.Accepted s.regions)
    (hbacks : Bus.Backs s.regions e.bus)
    (hmain : ∀ r, s.regions[0]? = some r → f.frame.memoryBase = r.pointer) {i : Instruction}
    (hi : i.entry ∈ Entry.table) (hop : MemoryOp.ofMnemonic? i.mnemonic = some op) {known : Bool}
    {pc : UInt32} :
    Acts s (fun t m => t.Shows f [] e m ∧ t.knows i = known) (Lower.memoryAccess i op) fun _ =>
      Lowering.Shows f [] (i.perform s.options s.regions known pc e) := by
  refine registerOperand_bind fun rt hrt => registerOperand_bind fun base hbase =>
    checked_bind fun offset hoffset => ?_
  have htarget := Instruction.registerOf_of_operand hi rfl hrt
  have haddress := Instruction.effectiveAddress_of_operands hi hbase hoffset e
  -- Whether the address is known to the lowering is whether the base register holds a constant.
  have hknows (t : Lowering β) (m : HostMachine β) (hm : t.Shows f [] e m ∧ t.knows i = known) :
      t.Shows f [] e m ∧ (t.registers.immediate? (guestOperand base)).isSome = known := by
    obtain ⟨ht, hknown⟩ := hm
    rw [Lowering.knows, hbase] at hknown
    exact ⟨ht, hknown⟩
  have hperform (hrt : op.isLoad = true → guestOperand rt ≠ zeroRegister) :
      i.perform s.options s.regions known pc e =
        op.effect (e.state.get (guestOperand base) + offset) e (s.options.place? s.regions known
          (e.state.get (guestOperand base) + offset) op.size) (guestOperand rt) := by
    unfold Instruction.perform
    rw [hop]
    dsimp only
    rw [if_neg fun h => hrt h.1 (Fin.ext (htarget.symm.trans h.2)), haddress, htarget]
  -- Loads to register zero are skipped. Otherwise the access is lowered by what is known of its
  -- address.
  cases op with
  | load kind =>
    refine ite (fun hzero => pure fun t m hm => ?_) fun hzero => ?_
    · have hskip : i.perform s.options s.regions known pc e = e := by
        unfold Instruction.perform
        rw [hop]
        exact if_pos ⟨rfl, htarget.trans (congrArg Fin.val hzero)⟩
      rw [hskip]
      exact hm.1
    · rw [hperform fun _ => hzero]
      refine (immediate?_bind_known (fun hknown => ?_) fun hknown => ?_).mono hknows
        fun _ _ _ h => h
      · subst hknown
        exact constantAccess hbacks hmain fun _ => hzero
      · subst hknown
        refine lock_bind (mapLoad hzero fun x y => assume (fun t m hm => hm.2.2.1) fun hx =>
          (addressedAccess hbacks hmain haccepted
            (HostRegister.valid_of_mem_allocationOrder hx) [guestOperand rt]).mono
              (fun t m hm => ?_) fun _ _ _ h => h)
        exact ⟨hm.1, ⟨hm.1.consistent.mem_allocationOrder (hm.2.1.dirty hzero rfl),
          fun _ => ⟨hm.2.1.dirty hzero rfl, by simp⟩, fun hstore => (by cases hstore)⟩, hm.2.2.2⟩
  | store width =>
    rw [hperform fun hload => (by cases hload)]
    refine (immediate?_bind_known (fun hknown => ?_) fun hknown => ?_).mono hknows
      fun _ _ _ h => h
    · subst hknown
      exact constantAccess hbacks hmain fun hload => (by cases hload)
    · subst hknown
      refine (mapSources _ _).bind fun r => assume
        (fun t m hm => hm.2.1.mem_of_read hm.1.consistent.toPaired) fun hx =>
          (addressedAccess hbacks hmain haccepted
            (HostRegister.valid_of_mem_allocationOrder hx) []).mono (fun t m hm => ?_)
              fun _ _ _ h => h
      exact ⟨hm.1, ⟨hm.2.2.mem_of_read hm.1.consistent.toPaired, fun hload => (by cases hload),
        fun _ => ⟨hm.2.2.value (by decide), rfl⟩⟩, hm.2.1.value (by decide)⟩

end Acts

end Lower

end Recompiler
