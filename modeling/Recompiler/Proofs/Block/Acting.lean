import Recompiler.Proofs.Block.CacheOperation
import Recompiler.Proofs.Block.Quiet
import Recompiler.Proofs.Block.Showing

/-!
# What the code of a lowering step does

A lowering step is described by what its code does to a machine, given what holds of the lowering and
of the machine before. Steps that fail add no code that runs, so nothing is said about them.

* `Lower.Acts`: where the step succeeds, its code takes every machine of which `before` holds to one
  of which `after` holds.
* `Lower.Footing`, `Lowering.Shows`: the lowering has come to a place, where the machine shows a guest.
* `Acts.allocating`, `Acts.emit` and following: the steps that others are made of.
-/

namespace Recompiler

open HostMachine

variable {β α γ : Type}

/-- What a lowering and a machine that has run its code have in common. -/
abbrev Lower.Assertion (β : Type) := Lowering β → HostMachine β → Prop

/-- Where a lowering is, apart from its code and registers, with what the machine keeps while a block
runs. -/
structure Lower.Footing (β : Type) where
  frame : Frame
  bus : β
  pc : UInt32
  cycles : UInt32
  isOpen : Bool
  cancelled : Bool

/-- The place that a lowering has come to. -/
def Lowering.footing (t : Lowering β) (m : HostMachine β) : Lower.Footing β :=
  ⟨m.frame, t.bus, t.pc, t.cycles, t.isOpen, t.cancelled⟩

/-- The lowering has come to the place `f`, where the machine shows the guest `e` apart from the
registers that are hidden. -/
structure Lowering.Shows (f : Lower.Footing β) (hidden : List GuestIndex) (e : Environment β)
    (t : Lowering β) (m : HostMachine β) : Prop where
  registers : t.registers.Shows hidden m e
  footing : t.footing m = f

namespace Lowering.Shows

variable {f : Lower.Footing β} {hidden : List GuestIndex} {e : Environment β} {t u : Lowering β}
  {m n : HostMachine β}

theorem consistent (h : t.Shows f hidden e m) : t.registers.Consistent m := h.registers.consistent

theorem context (h : t.Shows f hidden e m) : m.get .context = Linkage.contextBase :=
  h.registers.consistent.context

/-- Host registers without a role may change. -/
theorem keeps (h : t.Shows f hidden e m) {lost : List HostRegister} (hkeeps : m.Keeps lost n)
    (hlost : ∀ r ∈ lost, r ∈ HostRegister.volatile) : t.Shows f hidden e n := by
  have hrole {r : HostRegister} (hr : r ∉ HostRegister.volatile) : r ∉ lost :=
    fun hmem => hr (hlost r hmem)
  have hfree : ∀ r ∈ HostRegister.volatile, r ∉ HostRegister.allocationOrder ∧ r ≠ .context := by
    decide
  have hframe : n.frame = m.frame :=
    hkeeps.frame (hrole (by decide)) (hrole (by decide)) (hrole (by decide))
  refine ⟨h.registers.keeps hkeeps fun r hr => hfree r (hlost r hr), ?_⟩
  rw [← h.footing, Lowering.footing, Lowering.footing, hframe]

/-- Only the registers and the place matter. -/
theorem of_eq (h : t.Shows f hidden e m) (hregisters : u.registers = t.registers)
    (hfooting : u.footing m = t.footing m) : u.Shows f hidden e m :=
  ⟨hregisters ▸ h.registers, hfooting.trans h.footing⟩

end Lowering.Shows

namespace Lower

variable [Bus β] {s : Surroundings} {f : Footing β} {e : Environment β} {hidden : List GuestIndex}
  {pre pre' : Assertion β} {post post' : α → Assertion β} {next : γ → Assertion β}

/-- Where the step succeeds, its code takes every machine of which `pre` holds to one of which `post`
holds. -/
def Acts (s : Surroundings) (pre : Assertion β) (x : Lower β α) (post : α → Assertion β) : Prop :=
  ∀ ⦃t r u⦄, x.exec s t = (.ok r, u) → ∀ ⦃m⦄, pre t m → ∃ n, t.Carries m u n ∧ post r u n

namespace Acts

/-! ### Putting steps together -/

theorem mono {x : Lower β α} (hx : Acts s pre x post) (hpre : ∀ t m, pre' t m → pre t m)
    (hpost : ∀ r u n, post r u n → post' r u n) : Acts s pre' x post' := by
  intro t r u hexec m hm
  obtain ⟨n, hcarries, hn⟩ := hx hexec (hpre t m hm)
  exact ⟨n, hcarries, hpost r u n hn⟩

theorem pure {r : α} (h : ∀ t m, pre t m → post r t m) : Acts s pre (Pure.pure r) post := by
  rintro t _ _ ⟨⟩ m hm
  exact ⟨m, .of_code_eq rfl m, h t m hm⟩

theorem bind {x : Lower β α} {k : α → Lower β γ} (hx : Acts s pre x post)
    (hk : ∀ r, Acts s (post r) (k r) next) : Acts s pre (x >>= k) next := by
  intro t r v hexec m hm
  rw [exec_bind] at hexec
  rcases hfirst : x.exec s t with ⟨_ | q, u⟩ <;> rw [hfirst] at hexec
  · cases hexec
  · obtain ⟨n, hcarries, hn⟩ := hx hfirst hm
    obtain ⟨p, hcarries', hp⟩ := hk q hexec hn
    exact ⟨p, hcarries.trans hcarries', hp⟩

theorem ite {c : Prop} [Decidable c] {x y : Lower β α} (hx : c → Acts s pre x post)
    (hy : ¬ c → Acts s pre y post) : Acts s pre (if c then x else y) post := by
  split
  · next h => exact hx h
  · next h => exact hy h

theorem read_bind {k : Surroundings → Lower β α} (h : Acts s pre (k s) post) :
    Acts s pre (read >>= k) post :=
  h

/-- What is known before the step may be used for it. -/
theorem assume {x : Lower β α} {fact : Prop} (hfact : ∀ t m, pre t m → fact)
    (hx : fact → Acts s pre x post) : Acts s pre x post :=
  fun t _ _ hexec m hm => hx (hfact t m hm) hexec hm

/-! ### Steps without code -/

theorem modify {g : Lowering β → Lowering β} (hcode : ∀ t, (g t).code = t.code)
    (h : ∀ t m, pre t m → pre' (g t) m) :
    Acts s pre (modify g : Lower β PUnit) fun _ => pre' := by
  rintro t _ _ ⟨⟩ m hm
  exact ⟨m, .of_code_eq (hcode t) m, h t m hm⟩

theorem updateRegisters {g : RegisterCache → RegisterCache} {hidden' : List GuestIndex}
    {e' : Environment β}
    (h : ∀ (c : RegisterCache) (m : HostMachine β), c.Shows hidden m e → (g c).Shows hidden' m e') :
    Acts s (Lowering.Shows f hidden e) (Lower.updateRegisters g) fun _ =>
      Lowering.Shows f hidden' e' :=
  modify (fun _ => rfl) fun t m ht => ⟨h t.registers m ht.registers, ht.footing⟩

theorem lock (reg : GuestIndex) : Acts s (Lowering.Shows f hidden e)
    (Lower.updateRegisters (·.lock reg)) fun _ => Lowering.Shows f hidden e :=
  updateRegisters fun _ _ h => h.setLocked _

theorem release : Acts s (Lowering.Shows f hidden e)
    (Lower.updateRegisters (·.release)) fun _ => Lowering.Shows f hidden e :=
  updateRegisters fun _ _ h => h.setLocked _

/-- A constant is what the guest register holds from now on. -/
theorem setImmediate (reg : GuestIndex) (value : UInt32) :
    Acts s (Lowering.Shows f [] e) (Lower.setImmediate reg value) fun _ =>
      Lowering.Shows f [] (e.setRegister reg value) :=
  updateRegisters fun _ _ h => h.setImmediate value

theorem checked_bind {x : Except Breach γ} {k : γ → Lower β α}
    (hk : ∀ v, x = .ok v → Acts s pre (k v) post) : Acts s pre (checked x >>= k) post := by
  cases x with
  | error b =>
    intro t r u hexec
    cases hexec
  | ok v => exact hk v rfl

theorem registerOperand_bind {x : Except Breach UInt32} {k : GuestIndex → Lower β α}
    (hk : ∀ v, x = .ok v → Acts s pre (k (guestOperand v)) post) :
    Acts s pre (registerOperand x >>= k) post := by
  cases x with
  | error b =>
    intro t r u hexec
    cases hexec
  | ok v => exact hk v rfl

/-- A constant that is known is the value of the register. -/
theorem immediate?_bind {reg : GuestIndex} {k : Option UInt32 → Lower β α}
    (hk : ∀ v?, (∀ v, v? = some v → e.state.get reg = v) →
      Acts s (Lowering.Shows f [] e) (k v?) post) :
    Acts s (Lowering.Shows f [] e) (immediate? reg >>= k) post :=
  fun t _ _ hexec _ hm => hk (t.registers.immediate? reg)
    (fun _ hv => hm.registers.get_of_immediate? hv) hexec hm

/-! ### Steps with code -/

theorem emit {is : List HostInstruction}
    (h : ∀ t m, pre t m → ∃ n, Runs is m n ∧
      ∀ u : Lowering β, u.registers = t.registers → (∀ p, u.footing p = t.footing p) → pre' u n) :
    Acts s pre (Lower.emit is) fun _ => pre' := by
  rintro t _ _ ⟨⟩ m hm
  obtain ⟨n, hruns, hn⟩ := h t m hm
  exact ⟨n, .instructions rfl hruns, hn _ rfl fun _ => rfl⟩

/-- Storing a constant in a word past the guest registers. -/
theorem storeStateImmediate {slot : Nat} (hslot : 32 ≤ slot) (hcount : slot < Slot.count)
    (value : UInt32) :
    Acts s (Lowering.Shows f hidden e)
      (Lower.emit (Sequence.storeStateImmediate (Slot.offset slot) value)) fun _ =>
        Lowering.Shows f hidden (e.setWord slot value) :=
  emit fun _ _ ht => ⟨_, Sequence.runs_storeStateImmediate ht.context hcount value,
    fun _ hregisters hfooting =>
      ⟨hregisters ▸ ht.registers.setSlot hslot value, (hfooting _).trans ht.footing⟩⟩

/-- Storing a host register in a word past the guest registers. -/
theorem storeState {slot : Nat} (hslot : 32 ≤ slot) (hcount : slot < Slot.count)
    {src : HostRegister} (hsrc : src.Valid) {value : UInt32} :
    Acts s (fun t m => t.Shows f hidden e m ∧ m.getWord src = value)
      (Lower.emit (Sequence.storeState (Slot.offset slot) src)) fun _ =>
        Lowering.Shows f hidden (e.setWord slot value) :=
  emit fun _ _ hm => ⟨_, Sequence.runs_storeState hsrc hm.1.context hcount,
    fun _ hregisters hfooting => by
      rw [← hm.2]
      exact ⟨hregisters ▸ hm.1.registers.setSlot hslot _, (hfooting _).trans hm.1.footing⟩⟩

/-! ### The register cache -/

/-- An operation on the register cache shows the same guest, apart from what it loses. -/
theorem allocating {x : Allocate α} {lost : List GuestIndex}
    {q : (GuestIndex → UInt32) → α → RegisterCache → HostMachine β → Prop}
    (hx : ∀ {a : Allocation} {m : HostMachine β}, a.cache.Consistent m →
      ∃ n, a.Moves lost m (x.exec a).2 n ∧
        ∀ r, (x.exec a).1 = .ok r → q (a.cache.value m) r (x.exec a).2.cache n) :
    Acts s (Lowering.Shows f [] e) (Lower.allocating x) fun r u n =>
      u.Shows f lost e n ∧ q (fun reg => e.state.get reg) r u.registers n := by
  intro t r u hexec m hm
  have hvalues : t.registers.value m = fun reg : GuestIndex => e.state.get reg :=
    funext fun reg => hm.registers.registers reg List.not_mem_nil
  obtain ⟨n, hmoves, hfound⟩ := hx (a := ⟨t.registers, [], []⟩) hm.consistent
  rw [exec_allocating] at hexec
  obtain ⟨hresult, rfl⟩ := Prod.mk.inj hexec
  have hshows := hm.registers.moves (a := ⟨t.registers, [], []⟩) hmoves
  rw [List.append_nil] at hshows
  have hfooting : t.footing n = t.footing m := by
    rw [Lowering.footing, Lowering.footing, hmoves.transfers.frame]
  exact ⟨n, .moves hmoves rfl, ⟨hshows, hfooting.trans hm.footing⟩, hvalues ▸ hfound r hresult⟩

theorem map (reg : GuestIndex) (access : Access) :
    Acts s (Lowering.Shows f [] e) (Lower.map reg access) fun host u n =>
      u.Shows f (access.lost reg) e n ∧ u.registers.Mapped n reg access (e.state.get reg) host :=
  allocating (q := fun values host c n => c.Mapped n reg access (values reg) host) fun h => by
    obtain ⟨n, hmoves, -, hmapped⟩ := RegisterCache.maps h reg access
    exact ⟨n, hmoves, hmapped⟩

theorem map_read (reg : GuestIndex) :
    Acts s (Lowering.Shows f [] e) (Lower.map reg .read) fun host u n =>
      u.Shows f [] e n ∧ u.registers.Mapped n reg .read (e.state.get reg) host := by
  have h := map (s := s) (f := f) (e := e) reg .read
  rwa [Access.lost_read] at h

theorem mapSources (rs rt : GuestIndex) :
    Acts s (Lowering.Shows f [] e) (Lower.allocating (RegisterCache.mapSources rs rt)) fun r u n =>
      u.Shows f [] e n ∧ u.registers.Mapped n rs .read (e.state.get rs) r.1 ∧
        u.registers.Mapped n rt .read (e.state.get rt) r.2 :=
  allocating (q := fun values (r : HostRegister × HostRegister) c n =>
    c.Mapped n rs .read (values rs) r.1 ∧ c.Mapped n rt .read (values rt) r.2) fun h => by
      obtain ⟨n, hmoves, -, hmapped⟩ := RegisterCache.moves_mapSources h rs rt
      exact ⟨n, hmoves, fun r => hmapped r.1 r.2⟩

theorem mapTarget (dst src : GuestIndex) :
    Acts s (Lowering.Shows f [] e) (Lower.allocating (RegisterCache.mapTarget dst src)) fun r u n =>
      u.Shows f ((RegisterCache.targetAccess dst [src]).lost dst) e n ∧
        u.registers.Mapped n dst (RegisterCache.targetAccess dst [src]) (e.state.get dst) r.1 ∧
        u.registers.Mapped n src .read (e.state.get src) r.2 :=
  allocating (q := fun values (r : HostRegister × HostRegister) c n =>
    c.Mapped n dst (RegisterCache.targetAccess dst [src]) (values dst) r.1 ∧
      c.Mapped n src .read (values src) r.2) fun h => by
        obtain ⟨n, hmoves, hmapped⟩ := RegisterCache.moves_mapTarget h dst src
        exact ⟨n, hmoves, fun r => hmapped r.1 r.2⟩

theorem mapTargetSources (dst rs rt : GuestIndex) :
    Acts s (Lowering.Shows f [] e) (Lower.allocating (RegisterCache.mapTargetSources dst rs rt))
      fun r u n => u.Shows f ((RegisterCache.targetAccess dst [rs, rt]).lost dst) e n ∧
        u.registers.Mapped n dst (RegisterCache.targetAccess dst [rs, rt]) (e.state.get dst) r.1 ∧
        u.registers.Mapped n rs .read (e.state.get rs) r.2.1 ∧
        u.registers.Mapped n rt .read (e.state.get rt) r.2.2 :=
  allocating (q := fun values (r : HostRegister × HostRegister × HostRegister) c n =>
    c.Mapped n dst (RegisterCache.targetAccess dst [rs, rt]) (values dst) r.1 ∧
      c.Mapped n rs .read (values rs) r.2.1 ∧ c.Mapped n rt .read (values rt) r.2.2) fun h => by
        obtain ⟨n, hmoves, hmapped⟩ := RegisterCache.moves_mapTargetSources h dst rs rt
        exact ⟨n, hmoves, fun r => hmapped r.1 r.2.1 r.2.2⟩

/-- Once everything is stored, the guest is the one in memory. -/
theorem flushAll : Acts s (Lowering.Shows f [] e) Lower.flushAll fun _ u n =>
    u.Shows f [] e n ∧ u.registers.Home :=
  allocating (q := fun _ _ c _ => c.Home) fun h => by
    obtain ⟨n, -, hmoves⟩ := RegisterCache.moves_flushAll h
    exact ⟨n, hmoves, fun _ _ => RegisterCache.home_flushAll h⟩

end Acts

end Lower

end Recompiler
