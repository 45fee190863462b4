import Recompiler.Proofs.Block.Mapping
import Recompiler.Proofs.Host.Contained

/-!
# Tidy register cache operations

What an operation on the register cache does to host code, whatever the machine: the registers with
fixed roles are never handed out, and all that is emitted moves guest registers.

* `RegisterCache.Placed`: guest registers live in registers that may hold them.
* `Allocate.Tidy`: an operation that keeps to this.
* `Tidy.map`, `Tidy.mapSources` and following: the operations.
-/

namespace Recompiler

/-! ## Placement -/

/-- Guest registers live in registers that are handed out, if in any. -/
structure RegisterCache.Placed (c : RegisterCache) : Prop where
  slots : ∀ slot ∈ c.slots, slot.host ∈ HostRegister.allocationOrder
  location : ∀ reg host, c.location reg = .host host → host ∈ HostRegister.allocationOrder

namespace RegisterCache.Placed

variable {c : RegisterCache} {host : HostRegister}

theorem updateSlot (h : c.Placed) (host : HostRegister) (guest : Option GuestIndex)
    (dirty : Bool) : (c.updateSlot host guest dirty).Placed := by
  refine ⟨fun slot hslot => ?_, h.location⟩
  obtain ⟨slot, hmem, rfl⟩ := List.mem_map.1 hslot
  split
  · exact h.slots slot hmem
  · exact h.slots slot hmem

theorem setLocation (h : c.Placed) (reg : GuestIndex) {place : Location}
    (hplace : ∀ host, place = .host host → host ∈ HostRegister.allocationOrder) :
    (c.setLocation reg place).Placed := by
  refine ⟨h.slots, fun r host hr => ?_⟩
  rw [location_setLocation] at hr
  split at hr
  · exact hplace host hr
  · exact h.location r host hr

theorem bindHost (h : c.Placed) (hhost : host ∈ HostRegister.allocationOrder) (reg : GuestIndex)
    (dirty : Bool) : (c.bindHost host reg dirty).Placed :=
  (h.updateSlot host (some reg) dirty).setLocation reg fun q hq => by
    cases hq
    exact hhost

theorem unbind (h : c.Placed) (reg : GuestIndex) : (c.unbind reg).Placed := by
  rw [RegisterCache.unbind]
  split
  · refine (h.updateSlot _ none false).setLocation reg fun q hq => ?_
    split at hq <;> cases hq
  · exact h

theorem setImmediate (h : c.Placed) (reg : GuestIndex) (value : UInt32) :
    (c.setImmediate reg value).Placed := by
  rw [RegisterCache.setImmediate]
  split
  · exact h
  · exact (h.unbind reg).setLocation reg nofun

theorem setLocked (h : c.Placed) (locked : Vector Bool 32) :
    Placed { c with locked := locked } :=
  ⟨h.slots, h.location⟩

theorem setPc (h : c.Placed) (pc : UInt32) : Placed { c with pc := pc } :=
  ⟨h.slots, h.location⟩

end RegisterCache.Placed

theorem RegisterCache.placed_fresh : RegisterCache.fresh.Placed := by
  refine ⟨by decide, fun reg host hplace => ?_⟩
  change ((Vector.replicate 32 Location.memory).set 0 (.immediate 0))[reg.val] = _ at hplace
  rw [Vector.getElem_set, Vector.getElem_replicate] at hplace
  split at hplace <;> cases hplace

/-! ## Tidy operations -/

/-- The guest instruction that an event says is being lowered. -/
def Event.lowered? : Event → Option Instruction
  | .instruction _ i => some i
  | _ => none

/-- What a tidy operation adds: tame instructions, and no news of guest instructions. -/
structure Allocation.Tidies (a b : Allocation) : Prop where
  placed : b.cache.Placed
  code : ∃ is, b.code = a.code ++ is ∧ Sequence.Tame is
  events : ∃ es, b.events = a.events ++ es ∧ es.filterMap Event.lowered? = []

namespace Allocation.Tidies

variable {a b c : Allocation}

theorem of_eq (h : b.cache.Placed) (hcode : b.code = a.code) (hevents : b.events = a.events) :
    a.Tidies b :=
  ⟨h, ⟨[], by rw [hcode, List.append_nil], Sequence.tame_nil⟩,
    ⟨[], by rw [hevents, List.append_nil], rfl⟩⟩

theorem trans (h : a.Tidies b) (h' : b.Tidies c) : a.Tidies c := by
  obtain ⟨is, hcode, htame⟩ := h.code
  obtain ⟨js, hcode', htame'⟩ := h'.code
  obtain ⟨es, hevents, hes⟩ := h.events
  obtain ⟨fs, hevents', hfs⟩ := h'.events
  exact ⟨h'.placed, ⟨is ++ js, by rw [hcode', hcode, List.append_assoc], htame.append htame'⟩,
    ⟨es ++ fs, by rw [hevents', hevents, List.append_assoc],
      by rw [List.filterMap_append, hes, hfs, List.append_nil]⟩⟩

end Allocation.Tidies

/-- Where it succeeds, the operation hands out what it should and adds what it may. -/
def Allocate.Tidy {α : Type} (x : Allocate α) (post : α → Prop) : Prop :=
  ∀ ⦃a r b⦄, a.cache.Placed → x.exec a = (.ok r, b) → post r ∧ a.Tidies b

namespace Allocate.Tidy

variable {α γ : Type} {x : Allocate α} {post post' : α → Prop} {next : γ → Prop}

theorem pure {r : α} (h : post r) : Tidy (Pure.pure r) post := by
  intro a r b ha hx
  cases hx
  exact ⟨h, .of_eq ha rfl rfl⟩

theorem throw (e : Failure) : Tidy (MonadExcept.throw e : Allocate α) post := by
  intro a r b ha hx
  cases hx

theorem bind {f : α → Allocate γ} (hx : Tidy x post) (hf : ∀ r, post r → Tidy (f r) next) :
    Tidy (x >>= f) next := by
  intro a r c ha hexec
  rw [exec_bind] at hexec
  rcases hfirst : x.exec a with ⟨_ | q, b⟩ <;> rw [hfirst] at hexec
  · cases hexec
  · obtain ⟨hq, hb⟩ := hx ha hfirst
    obtain ⟨hr, hc⟩ := hf q hq hb.placed hexec
    exact ⟨hr, hb.trans hc⟩

theorem cache_bind {f : RegisterCache → Allocate α} (h : ∀ c, c.Placed → Tidy (f c) post) :
    Tidy (cache >>= f) post :=
  fun a _ _ ha hexec => h a.cache ha ha hexec

theorem update {f : RegisterCache → RegisterCache} (h : ∀ c, c.Placed → (f c).Placed) :
    Tidy (Allocate.update f) fun _ => True := by
  intro a r b ha hexec
  cases hexec
  exact ⟨trivial, .of_eq (h _ ha) rfl rfl⟩

theorem emit {is : List HostInstruction} (h : Sequence.Tame is) :
    Tidy (Allocate.emit is) fun _ => True := by
  intro a r b ha hexec
  cases hexec
  exact ⟨trivial, ha, ⟨is, rfl, h⟩, [], (List.append_nil _).symm, rfl⟩

theorem report {event : Event} (h : event.lowered? = none) :
    Tidy (Allocate.report event) fun _ => True := by
  intro a r b ha hexec
  cases hexec
  exact ⟨trivial, ha, ⟨[], (List.append_nil _).symm, Sequence.tame_nil⟩, [event], rfl,
    by simp [h]⟩

end Allocate.Tidy

/-! ## The operations -/

namespace RegisterCache

open Allocate

theorem slot_free (reg : GuestIndex) : Slot.Free reg.val :=
  (by decide : ∀ reg : GuestIndex, Slot.Free reg.val) reg

theorem tidy_flushHost (host : HostRegister) : Tidy (flushHost host) fun _ => True := by
  refine .cache_bind fun c hc => ?_
  split
  · next q reg dirty hslot =>
    have hhost : host ∈ HostRegister.allocationOrder := by
      have heq : q = host := by simpa using List.find?_some hslot
      exact heq ▸ hc.slots _ (List.mem_of_find?_eq_some hslot)
    have hunbind : Tidy (update (·.unbind reg)) fun _ => True :=
      .update fun c hc => hc.unbind reg
    split
    · refine .bind (.report rfl) fun _ _ => .bind (.emit ?_) fun _ _ => hunbind
      exact Sequence.tame_storeState (HostRegister.valid_of_mem_allocationOrder hhost) (slot_free reg)
    · exact hunbind
  · exact .pure trivial

theorem tidy_flush (reg : GuestIndex) : Tidy (flush reg) fun _ => True := by
  refine .cache_bind fun c hc => ?_
  split
  · exact tidy_flushHost _
  · split
    · exact .bind (.emit (Sequence.tame_storeStateImmediate (slot_free reg) _)) fun _ _ =>
        .update fun c hc => hc.setLocation reg nofun
    · exact .pure trivial
  · exact .pure trivial

theorem tidy_flushAll : Tidy flushAll fun _ => True := by
  have hall (regs : List GuestIndex) : Tidy (regs.forM flush) fun _ => True := by
    induction regs with
    | nil => exact .pure trivial
    | cons reg regs ih => exact .bind (tidy_flush reg) fun _ _ => ih
  exact .bind (hall _) fun _ _ => .update fun c hc => hc.setLocked _

theorem tidy_allocate : Tidy allocate (· ∈ HostRegister.allocationOrder) := by
  refine .cache_bind fun c hc => ?_
  split
  · next slot hslot => exact .pure (hc.slots _ (List.mem_of_find?_eq_some hslot))
  · split
    · next slot hslot =>
      exact .bind (tidy_flushHost _) fun _ _ => .pure (hc.slots _ (List.mem_of_find?_eq_some hslot))
    · exact .bind (.report rfl) fun _ _ => .throw _

/-- A mapped register is one that may hold anything. -/
theorem tidy_map (reg : GuestIndex) (access : Access) : Tidy (map reg access) (·.Spare) := by
  have hbind {host : HostRegister} (hhost : host ∈ HostRegister.allocationOrder)
      {is : List HostInstruction} (his : Sequence.Tame is) (dirty : Bool) :
      Tidy (if access ≠ .write then emit is >>= fun _ =>
          update (·.bindHost host reg dirty) >>= fun _ => pure host
        else update (·.bindHost host reg dirty) >>= fun _ => pure host) (·.Spare) := by
    have hupdate : Tidy (update (·.bindHost host reg dirty) >>= fun _ => pure host) (·.Spare) :=
      .bind (.update fun c hc => hc.bindHost hhost reg dirty) fun _ _ =>
        .pure (HostRegister.spare_of_mem_allocationOrder hhost)
    split
    · exact .bind (.emit his) fun _ _ => hupdate
    · exact hupdate
  unfold map
  split
  · split
    · exact .bind (.emit (Sequence.tame_moveImmediate (by decide) 0)) fun _ _ => .pure (by decide)
    · exact .pure (by decide)
  · refine .cache_bind fun c hc => ?_
    split
    · next host hplace =>
      have hspare := HostRegister.spare_of_mem_allocationOrder (hc.location reg host hplace)
      split
      · exact .bind (.update fun c hc => hc.updateSlot _ _ _) fun _ _ => .pure hspare
      · exact .pure hspare
    · refine .bind tidy_allocate fun host hhost => hbind hhost ?_ _
      exact Sequence.tame_moveImmediate (HostRegister.spare_of_mem_allocationOrder hhost) _
    · refine .bind tidy_allocate fun host hhost => hbind hhost ?_ _
      exact Sequence.tame_loadState (HostRegister.spare_of_mem_allocationOrder hhost) (slot_free reg).1

theorem tidy_lock_bind {α : Type} {k : Allocate α} {post : α → Prop} (reg : GuestIndex)
    (hk : Tidy k post) : Tidy (update (·.lock reg) >>= fun _ => k) post :=
  .bind (.update fun _ hc => hc.setLocked _) fun _ _ => hk

theorem tidy_mapSources (rs rt : GuestIndex) :
    Tidy (mapSources rs rt) fun r => r.1.Spare ∧ r.2.Spare :=
  tidy_lock_bind rs <| tidy_lock_bind rt <| .bind (tidy_map rs .read) fun _ hrs =>
    .bind (tidy_map rt .read) fun _ hrt => .pure ⟨hrs, hrt⟩

theorem tidy_mapTarget (dst src : GuestIndex) :
    Tidy (mapTarget dst src) fun r => r.1.Spare ∧ r.2.Spare :=
  tidy_lock_bind dst <| tidy_lock_bind src <| .bind (tidy_map src .read) fun _ hsrc =>
    .bind (tidy_map dst _) fun _ hdst => .pure ⟨hdst, hsrc⟩

theorem tidy_mapTargetSources (dst rs rt : GuestIndex) :
    Tidy (mapTargetSources dst rs rt) fun r => r.1.Spare ∧ r.2.1.Spare ∧ r.2.2.Spare :=
  tidy_lock_bind dst <| .bind (tidy_mapSources rs rt) fun _ hsources =>
    .bind (tidy_map dst _) fun _ hdst => .pure ⟨hdst, hsources⟩

end RegisterCache

end Recompiler
