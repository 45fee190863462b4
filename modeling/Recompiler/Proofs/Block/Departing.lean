import Recompiler.Proofs.Block.Answering
import Recompiler.Proofs.Code.Calls

/-!
# Leaving a block

What the code of a block does to the guest from a point of its lowering on: up to a later point, where
a machine shows another guest, or up to where control leaves the block.

* `Lowering.Meets`: a machine that shows a guest at a point of a lowering.
* `Lowering.Performs`: the code between two points, as an effect on the guest.
* `Departure`: a way out of a block, with the guest that is left behind and the calls before.
* `Lowering.Departs`: the code up to the ways out.
* `Lower.Ends`: a lowering step that ends with a way out.
* `Ends.writeExit` and following: the ways out.
-/

namespace Recompiler

open HostMachine

variable {β α γ : Type}

theorem RegisterCache.Paired.placed {c : RegisterCache} (h : c.Paired) : c.Placed := by
  refine ⟨fun slot hslot => ?_, fun reg host hplace => ?_⟩
  · rw [← h.hosts]
    exact List.mem_map_of_mem hslot
  · obtain ⟨dirty, hheld⟩ := (h.resident reg host).1 hplace
    exact h.mem_allocationOrder hheld

/-! ## Code between two points -/

/-- The machine shows the guest `e`, and the memory behind it backs the regions. -/
structure Lowering.Meets [Bus β] (s : Surroundings) (t : Lowering β) (e : Environment β)
    (m : HostMachine β) : Prop where
  shows : t.registers.Shows [] m e
  main : ∀ r, s.regions[0]? = some r → m.frame.memoryBase = r.pointer
  backed : Bus.Backed s.regions e.bus

/-- The machine is where the lowering is. -/
structure Lowering.Ready (s : Surroundings) (t : Lowering γ) (m : HostMachine β) : Prop where
  placed : t.registers.Placed
  roles : m.Roles s.regions

namespace Lowering

variable [Bus β] {s : Surroundings} {t u v : Lowering β} {e : Environment β}
  {m n : HostMachine β} {f : Lower.Footing β} {hidden : List GuestIndex}

theorem Meets.showsAt (h : t.Meets s e m) : t.Shows (t.footing m) [] e m :=
  ⟨h.shows, rfl⟩

theorem Meets.ready (h : t.Meets s e m) : t.Ready s m :=
  ⟨h.shows.consistent.toPaired.placed, h.shows.consistent.context, h.main⟩

omit [Bus β] in
theorem Shows.ready (h : t.Shows f hidden e m)
    (hmain : ∀ r, s.regions[0]? = some r → f.frame.memoryBase = r.pointer) : t.Ready s m :=
  ⟨h.consistent.toPaired.placed, h.context, fun r hr => by
    rw [← hmain r hr, ← h.footing]
    rfl⟩

/-- Only the registers matter. -/
theorem Meets.of_registers (h : t.Meets s e m) (hregisters : u.registers.Shows [] m e) :
    u.Meets s e m :=
  ⟨hregisters, h.main, h.backed⟩

/-- The code that was added makes no calls if its dealings are none. -/
theorem Carries.leads {ready : HostMachine β → Prop} {deals : List Dealing → Prop}
    (h : t.Carries m u n) (hpaves : t.Paves s ready deals u) (hm : m.Roles s.regions)
    (hready : ready m) (hnone : ∀ ds, deals ds → .call Helper.interpret.address ∉ ds) :
    ∃ items : List Item, u.code = t.code ++ items ∧
      Point.Leads ⟨none, items, m⟩ [] ⟨none, [], n⟩ := by
  obtain ⟨items, hcode, -, hpasses⟩ := h
  obtain ⟨items', hcode', hpassage⟩ := hpaves.code
  obtain rfl : items' = items := by
    have heq := congrArg Array.toList (hcode'.symm.trans hcode)
    simpa using heq
  have hreaches := hpasses []
  rw [List.append_nil] at hreaches
  refine ⟨items', hcode, .of_dealings hreaches fun ds hpath => ?_⟩
  obtain ⟨-, -, new, hnew, hdeals⟩ := (hpassage.guarded m [] hm hready).of_deals hpath
  obtain rfl : ds = new := by simpa using hnew
  exact hnone ds hdeals

/-- Tame instructions make no calls. -/
theorem Carries.leads_of_quiet (h : t.Carries m u n) (hquiet : t.Quiet u) (hm : t.Ready s m) :
    ∃ items : List Item, u.code = t.code ++ items ∧
      Point.Leads ⟨none, items, m⟩ [] ⟨none, [], n⟩ := by
  refine h.leads (.of_quiet (s := s) hquiet) hm.roles trivial ?_
  rintro _ rfl
  exact List.not_mem_nil

/-- The code that was added takes a machine that shows a guest to one that shows what `act` makes of
it, with the calls that `act` tells. -/
def Performs (s : Surroundings) (act : Environment β → List (Call β) × Environment β)
    (t u : Lowering β) : Prop :=
  ∀ ⦃e m⦄, t.Meets s e m → ∃ (items : List Item) (n : HostMachine β), u.code = t.code ++ items ∧
    Point.Leads ⟨none, items, m⟩ (act e).1 ⟨none, [], n⟩ ∧ u.Meets s (act e).2 n ∧
      n.frame = m.frame

namespace Performs

variable {act act' : Environment β → List (Call β) × Environment β}

/-- Steps without code that show the same guest. -/
theorem idle (hcode : u.code = t.code)
    (hshows : ∀ (e : Environment β) (m : HostMachine β), t.registers.Shows [] m e →
      u.registers.Shows [] m e) :
    Performs s (fun e => ([], e)) t u :=
  fun _ m h => ⟨[], m, by rw [hcode, Array.appendList_nil], .refl _,
    h.of_registers (hshows _ m h.shows), rfl⟩

theorem trans (h : Performs s act t u) (h' : Performs s act' u v) :
    Performs s (fun e => ((act e).1 ++ (act' (act e).2).1, (act' (act e).2).2)) t v := by
  intro e m hm
  obtain ⟨items, n, hcode, hleads, hn, hframe⟩ := h hm
  obtain ⟨more, p, hcode', hleads', hp, hframe'⟩ := h' hn
  exact ⟨items ++ more, p, by rw [hcode', hcode, appendList_append], hleads.append hleads', hp,
    hframe'.trans hframe⟩

/-- A step that makes no calls. -/
theorem of_acts {x : Lower β α} {r : α} {g : Environment β → Environment β}
    {ready : HostMachine β → Prop} {deals : List Dealing → Prop}
    (hexec : x.exec s t = (.ok r, u)) (hpaves : t.registers.Placed → t.Paves s ready deals u)
    (hready : ∀ m, ready m) (hnone : ∀ ds, deals ds → .call Helper.interpret.address ∉ ds)
    (hacts : ∀ f e, Bus.Backed s.regions e.bus →
      (∀ r, s.regions[0]? = some r → f.frame.memoryBase = r.pointer) →
        Lower.Acts s (fun t' m => t' = t ∧ t'.Shows f [] e m) x fun _ => Lowering.Shows f [] (g e))
    (hevolves : ∀ e, Bus.Evolves e.bus (g e).bus) : Performs s (fun e => ([], g e)) t u := by
  intro e m hm
  obtain ⟨n, hcarries, hn⟩ := hacts (t.footing m) e hm.backed hm.main hexec ⟨rfl, hm.showsAt⟩
  obtain ⟨items, hcode, hleads⟩ :=
    hcarries.leads (hpaves hm.ready.placed) hm.ready.roles (hready m) hnone
  have hframe : n.frame = m.frame := congrArg Lower.Footing.frame hn.footing
  exact ⟨items, n, hcode, hleads,
    ⟨hn.registers, hframe ▸ hm.main, hm.backed.evolves (hevolves e)⟩, hframe⟩

/-- A step that adds nothing but tame instructions. -/
theorem of_quiet {x : Lower β α} {r : α} {g : Environment β → Environment β}
    (hexec : x.exec s t = (.ok r, u)) (hquiet : Lower.Quiet x fun _ => True)
    (hacts : ∀ f e,
      Lower.Acts s (fun t' m => t' = t ∧ t'.Shows f [] e m) x fun _ => Lowering.Shows f [] (g e))
    (hevolves : ∀ e, Bus.Evolves e.bus (g e).bus) : Performs s (fun e => ([], g e)) t u := by
  refine of_acts hexec (fun hplaced => .of_quiet (hquiet hplaced hexec).2) (fun _ => trivial) ?_
    (fun f e _ _ => hacts f e) hevolves
  rintro _ rfl
  exact List.not_mem_nil

end Performs

end Lowering

/-! ## Ways out -/

/-- A way out of a block. -/
inductive Way where
  /-- To a known guest address. The budget is spent or not. -/
  | exit (target : UInt32) (spent : Bool)
  /-- To the guest address in the guest state. -/
  | dispatch
  /-- The same, after a check of the core state. -/
  | checked
  /-- An instruction was refused. -/
  | refused
  deriving DecidableEq

namespace Way

/-- The code of a way out. -/
def items (s : Surroundings) : Way → List Item
  | exit target _ => [.jumpIfTo .less s.stubs.outerLoop, s.exitItem target]
  | dispatch => [.jumpTo s.stubs.dispatcher]
  | checked => [.jumpTo s.stubs.dispatcherCheckCoreState]
  | refused => [.jumpTo s.stubs.hardFault]

/-- The flags tell whether the budget is spent. -/
def Tells (m : HostMachine β) : Way → Prop
  | exit _ spent => m.flags.holds .less = spent
  | _ => True

end Way

/-- How control leaves a block. -/
structure Departure (β : Type) where
  /-- The calls before. -/
  calls : List (Call β)
  /-- The way out. -/
  way : Way
  /-- The guest that is left behind. -/
  env : Environment β

/-- The guest with cycles taken off its budget. -/
def Environment.charge (e : Environment β) (amount : UInt32) : Environment β :=
  e.setWord Slot.downcount (e.state.get Slot.downcount - amount)

namespace Departure

/-- The departure with calls made before. -/
def after (d : Departure β) (calls : List (Call β)) : Departure β :=
  { d with calls := calls ++ d.calls }

/-- Leaving for a known guest address. -/
def exit (target amount : UInt32) (e : Environment β) : Departure β :=
  ⟨[], .exit target (Word.lessSigned (e.state.get Slot.downcount) amount),
    (e.charge amount).setWord Slot.pc target⟩

/-- Leaving for a guest address that is known only while the guest runs. -/
def dispatch (target amount : UInt32) (e : Environment β) : Departure β :=
  ⟨[], .dispatch, (e.charge amount).setWord Slot.pc target⟩

/-- Leaving at an instruction that is refused. -/
def refuse (pc : UInt32) (e : Environment β) : Departure β :=
  ⟨[], .refused, e.setWord Slot.pc pc⟩

/-- The machine with which control leaves the block. -/
structure Leaves (d : Departure β) (m : HostMachine β) : Prop where
  env : m.env = d.env
  tells : d.way.Tells m

end Departure

namespace Lowering

variable [Bus β] {s : Surroundings} {t u v : Lowering β} {e : Environment β}
  {m n : HostMachine β} {d : Departure β} {frame : Frame}

/-- The code that was added takes the machine to a way out, with the frame given. -/
def Leaves (s : Surroundings) (frame : Frame) (d : Departure β) (t u : Lowering β)
    (m : HostMachine β) : Prop :=
  ∃ (items more : List Item) (n : HostMachine β), u.code = t.code ++ items ∧
    Point.Leads ⟨none, items, m⟩ d.calls ⟨none, d.way.items s ++ more, n⟩ ∧ d.Leaves n ∧
      n.frame = frame

/-- More code may be added behind the ways out. -/
theorem Leaves.extend (h : t.Leaves s frame d u m) {rest : List Item}
    (hcode : v.code = u.code ++ rest) : t.Leaves s frame d v m := by
  obtain ⟨items, more, n, hcode', hleads, hn⟩ := h
  refine ⟨items ++ rest, more ++ rest, n, by rw [hcode, hcode', appendList_append], ?_, hn⟩
  have hextend := hleads.extend rest
  rwa [List.append_assoc] at hextend

theorem Leaves.of_leads {items : List Item} {cs : List (Call β)} (hcode : u.code = t.code ++ items)
    (hleads : Point.Leads ⟨none, items, m⟩ cs ⟨none, [], n⟩) (h : u.Leaves s frame d v n) :
    t.Leaves s frame (d.after cs) v m := by
  obtain ⟨more, rest, p, hcode', hleads', hp, hframe⟩ := h
  exact ⟨items ++ more, rest, p, by rw [hcode', hcode, appendList_append], hleads.append hleads',
    ⟨hp.env, hp.tells⟩, hframe⟩

/-- The code that was added takes every machine that shows a guest to the same way out. -/
def Departs (s : Surroundings) (course : Environment β → Departure β → Prop)
    (t u : Lowering β) : Prop :=
  ∀ e, (∃ m, t.Meets s e m) → ∃ d, course e d ∧ ∀ m, t.Meets s e m → t.Leaves s m.frame d u m

namespace Departs

variable {course course' : Environment β → Departure β → Prop}

theorem mono (h : Departs s course t u)
    (hcourse : ∀ e m d, t.Meets s e m → course e d → course' e d) : Departs s course' t u := by
  intro e hm
  obtain ⟨d, hd, hleaves⟩ := h e hm
  obtain ⟨m, hm⟩ := hm
  exact ⟨d, hcourse e m d hm hd, hleaves⟩

theorem extend (h : Departs s course t u) {rest : List Item} (hcode : v.code = u.code ++ rest) :
    Departs s course t v := by
  intro e hm
  obtain ⟨d, hd, hleaves⟩ := h e hm
  exact ⟨d, hd, fun m hm => (hleaves m hm).extend hcode⟩

/-- What comes before. -/
theorem performs {act : Environment β → List (Call β) × Environment β} (h : Performs s act t u)
    (h' : Departs s course u v)
    (hcourse : ∀ e m d, t.Meets s e m → course (act e).2 d → course' e (d.after (act e).1)) :
    Departs s course' t v := by
  intro e hm
  obtain ⟨m, hm⟩ := hm
  obtain ⟨_, n, -, -, hn, -⟩ := h hm
  obtain ⟨d, hd, hleaves⟩ := h' (act e).2 ⟨n, hn⟩
  refine ⟨d.after (act e).1, hcourse e m d hm hd, fun m' hm' => ?_⟩
  obtain ⟨items, n', hcode, hleads, hn', hframe⟩ := h hm'
  exact .of_leads hcode hleads (hframe ▸ hleaves n' hn')

end Departs

end Lowering

/-! ## Steps that end with a way out -/

namespace Lower

variable [Bus β] {s : Surroundings} {f : Footing β} {e : Environment β} {d : Departure β}
  {frame : Frame} {pre pre' : Assertion β} {post : α → Assertion β}

/-- Where the step succeeds, its code takes every machine of which `pre` holds to the way out. -/
def Ends (s : Surroundings) (frame : Frame) (pre : Assertion β) (x : Lower β α)
    (d : Departure β) : Prop :=
  ∀ ⦃t r u⦄, x.exec s t = (.ok r, u) → ∀ ⦃m⦄, pre t m → t.Leaves s frame d u m

/-- A step that ends with a way out departs. -/
theorem Ends.departs {x : Lower β α} {r : α} {t u : Lowering β} {g : Environment β → Departure β}
    {course : Environment β → Departure β → Prop}
    (h : ∀ f e, (∀ r, s.regions[0]? = some r → f.frame.memoryBase = r.pointer) →
      Ends s f.frame (fun t' m => t' = t ∧ t'.Shows f [] e m) x (g e))
    (hexec : x.exec s t = (.ok r, u)) (hcourse : ∀ e m, t.Meets s e m → course e (g e)) :
    t.Departs s course u := by
  intro e hm
  obtain ⟨m, hm⟩ := hm
  exact ⟨g e, hcourse e m hm, fun m' hm' =>
    h (t.footing m') e hm'.main hexec ⟨rfl, hm'.showsAt⟩⟩

namespace Ends

theorem mono {x : Lower β α} (h : Ends s frame pre x d) (hpre : ∀ t m, pre' t m → pre t m) :
    Ends s frame pre' x d :=
  fun t _ _ hexec m hm => h hexec (hpre t m hm)

/-- A step with tame instructions first. -/
theorem after {x : Lower β α} {k : α → Lower β γ} (hx : Acts s pre x post)
    (hquiet : Quiet x fun _ => True) (hready : ∀ t m, pre t m → t.Ready s m)
    (hk : ∀ r, Ends s frame (post r) (k r) d) : Ends s frame pre (x >>= k) d := by
  intro t r v hexec m hm
  rw [exec_bind] at hexec
  rcases hfirst : x.exec s t with ⟨_ | q, u⟩ <;> rw [hfirst] at hexec
  · cases hexec
  obtain ⟨n, hcarries, hn⟩ := hx hfirst hm
  obtain ⟨items, hcode, hleads⟩ :=
    hcarries.leads_of_quiet (hquiet (hready t m hm).placed hfirst).2 (hready t m hm)
  exact .of_leads hcode hleads (hk q hexec hn)

end Ends

end Lower

/-! ## The ways out -/

/-- The machine works in the frame, and the guest in memory is `e`. -/
structure HostMachine.Holds (frame : Frame) (e : Environment β) (m : HostMachine β) : Prop where
  env : m.env = e
  frame : m.frame = frame
  context : m.get .context = Linkage.contextBase

/-- The code that leaves for a known guest address. -/
def Lower.exitItems (s : Surroundings) (target amount : UInt32) : List Item :=
  (Sequence.subtractState (Slot.offset Slot.downcount) amount).map .instruction ++
    (Sequence.storeStateImmediate (Slot.offset Slot.pc) target).map .instruction ++
      [.jumpIfTo .less s.stubs.outerLoop, s.exitItem target]

namespace Lower

@[simp] theorem bindLabels_exitItems (s : Surroundings) (target amount : UInt32) :
    bindLabels (exitItems s target amount) = [] := rfl

theorem exec_writeExitCharging (target amount : UInt32) (s : Surroundings) (t : Lowering β) :
    exec (writeExitCharging target amount) s t =
      (.ok (), { t with code := t.code ++ exitItems s target amount }) := by
  rw [writeExitCharging, exec_read_bind, exec_bind_of_ok (exec_emit ..),
    exec_bind_of_ok (exec_emit ..), exec_append, exitItems, appendList_append, appendList_append]
  rfl

theorem exec_writeExit (target : UInt32) (s : Surroundings) (t : Lowering β) :
    exec (writeExit target) s t =
      (.ok (), { t with code := t.code ++ exitItems s target t.cycles }) := by
  rw [writeExit, exec_get_bind, exec_writeExitCharging]

variable [Bus β] {s : Surroundings} {frame : Frame} {e : Environment β} {m : HostMachine β}

/-- Charging cycles. -/
theorem runs_charge (h : m.Holds frame e) (amount : UInt32) :
    ∃ n, Runs (Sequence.subtractState (Slot.offset Slot.downcount) amount) m n ∧
      n.Holds frame (e.charge amount) ∧
      n.flags.holds .less = Word.lessSigned (e.state.get Slot.downcount) amount ∧
      n.registers = m.registers := by
  have hslot : Slot.downcount < Slot.count := by decide
  refine ⟨_, Sequence.runs_subtractState h.context hslot amount, ⟨?_, h.frame, h.context⟩, ?_, rfl⟩
  · rw [← h.env]
    rfl
  · rw [← h.env]
    exact Flags.holds_ofSub .less _ amount

omit [Bus β] in
/-- Charging cycles and writing the program counter make no calls. -/
theorem call?_charge (amount : UInt32) {is : List HostInstruction} (his : Sequence.Tame is) :
    ∀ i ∈ Sequence.subtractState (Slot.offset Slot.downcount) amount ++ is,
      ∀ m : HostMachine β, i.call? m = none := by
  intro i hi m
  rcases List.mem_append.1 hi with hi | hi
  · obtain rfl := List.mem_singleton.1 hi
    rfl
  · exact his.call?_eq_none i hi m

theorem leads_exitItems (h : m.Holds frame e) (target amount : UInt32) :
    ∃ n, Point.Leads ⟨none, exitItems s target amount, m⟩ []
        ⟨none, (Departure.exit target amount e).way.items s, n⟩ ∧
      (Departure.exit target amount e).Leaves n ∧ n.frame = frame := by
  have hslot : Slot.pc < Slot.count := by decide
  have htame := Sequence.tame_storeStateImmediate (by decide : Slot.Free Slot.pc) target
  obtain ⟨n, hruns, hn, hless, -⟩ := runs_charge h amount
  have hstore := Sequence.runs_storeStateImmediate hn.context hslot target
  have hleads := Point.Leads.instructions (hruns.append hstore) (call?_charge _ htame)
  rw [List.map_append] at hleads
  refine ⟨n.setSlot Slot.pc target, hleads.append (.refl _), ⟨?_, hless⟩, hn.frame⟩
  change n.env.setWord Slot.pc target = _
  rw [hn.env]
  rfl

/-- Storing everything changes neither the flags nor the host registers. -/
theorem Acts.flushAll_keeping {f : Footing β} (q : Flags → Vector UInt64 16 → Prop) :
    Acts s (fun t m => t.Shows f [] e m ∧ q m.flags m.registers) Lower.flushAll fun _ u n =>
      u.Shows f [] e n ∧ u.registers.Home ∧ q n.flags n.registers := by
  rintro t r u hexec m ⟨hm, hq⟩
  obtain ⟨n, -, hmoves, hregisters⟩ :=
    RegisterCache.stores_flushAll (a := ⟨t.registers, [], []⟩) hm.consistent
  rw [Lower.flushAll, exec_allocating] at hexec
  obtain rfl := (Prod.mk.inj hexec).2
  have hflags : n.flags = m.flags := hmoves.transfers.flags
  refine ⟨n, .moves hmoves rfl, ⟨hm.registers.moves (a := ⟨t.registers, [], []⟩) hmoves, ?_⟩,
    RegisterCache.home_flushAll (a := ⟨t.registers, [], []⟩) hm.consistent,
    by rwa [hflags, hregisters]⟩
  rw [← hm.footing, Lowering.footing, Lowering.footing, hmoves.transfers.frame]

namespace Ends

variable {cycles : UInt32} {f : Footing β}

/-- Once everything is stored, the guest is the one in memory. -/
theorem flushed {d : Departure β} {k : Lower β α} (q : Flags → Vector UInt64 16 → Prop)
    (hmain : ∀ r, s.regions[0]? = some r → f.frame.memoryBase = r.pointer)
    (hk : Ends s f.frame
      (fun t m => m.Holds f.frame e ∧ t.cycles = f.cycles ∧ q m.flags m.registers) k d) :
    Ends s f.frame (fun t m => t.Shows f [] e m ∧ q m.flags m.registers)
      (Lower.flushAll >>= fun _ => k) d := by
  refine after (Acts.flushAll_keeping q) .flushAll (fun t m hm => hm.1.ready hmain) fun _ =>
    hk.mono fun t m hm => ⟨⟨hm.1.registers.env_eq hm.2.1, ?_, hm.1.context⟩, ?_, hm.2.2⟩
  · exact congrArg Footing.frame hm.1.footing
  · exact congrArg Footing.cycles hm.1.footing

theorem writeExitCharging (target amount : UInt32) :
    Ends s frame (fun _ m => m.Holds frame e) (Lower.writeExitCharging target amount)
      (.exit target amount e) := by
  intro t r u hexec m hm
  rw [exec_writeExitCharging] at hexec
  obtain rfl := (Prod.mk.inj hexec).2
  obtain ⟨n, hleads, hn, hframe⟩ := leads_exitItems (s := s) hm target amount
  exact ⟨_, [], n, rfl, by rwa [List.append_nil], hn, hframe⟩

theorem writeExit (target : UInt32) :
    Ends s frame (fun t m => m.Holds frame e ∧ t.cycles = cycles) (Lower.writeExit target)
      (.exit target cycles e) := by
  intro t r u hexec m hm
  rw [Lower.writeExit, exec_get_bind, hm.2] at hexec
  exact writeExitCharging target cycles hexec hm.1

/-- Leaving one way or another, as the flags say. -/
theorem writeBranchExits (skip : Condition) (target next : UInt32) (taken : Bool) :
    Ends s frame (fun t m => m.Holds frame e ∧ t.cycles = cycles ∧ m.flags.holds skip = !taken)
      (Lower.writeBranchExits skip target next)
      (.exit (if taken then target else next) cycles e) := by
  rintro t r u hexec m ⟨hm, rfl, hflags⟩
  rw [Lower.writeBranchExits, exec_bind_of_ok (exec_freshLabel ..),
    exec_bind_of_ok (exec_append ..), exec_bind_of_ok (exec_writeExit ..),
    exec_bind_of_ok (exec_append ..), exec_writeExit] at hexec
  obtain rfl := (Prod.mk.inj hexec).2
  refine ⟨[.jumpIf skip t.labels] ++ (exitItems s target t.cycles ++ ([.bind t.labels] ++
    exitItems s next t.cycles)), ?_⟩
  have hjump : Point.Leads ⟨none, [.jumpIf skip t.labels], m⟩ []
      ⟨if m.flags.holds skip then some t.labels else none, [], m⟩ :=
    .one trivial rfl
  rw [hflags] at hjump
  cases taken with
  | true =>
    obtain ⟨n, hleads, hn, hframe⟩ := leads_exitItems (s := s) hm target t.cycles
    refine ⟨[.bind t.labels] ++ exitItems s next t.cycles, n, ?_, ?_, hn, hframe⟩
    · simp only [appendList_append]
    · exact hjump.append (hleads.extend _)
  | false =>
    obtain ⟨n, hleads, hn, hframe⟩ := leads_exitItems (s := s) hm next t.cycles
    refine ⟨[], n, ?_, ?_, hn, hframe⟩
    · simp only [appendList_append]
    -- The jump passes over the exit for the branch that is taken, up to the label of the other.
    · have hover : Point.Leads ⟨some t.labels, exitItems s target t.cycles ++ [.bind t.labels], m⟩ []
          ⟨none, [], m⟩ := .passOver (by simp) m
      rw [List.append_nil, ← List.append_assoc (exitItems ..)]
      exact hjump.append (hover.append hleads)

theorem writeRegisterExit {src : HostRegister} (hsrc : src.Valid) (target : UInt32) :
    Ends s frame (fun t m => m.Holds frame e ∧ t.cycles = cycles ∧ m.getWord src = target)
      (Lower.writeRegisterExit src) (.dispatch target cycles e) := by
  rintro t r u hexec m ⟨hm, rfl, rfl⟩
  rw [Lower.writeRegisterExit, exec_get_bind, exec_bind_of_ok (exec_emit ..),
    exec_bind_of_ok (exec_emit ..), exec_read_bind, exec_append] at hexec
  obtain rfl := (Prod.mk.inj hexec).2
  have hslot : Slot.pc < Slot.count := by decide
  have htame := Sequence.tame_storeState hsrc (by decide : Slot.Free Slot.pc)
  obtain ⟨n, hruns, hn, -, hregisters⟩ := runs_charge hm t.cycles
  have hword : n.getWord src = m.getWord src :=
    congrArg (fun registers => UInt64.toUInt32 registers[Fin.ofNat 16 src.number.toNat]) hregisters
  have hstore := Sequence.runs_storeState hsrc hn.context hslot
  have hleads := Point.Leads.instructions (hruns.append hstore) (call?_charge _ htame)
  rw [List.map_append] at hleads
  refine ⟨_, [], n.setSlot Slot.pc (n.getWord src), rfl, hleads.append (.refl _), ⟨?_, trivial⟩,
    hn.frame⟩
  change n.env.setWord Slot.pc (n.getWord src) = _
  rw [hn.env, hword]
  rfl

theorem writeCheckedExit :
    Ends s frame (fun t m => m.Holds frame e ∧ t.cycles = cycles) Lower.writeCheckedExit
      ⟨[], .checked, e.charge cycles⟩ := by
  rintro t r u hexec m ⟨hm, rfl⟩
  rw [Lower.writeCheckedExit, exec_get_bind, exec_bind_of_ok (exec_emit ..), exec_read_bind,
    exec_append] at hexec
  obtain rfl := (Prod.mk.inj hexec).2
  obtain ⟨n, hruns, hn, -⟩ := runs_charge hm t.cycles
  have hsilent := call?_charge (β := β) t.cycles Sequence.tame_nil
  rw [List.append_nil] at hsilent
  exact ⟨_, [], n, rfl, (Point.Leads.instructions hruns hsilent).append (.refl _),
    ⟨hn.env, trivial⟩, hn.frame⟩

/-- Leaving for a known guest address. -/
theorem leave (hmain : ∀ r, s.regions[0]? = some r → f.frame.memoryBase = r.pointer)
    (target : UInt32) :
    Ends s f.frame (Lowering.Shows f [] e) (Lower.flushAll >>= fun _ => Lower.writeExit target)
      (.exit target f.cycles e) :=
  (flushed (fun _ _ => True) hmain
    ((writeExit target).mono fun _ _ hm => ⟨hm.1, hm.2.1⟩)).mono fun _ _ hm => ⟨hm, trivial⟩

/-- Refusing the current instruction. -/
theorem hardFault (hmain : ∀ r, s.regions[0]? = some r → f.frame.memoryBase = r.pointer) :
    Ends s f.frame (Lowering.Shows f [] e) Lower.hardFault (.refuse f.pc e) := by
  refine after Acts.flushAll .flushAll (fun t m hm => hm.ready hmain) fun _ => ?_
  rintro t r u hexec m ⟨hm, hhome⟩
  rw [exec_bind_of_ok (exec_currentPc ..), exec_bind_of_ok (exec_emit ..), exec_read_bind,
    exec_bind_of_ok (exec_append ..), exec_modify] at hexec
  obtain rfl := (Prod.mk.inj hexec).2
  have hslot : Slot.pc < Slot.count := by decide
  have htame := Sequence.tame_storeStateImmediate (by decide : Slot.Free Slot.pc) t.pc
  have hstore := Sequence.runs_storeStateImmediate hm.context hslot t.pc
  have hleads := Point.Leads.instructions hstore htame.call?_eq_none
  have hpc : t.pc = f.pc := congrArg Footing.pc hm.footing
  refine ⟨_, [], m.setSlot Slot.pc t.pc, rfl, hleads.append (.refl _), ⟨?_, trivial⟩,
    congrArg Footing.frame hm.footing⟩
  change m.env.setWord Slot.pc t.pc = _
  rw [hm.registers.env_eq hhome, hpc]
  rfl

end Ends

end Lower

end Recompiler
