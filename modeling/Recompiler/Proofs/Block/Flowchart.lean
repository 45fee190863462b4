import Recompiler.Block.Compile
import Recompiler.Proofs.Block.ContainedAccess

/-!
# Flowcharts

The code of a block behind its entry, as a tree of the ways control can take: guest instructions one
after another, decisions, and at the leaves the ways out. Whatever the registers hold, control goes
down one branch of the tree, and what it deals with on the way is due to the guest instructions there.

* `Flowchart`: the trees.
* `Flowchart.items`, `Flowchart.instructions`: the code of a tree, and its guest instructions.
* `Flowchart.Sound`: the pieces of a tree are what they should be.
* `Flowchart.Charges`: each way out charges for the instructions on the way to it.
* `Flowchart.Sound.guarded`, `Flowchart.Sound.exists_dealings`: control in the code of a tree.
-/

namespace Recompiler

variable {β : Type}

/-! ## Dealings of instructions -/

/-- The instruction is a load of register zero, which has no effect. -/
def Instruction.LoadsNothing (i : Instruction) : Prop :=
  ∃ kind rt, MemoryOp.ofMnemonic? i.mnemonic = some (.load kind) ∧ i.rt = .ok rt ∧
    guestOperand rt = zeroRegister

/-- The dealings with guest memory that may become of a guest instruction: a load or store has one
of its own, any other instruction has none or is left to the interpreter. -/
def Instruction.MayDeal (regions : List FastRegion) (i : Instruction) (ds : List Dealing) : Prop :=
  match MemoryOp.ofMnemonic? i.mnemonic with
  | some op => op.DealsOnce regions ds ∨ i.LoadsNothing ∧ ds = []
  | none => ds = [] ∨ ds = [.call Helper.interpret.address]

theorem Instruction.mayDeal_of_none {regions : List FastRegion} {i : Instruction}
    {ds : List Dealing} (h : MemoryOp.ofMnemonic? i.mnemonic = none)
    (hds : ds = [] ∨ ds = [.call Helper.interpret.address]) : i.MayDeal regions ds := by
  rw [MayDeal, h]
  exact hds

theorem MemoryOp.ofMnemonic?_of_endsBlock {m : Mnemonic} (h : m.endsBlock = true) :
    MemoryOp.ofMnemonic? m = none := by
  cases m <;> first | rfl | exact absurd h (by decide)

theorem MemoryOp.ofMnemonic?_of_ofImmediate? {m : Mnemonic} {x : BinaryOp × Bool}
    (h : BinaryOp.ofImmediate? m = some x) : MemoryOp.ofMnemonic? m = none := by
  cases m <;> first | rfl | cases h

theorem MemoryOp.ofMnemonic?_of_ofRegister? {m : Mnemonic} {op : BinaryOp}
    (h : BinaryOp.ofRegister? m = some op) : MemoryOp.ofMnemonic? m = none := by
  cases m <;> first | rfl | cases h

/-- The items are what lowering the instruction adds, if it is not refused. -/
def Lower.Writes (β : Type) (s : Surroundings) (i : Instruction) (items : List Item) : Prop :=
  ∃ t u : Lowering β, (straight i).exec s t = (.ok (), u) ∧ u.code = t.code ++ items ∧
    u.cancelled = t.cancelled

/-! ## Trees -/

/-- How control leaves a block. -/
inductive WayOut where
  /-- To a known guest address, unless the budget is spent. -/
  | exit (target : UInt32) (destination : Destination) (linked : Bool)
  /-- To the guest address in the guest state. -/
  | dispatch
  /-- The same, unless the core state tells the host to stop. -/
  | checked

/-- The code of a way out. -/
def WayOut.items (stubs : Stubs) : WayOut → List Item
  | exit target destination linked =>
    [.jumpIfTo .less stubs.outerLoop, .leave target destination linked]
  | dispatch => [.jumpTo stubs.dispatcher]
  | checked => [.jumpTo stubs.dispatcherCheckCoreState]

/-- The ways control can take through a block. -/
inductive Flowchart where
  /-- Instructions that serve the block rather than an instruction of the guest. -/
  | code (is : List HostInstruction) (next : Flowchart)
  /-- The code of a guest instruction, behind which it is done. An instruction that transfers control
  takes over there. -/
  | guest (i : Instruction) (items : List Item) (next : Flowchart)
  /-- A decision. -/
  | fork (c : Condition) (label : Nat) (fall taken : Flowchart)
  /-- A way out that charges cycles. -/
  | leave (amount : UInt32) (is : List HostInstruction) (way : WayOut)
  /-- The end of the block at an instruction that is refused. -/
  | refuse (i : Instruction) (is : List HostInstruction)

namespace Flowchart

/-- The code of a tree. -/
def items (stubs : Stubs) : Flowchart → List Item
  | code is next => is.map .instruction ++ next.items stubs
  | guest _ items next => items ++ next.items stubs
  | fork c label fall taken =>
    .jumpIf c label :: (fall.items stubs ++ .bind label :: taken.items stubs)
  | leave amount is way =>
    (Sequence.subtractState (Slot.offset Slot.downcount) amount ++ is).map .instruction ++
      way.items stubs
  | refuse _ is => is.map .instruction ++ [.jumpTo stubs.hardFault]

/-- The guest instructions in a tree. -/
def instructions : Flowchart → List Instruction
  | code _ next => next.instructions
  | guest i _ next => i :: next.instructions
  | fork _ _ fall taken => fall.instructions ++ taken.instructions
  | leave .. => []
  | refuse i _ => [i]

/-- The pieces of a tree are what they should be, and no label is below `low`. -/
def Sound (β : Type) [Bus β] (s : Surroundings) : Nat → Flowchart → Prop
  | low, code is next => Sequence.Tame is ∧ next.Sound β s low
  | low, guest i items next =>
    Passage (β := β) s.regions low (fun _ => True) (i.MayDeal s.regions) items ∧
      (i.mnemonic.endsBlock = false → Lower.Writes β s i items) ∧ next.Sound β s low
  | low, fork _ label fall taken =>
    low ≤ label ∧ fall.Sound β s (label + 1) ∧ taken.Sound β s (label + 1)
  | _, leave _ is _ => Sequence.Tame is
  | _, refuse _ is => Sequence.Tame is

/-- Each way out charges for the instructions on the way to it, on top of what was there before. -/
def Charges : UInt32 → Flowchart → Prop
  | before, code _ next => next.Charges before
  | before, guest i _ next => next.Charges (before + i.mnemonic.cycles)
  | before, fork _ _ fall taken => fall.Charges before ∧ taken.Charges before
  | before, leave amount _ _ => amount = before
  | _, refuse .. => True

end Flowchart

/-! ## Paths through pieces -/

namespace Point

variable {items rest : List Item} {label? : Option Nat} {m : HostMachine β}

theorem not_leaves_of_isMild {item : Item} (h : item.isMild = true) :
    ¬ Point.Leaves ⟨label?, item :: rest, m⟩ := by
  cases label? with
  | some label => exact id
  | none => cases item <;> first | exact id | cases h

theorem not_leaves_of_mem_map {is : List HostInstruction} {item : Item}
    (h : item ∈ is.map Item.instruction) : ¬ Point.Leaves ⟨label?, item :: rest, m⟩ := by
  obtain ⟨i, -, rfl⟩ := List.mem_map.1 h
  cases label? <;> exact id

variable [Bus β] {regions : List FastRegion} {post : Outlook β} {ds ds' : List Dealing} {q : Point β}

/-- A path out of the code goes all the way through code that leads nowhere else. -/
theorem Path.through (hguarded : Guarded regions post items label? m ds)
    (hinner : ∀ item ∈ items, ∀ label? rest, ∀ m : HostMachine β,
      ¬ Point.Leaves ⟨label?, item :: rest, m⟩)
    (hpath : Deals ⟨label?, items ++ rest, m⟩ ds' q) (hq : q.Leaves) :
    ∃ label?' n new ds'', post label?' n (ds ++ new) ∧ Deals ⟨label?', rest, n⟩ ds'' q ∧
      ds' = new ++ ds'' := by
  induction items generalizing label? m ds ds' with
  | nil => exact ⟨label?, m, [], ds', by rwa [List.append_nil], hpath, rfl⟩
  | cons item items ih =>
    cases hpath with
    | refl => exact absurd hq (hinner item List.mem_cons_self _ _ _)
    | step hnext hpath =>
      rw [List.cons_append, next?_cons] at hnext
      obtain ⟨⟨label?', n⟩, hadvance, rfl⟩ := Option.map_eq_some_iff.1 hnext
      obtain ⟨label?'', p, new, ds'', hpost, hrest, rfl⟩ := ih (hguarded.2 label?' n hadvance)
        (fun item hitem => hinner item (List.mem_cons_of_mem _ hitem)) hpath
      exact ⟨label?'', p, _, ds'', by rwa [← List.append_assoc], hrest, (List.append_assoc ..).symm⟩

/-- On the way to a label, control passes over code in which it is not bound. -/
theorem Path.past {label : Nat} (hlabel : label ∉ bindLabels items)
    (hpath : Deals ⟨some label, items ++ rest, m⟩ ds q) (hq : q.Leaves) :
    Deals ⟨some label, rest, m⟩ ds q := by
  induction items generalizing ds with
  | nil => exact hpath
  | cons item items ih =>
    obtain ⟨hne, hrest⟩ := not_mem_bindLabels_cons hlabel
    cases hpath with
    | refl => exact hq.elim
    | step hnext hpath =>
      cases hnext
      rw [if_neg hne] at hpath
      simpa [Point.dealing?, Item.dealing?] using ih hrest hpath

end Point

theorem Passage.exists_path [Bus β] {regions : List FastRegion} {low : Nat}
    {deals : List Dealing → Prop} {items rest : List Item} {m : HostMachine β} {ds : List Dealing}
    {q : Point β} (h : Passage (β := β) regions low (fun _ => True) deals items)
    (hm : m.Roles regions) (hpath : Point.Deals ⟨none, items ++ rest, m⟩ ds q) (hq : q.Leaves) :
    ∃ n new ds', n.Roles regions ∧ deals new ∧ Point.Deals ⟨none, rest, n⟩ ds' q ∧
      ds = new ++ ds' := by
  obtain ⟨_, n, new, ds', ⟨rfl, hn, new', hnew, hdeals⟩, hrest, rfl⟩ :=
    hpath.through (h.guarded m [] hm trivial)
      (fun item hitem _ _ _ => Point.not_leaves_of_isMild (h.mild item hitem)) hq
  obtain rfl : new = new' := hnew
  exact ⟨n, new, ds', hn, hdeals, hrest, rfl⟩

/-! ## Control in the code of a tree -/

namespace Flowchart.Sound

variable [Bus β] {s : Surroundings} {low low' : Nat} {chart : Flowchart}

theorem mono (h : chart.Sound β s low) (hlow : low' ≤ low) : chart.Sound β s low' := by
  induction chart with
  | code is next ih => exact ⟨h.1, ih h.2⟩
  | guest i items next ih =>
    exact ⟨h.1.mono hlow (fun _ h => h) fun _ h => h, h.2.1, ih h.2.2⟩
  | fork c label fall taken _ _ => exact ⟨Nat.le_trans hlow h.1, h.2⟩
  | leave amount is way => exact h
  | refuse i is => exact h

theorem le_of_mem (h : chart.Sound β s low) :
    ∀ label ∈ bindLabels (chart.items s.stubs), low ≤ label := by
  induction chart generalizing low with
  | code is next ih => simpa [items, bindLabels_append] using ih h.2
  | guest i items next ih =>
    simp only [Flowchart.items, bindLabels_append, List.forall_mem_append]
    exact ⟨h.1.labels, ih h.2.2⟩
  | fork c label fall taken ih ih' =>
    obtain ⟨hlow, hfall, htaken⟩ := h
    simp only [items, bindLabels_jumpIf, bindLabels_append, bindLabels_bind,
      List.forall_mem_append, List.forall_mem_cons]
    exact ⟨fun l hl => by have := ih hfall l hl; omega, hlow,
      fun l hl => by have := ih' htaken l hl; omega⟩
  | leave amount is way =>
    cases way <;> simp [items, WayOut.items, bindLabels, Item.bindLabel?]
  | refuse i is => simp [items, bindLabels, Item.bindLabel?]

theorem closed (h : chart.Sound β s low) : Closed (chart.items s.stubs) := by
  induction chart generalizing low with
  | code is next ih => exact (Closed.instructions is).append (ih h.2)
  | guest i items next ih => exact h.1.closed.append (ih h.2.2)
  | fork c label fall taken ih ih' =>
    refine ⟨fun l hl => ?_, (ih h.2.1).append ⟨nofun, ih' h.2.2⟩⟩
    cases hl
    simp [bindLabels_append, bindLabels_bind]
  | leave amount is way =>
    refine (Closed.instructions _).append (.of_no_jumps ?_)
    cases way <;> simp [WayOut.items, Item.jumpLabel?]
  | refuse i is => exact (Closed.instructions _).append (.of_no_jumps (by simp [Item.jumpLabel?]))

end Flowchart.Sound

/-! ### Ways out -/

section WaysOut

variable [Bus β] {s : Surroundings} {m : HostMachine β} {ds : List Dealing}

/-- The instructions of a way out that charges. -/
theorem Guarded.charge {post : Outlook β} {is : List HostInstruction} (his : Sequence.Tame is)
    (hm : m.Roles s.regions) (amount : UInt32)
    (hpost : ∀ n, n.Roles s.regions → post none n ds) :
    Guarded s.regions post ((Sequence.subtractState (Slot.offset Slot.downcount) amount ++ is).map
      .instruction) none m ds := by
  have hvalid := Sequence.valid_stateAddress (Slot.offset Slot.downcount)
  rw [List.map_append]
  refine .append (.instruction hvalid rfl (by simp [HostInstruction.written])
    (Sequence.isSome_stateSlot? (by decide) hm) fun n hexecute => ?_)
  have hn := hm.executeStraight
    (i := .groupImmediate .sub (.memory (Sequence.stateAddress (Slot.offset Slot.downcount))) amount)
    hvalid (by simp [HostInstruction.written]) hexecute
  refine .tame his hn fun p hp => ?_
  simpa [HostInstruction.dealing?] using hpost p hp

theorem WayOut.guarded (way : WayOut) (stubs : Stubs) :
    Guarded s.regions (fun _ _ _ => False) (way.items stubs) none m ds := by
  cases way with
  | exit target destination linked =>
    refine ⟨trivial, fun label? n hadvance => ?_⟩
    rw [Item.advance?] at hadvance
    split at hadvance <;> cases hadvance
    refine ⟨trivial, fun _ _ hleave => ?_⟩
    cases hleave
  | dispatch =>
    refine ⟨trivial, fun _ _ hadvance => ?_⟩
    cases hadvance
  | checked =>
    refine ⟨trivial, fun _ _ hadvance => ?_⟩
    cases hadvance

theorem WayOut.dealings_eq_nil {way : WayOut} {stubs : Stubs} {rest : List Item} {q : Point β}
    (hpath : Point.Deals ⟨none, way.items stubs ++ rest, m⟩ ds q) : ds = [] := by
  cases way with
  | exit target destination linked =>
    cases hpath with
    | refl => rfl
    | step hnext hpath =>
      rw [WayOut.items, List.cons_append, Point.next?_cons, Item.advance?] at hnext
      split at hnext <;> cases hnext
      cases hpath with
      | refl => rfl
      | step hnext _ => cases hnext
  | dispatch =>
    cases hpath with
    | refl => rfl
    | step hnext _ => cases hnext
  | checked =>
    cases hpath with
    | refl => rfl
    | step hnext _ => cases hnext

end WaysOut

/-! ### Trees -/

namespace Flowchart.Sound

variable [Bus β] {s : Surroundings} {low : Nat} {chart : Flowchart} {m : HostMachine β}
  {ds : List Dealing}

/-- Control stays in bounds in the code of a tree, and never comes to its end. -/
theorem guarded (h : chart.Sound β s low) (hm : m.Roles s.regions) :
    Guarded s.regions (fun _ _ _ => False) (chart.items s.stubs) none m ds := by
  induction chart generalizing low m ds with
  | code is next ih => exact .append (.tame h.1 hm fun n hn => ih h.2 hn)
  | guest i items next ih =>
    refine .append ((h.1.guarded m ds hm trivial).mono ?_)
    rintro _ n _ ⟨rfl, hn, new, rfl, -⟩
    exact ih h.2.2 hn
  | fork c label fall taken ih ih' =>
    obtain ⟨-, hfall, htaken⟩ := h
    refine .cons (.jumpIf ?_)
    split
    · refine .append (.search (fun hmem => ?_) (.cons (.bind ?_)))
      · exact Nat.not_succ_le_self label (hfall.le_of_mem label hmem)
      · rw [if_pos rfl]
        exact ih' htaken hm
    · exact .append ((ih hfall hm).mono fun _ _ _ hfalse => hfalse.elim)
  | leave amount is way =>
    exact .append (.charge h hm amount fun n _ => way.guarded s.stubs)
  | refuse i is => exact .append (.tame h hm fun n _ => ⟨trivial, nofun⟩)

/-- What is dealt with on the way out of a tree is due to instructions on the way, from first to
last. -/
theorem exists_dealings (h : chart.Sound β s low) (hm : m.Roles s.regions) {rest : List Item}
    {q : Point β} (hpath : Point.Deals ⟨none, chart.items s.stubs ++ rest, m⟩ ds q)
    (hq : q.Leaves) : ∃ done groups, done.Sublist chart.instructions ∧
      List.Forall₂ (·.MayDeal s.regions) done groups ∧ ds = groups.flatten := by
  -- The machine goes through the code as the tree says, and deals with memory in accesses only.
  induction chart generalizing low m ds rest with
  | code is next ih =>
    have his : Passage (β := β) s.regions low (fun _ => True) (· = []) (is.map .instruction) :=
      .tame h.1
    rw [items, List.append_assoc] at hpath
    obtain ⟨n, _, ds', hn, rfl, hrest, rfl⟩ := his.exists_path hm hpath hq
    exact ih h.2 hn hrest
  | guest i items next ih =>
    rw [Flowchart.items, List.append_assoc] at hpath
    obtain ⟨n, new, ds', hn, hdeals, hrest, rfl⟩ := h.1.exists_path hm hpath hq
    obtain ⟨done, groups, hsublist, hgroups, rfl⟩ := ih h.2.2 hn hrest
    exact ⟨i :: done, new :: groups, hsublist.cons_cons i, .cons hdeals hgroups, rfl⟩
  | fork c label fall taken ih ih' =>
    obtain ⟨-, hfall, htaken⟩ := h
    rw [items, List.cons_append, List.append_assoc, List.cons_append] at hpath
    cases hpath with
    | refl => exact hq.elim
    | step hnext hpath =>
      cases hnext
      split at hpath
      -- The branch is taken, so the machine passes over the code of the other one.
      · have hpast := hpath.past
          (fun hmem => Nat.not_succ_le_self label (hfall.le_of_mem label hmem)) hq
        cases hpast with
        | refl => exact hq.elim
        | step hnext hpath =>
          cases hnext
          rw [if_pos rfl] at hpath
          obtain ⟨done, groups, hsublist, hrest⟩ := ih' htaken hm hpath
          exact ⟨done, groups, hsublist.trans (List.sublist_append_right ..), hrest⟩
      · obtain ⟨done, groups, hsublist, hrest⟩ := ih hfall hm hpath
        exact ⟨done, groups, hsublist.trans (List.sublist_append_left ..), hrest⟩
  | leave amount is way =>
    rw [items, List.append_assoc] at hpath
    have hcharge : Guarded s.regions (fun label? _ ds => label? = none ∧ ds = [])
        ((Sequence.subtractState (Slot.offset Slot.downcount) amount ++ is).map .instruction)
        none m [] := .charge h hm amount fun n _ => ⟨rfl, rfl⟩
    obtain ⟨_, n, new, ds', ⟨rfl, hnew⟩, hrest, rfl⟩ := hpath.through hcharge
      (fun _ hitem _ _ _ => Point.not_leaves_of_mem_map hitem) hq
    obtain rfl : new = [] := hnew
    exact ⟨[], [], List.nil_sublist _, .nil, WayOut.dealings_eq_nil hrest⟩
  | refuse i is =>
    have his : Passage (β := β) s.regions low (fun _ => True) (· = []) (is.map .instruction) :=
      .tame h
    rw [items, List.append_assoc] at hpath
    obtain ⟨n, _, ds', hn, rfl, hrest, rfl⟩ := his.exists_path hm hpath hq
    cases hrest with
    | refl => exact ⟨[], [], List.nil_sublist _, .nil, rfl⟩
    | step hnext _ => cases hnext

end Flowchart.Sound

end Recompiler
