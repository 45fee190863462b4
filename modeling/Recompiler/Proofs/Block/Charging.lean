import Mathlib.Data.UInt
import Recompiler.Proofs.Block.Charted
import Recompiler.Proofs.Code.Stubs
import Recompiler.Proofs.Memory.Rom
import Recompiler.Proofs.Options

/-!
# What a block charges

Every way through a block to a stub or to another block takes the cycles of the guest instructions on
it off the budget, once. Only the way to the stub for refused instructions takes nothing off.

* `Mark`, `Flowchart.script`: the code of a tree with marks where guest instructions are done.
* `Route`, `Mark.routes`: every way through marked code, whatever the flags and registers hold.
* `Point.exists_route`: the machine takes one of them.
* `Lower.block_charges_once`: what the routes through a block charge.
-/

namespace Recompiler

variable {β : Type}

/-! ## Routes -/

/-- Symbolic code with marks behind the code of guest instructions. -/
inductive Mark where
  | item (item : Item)
  | done (i : Instruction)

/-- The item leads to a stub or to another block. -/
def Item.isWayOut : Item → Bool
  | jumpTo _ | jumpIfTo .. | leave .. => true
  | _ => false

/-- A way through marked code to where it is left. -/
structure Route where
  /-- The host instructions on the way. -/
  ran : List HostInstruction
  /-- The guest instructions that are done on the way. -/
  done : List Instruction
  /-- The item that leads out. -/
  way : Item

namespace Route

/-- The route with a host instruction before it. -/
def run (i : HostInstruction) (r : Route) : Route :=
  { r with ran := i :: r.ran }

/-- The route with a guest instruction before it. -/
def complete (i : Instruction) (r : Route) : Route :=
  { r with done := i :: r.done }

/-- The instructions on the way that may write the budget. -/
def charges (r : Route) : List HostInstruction :=
  r.ran.filter (·.touchesBudget)

/-- The cycles of the guest instructions on the way. -/
def cycles (r : Route) : UInt32 :=
  (r.done.map (·.mnemonic.cycles)).sum

/-- The route leads to a stub or to another block. It takes the cycles of its guest instructions off
the budget, on top of `before`, in one piece. If it leads to a refusal, it leaves the budget alone. -/
structure Charged (stubs : Stubs) (before : UInt32) (r : Route) : Prop where
  leads : r.way.isWayOut = true
  refused : r.way = .jumpTo stubs.hardFault → r.charges = []
  charged : r.way ≠ .jumpTo stubs.hardFault →
    r.charges = Sequence.subtractState (Slot.offset Slot.downcount) (before + r.cycles)

theorem Charged.of_ran {stubs : Stubs} {before : UInt32} {r : Route} (h : r.Charged stubs before)
    {is : List HostInstruction} (his : ∀ i ∈ is, i.touchesBudget = false) :
    Charged stubs before { r with ran := is ++ r.ran } := by
  have hnone : is.filter (·.touchesBudget) = [] :=
    List.filter_eq_nil_iff.2 fun i hi => by simp [his i hi]
  have hcharges : charges { r with ran := is ++ r.ran } = r.charges := by
    rw [charges, List.filter_append, hnone]
    rfl
  exact ⟨h.leads, fun hway => hcharges.trans (h.refused hway),
    fun hway => hcharges.trans (h.charged hway)⟩

/-- A guest instruction on the way is charged for. -/
theorem Charged.complete {stubs : Stubs} {before : UInt32} {r : Route} {i : Instruction}
    (h : r.Charged stubs (before + i.mnemonic.cycles)) :
    (r.complete i).Charged stubs before := by
  refine ⟨h.leads, h.refused, fun hway => ?_⟩
  have hcharged := h.charged hway
  rw [UInt32.add_assoc] at hcharged
  exact hcharged

end Route

namespace Mark

/-- The symbolic code. -/
def item? : Mark → Option Item
  | item i => some i
  | done _ => none

/-- Every way through marked code, for control that may be on its way to a label. Conditional jumps
may go either way. -/
def routes : Option Nat → List Mark → List Route
  | _, [] => []
  | some label, item i :: rest => routes (if i = .bind label then none else some label) rest
  | some label, done _ :: rest => routes (some label) rest
  | none, done i :: rest => (routes none rest).map (.complete i)
  | none, item (.instruction i) :: rest => (routes none rest).map (.run i)
  | none, item (.jump label) :: rest => routes (some label) rest
  | none, item (.jumpIf _ label) :: rest => routes none rest ++ routes (some label) rest
  | none, item (.jumpIfTo c stub) :: rest => ⟨[], [], .jumpIfTo c stub⟩ :: routes none rest
  | none, item (.bind _) :: rest | none, item .entry :: rest => routes none rest
  | none, item (.jumpTo stub) :: _ => [⟨[], [], .jumpTo stub⟩]
  | none, item (.leave target destination linked) :: _ =>
    [⟨[], [], .leave target destination linked⟩]
  | none, item (.align alignment) :: _ => [⟨[], [], .align alignment⟩]

/-- On the way to a label, code in which it is not bound is passed over. -/
theorem routes_search {label : Nat} {marks : List Mark}
    (h : label ∉ bindLabels (marks.filterMap item?)) (rest : List Mark) :
    routes (some label) (marks ++ rest) = routes (some label) rest := by
  induction marks with
  | nil => rfl
  | cons mark marks ih =>
    cases mark with
    | done i => exact ih h
    | item i =>
      have hne : i ≠ .bind label := by
        rintro rfl
        exact h List.mem_cons_self
      have hrest : label ∉ bindLabels (marks.filterMap item?) := fun hmem =>
        h ((List.sublist_cons_self i _).filterMap Item.bindLabel? |>.mem hmem)
      rw [List.cons_append, routes, if_neg hne, ih hrest]

theorem routes_instructions (is : List HostInstruction) (rest : List Mark) :
    routes none ((is.map .instruction).map .item ++ rest) =
      (routes none rest).map fun r => { r with ran := is ++ r.ran } := by
  induction is with
  | nil => simp
  | cons i is ih =>
    rw [List.map_cons, List.map_cons, List.cons_append, routes, ih, List.map_map]
    rfl

/-- Code that leads nowhere else is passed to its end, without touching the budget. -/
theorem exists_mem_routes {items : List Item} (hclosed : Closed items)
    (hmild : ∀ item ∈ items, item.isMild = true) {label? : Option Nat}
    (hlabel : ∀ label, label? = some label → label ∈ bindLabels items) {rest : List Mark}
    {r : Route} (hr : r ∈ routes label? (items.map .item ++ rest)) :
    ∃ is r', r' ∈ routes none rest ∧ (∀ i ∈ is, i.touchesBudget = false) ∧
      r = { r' with ran := is ++ r'.ran } := by
  -- Closed code binds every label that it looks for, so the search ends before the code does.
  induction items generalizing label? r with
  | nil =>
    cases label? with
    | none => exact ⟨[], r, hr, by simp, rfl⟩
    | some label => cases hlabel label rfl
  | cons item items ih =>
    have hmild' := fun i hi => hmild i (List.mem_cons_of_mem _ hi)
    cases label? with
    | some label =>
      rw [List.map_cons, List.cons_append, routes] at hr
      refine ih hclosed.2 hmild' (fun label' heq => ?_) hr
      split at heq
      · cases heq
      · next hne =>
        cases heq
        have hmem := hlabel label rfl
        cases item with
        | bind label' =>
          rw [bindLabels_bind] at hmem
          exact (List.mem_cons.1 hmem).resolve_left fun heq => hne (by rw [heq])
        | _ => exact hmem
    | none =>
      have hnone : ∀ label, (none : Option Nat) = some label → label ∈ bindLabels items := nofun
      cases item with
      | instruction i =>
        rw [List.map_cons, List.cons_append, routes] at hr
        obtain ⟨r₁, hr₁, rfl⟩ := List.mem_map.1 hr
        obtain ⟨is, r', hr', his, rfl⟩ := ih hclosed.2 hmild' hnone hr₁
        have hi : i.touchesBudget = false := by
          simpa [Item.isMild] using hmild (.instruction i) List.mem_cons_self
        exact ⟨i :: is, r', hr', List.forall_mem_cons.2 ⟨hi, his⟩, rfl⟩
      | jump label =>
        refine ih hclosed.2 hmild' (fun label' heq => ?_) hr
        cases heq
        exact hclosed.1 label rfl
      | jumpIf c label =>
        rw [List.map_cons, List.cons_append, routes] at hr
        rcases List.mem_append.1 hr with hr | hr
        · exact ih hclosed.2 hmild' hnone hr
        · refine ih hclosed.2 hmild' (fun label' heq => ?_) hr
          cases heq
          exact hclosed.1 label rfl
      | bind label => exact ih hclosed.2 hmild' hnone hr
      | _ => cases hmild _ List.mem_cons_self

end Mark

/-! ## Marked trees -/

namespace Flowchart

/-- The code of a tree with marks where guest instructions are done. -/
def script (stubs : Stubs) : Flowchart → List Mark
  | code is next => (is.map .instruction).map .item ++ next.script stubs
  | guest i items next => items.map .item ++ .done i :: next.script stubs
  | fork c label fall taken =>
    .item (.jumpIf c label) :: (fall.script stubs ++ .item (.bind label) :: taken.script stubs)
  | leave amount is way =>
    ((Sequence.subtractState (Slot.offset Slot.downcount) amount ++ is).map .instruction).map
      .item ++ (way.items stubs).map .item
  | refuse _ is => (is.map .instruction).map .item ++ [.item (.jumpTo stubs.hardFault)]

theorem filterMap_map_item (items : List Item) :
    (items.map Mark.item).filterMap Mark.item? = items := by
  rw [List.filterMap_map]
  exact List.filterMap_some

/-- Without the marks, it is the code of the tree. -/
theorem filterMap_script (stubs : Stubs) (chart : Flowchart) :
    (chart.script stubs).filterMap Mark.item? = chart.items stubs := by
  induction chart with
  | code is next ih => rw [script, List.filterMap_append, filterMap_map_item, ih, items]
  | guest i items next ih =>
    rw [script, List.filterMap_append, filterMap_map_item, List.filterMap_cons_none rfl, ih,
      Flowchart.items]
  | fork c label fall taken ih ih' =>
    simp only [script, List.filterMap_cons, List.filterMap_append, Mark.item?, ih, ih', items]
  | leave amount is way =>
    rw [script, List.filterMap_append, filterMap_map_item, filterMap_map_item, items]
  | refuse i is => rw [script, List.filterMap_append, filterMap_map_item, items]; rfl

variable [Bus β] {s : Surroundings} {low : Nat} {chart : Flowchart} {before : UInt32}

/-- Each route through the code of a tree charges for the guest instructions on it. -/
theorem Sound.charged (h : chart.Sound β s low) (hcharges : chart.Charges before)
    (hdispatcher : s.stubs.hardFault ≠ s.stubs.dispatcher)
    (hchecked : s.stubs.hardFault ≠ s.stubs.dispatcherCheckCoreState) {rest : List Mark} {r : Route}
    (hr : r ∈ Mark.routes none (chart.script s.stubs ++ rest)) : r.Charged s.stubs before := by
  -- Only the code in front of a way out charges, so what a route charges is settled at its leaf.
  -- The script of a fork has the code for both of its branches, of which a route runs one.
  induction chart generalizing low before rest r with
  | code is next ih =>
    rw [script, List.append_assoc, Mark.routes_instructions] at hr
    obtain ⟨r', hr', rfl⟩ := List.mem_map.1 hr
    exact (ih h.2 hcharges hr').of_ran fun i hi => (h.1 i hi).budget
  | guest i items next ih =>
    rw [script, List.append_assoc, List.cons_append] at hr
    have hnone : ∀ label, (none : Option Nat) = some label → label ∈ bindLabels items := nofun
    obtain ⟨is, r₁, hr₁, his, rfl⟩ := Mark.exists_mem_routes h.1.closed h.1.mild hnone hr
    rw [Mark.routes] at hr₁
    obtain ⟨r', hr', rfl⟩ := List.mem_map.1 hr₁
    exact .of_ran (.complete (ih h.2.2 hcharges hr')) his
  | fork c label fall taken ih ih' =>
    obtain ⟨-, hfall, htaken⟩ := h
    rw [script, List.cons_append, List.append_assoc, List.cons_append, Mark.routes] at hr
    rcases List.mem_append.1 hr with hr | hr
    · exact ih hfall hcharges.1 hr
    · have hlabel : label ∉ bindLabels ((fall.script s.stubs).filterMap Mark.item?) := by
        rw [filterMap_script]
        exact fun hmem => Nat.not_succ_le_self label (hfall.le_of_mem label hmem)
      rw [Mark.routes_search hlabel, Mark.routes, if_pos rfl] at hr
      exact ih' htaken hcharges.2 hr
  | leave amount is way =>
    obtain rfl : amount = before := hcharges
    rw [script, List.append_assoc, Mark.routes_instructions] at hr
    obtain ⟨r', hr', rfl⟩ := List.mem_map.1 hr
    have hnone : is.filter (·.touchesBudget) = [] :=
      List.filter_eq_nil_iff.2 fun i hi => by simp [(h i hi).budget]
    have hway : r'.ran = [] ∧ r'.done = [] ∧ r'.way.isWayOut = true ∧
        r'.way ≠ .jumpTo s.stubs.hardFault := by
      cases way with
      | exit target destination linked =>
        simp only [WayOut.items, List.map_cons, List.map_nil, List.cons_append, List.nil_append,
          Mark.routes, List.mem_cons, List.not_mem_nil, or_false] at hr'
        rcases hr' with rfl | rfl <;> simp [Item.isWayOut]
      | dispatch =>
        obtain rfl := List.mem_singleton.1 hr'
        simpa [Item.isWayOut] using hdispatcher.symm
      | checked =>
        obtain rfl := List.mem_singleton.1 hr'
        simpa [Item.isWayOut] using hchecked.symm
    obtain ⟨hran, hdone, hleads, hne⟩ := hway
    have hbudget : (Sequence.stateAddress (Slot.offset Slot.downcount)).mayBeBudget = true := by
      decide
    refine ⟨hleads, fun heq => absurd heq hne, fun _ => ?_⟩
    rw [Route.charges, Route.cycles, hran, hdone, List.append_nil, List.filter_append, hnone]
    simp [Sequence.subtractState, HostInstruction.touchesBudget, hbudget]
  | refuse i is =>
    rw [script, List.append_assoc, Mark.routes_instructions] at hr
    obtain ⟨r', hr', rfl⟩ := List.mem_map.1 hr
    obtain rfl := List.mem_singleton.1 hr'
    have hrefused : Route.Charged s.stubs before ⟨[], [], .jumpTo s.stubs.hardFault⟩ :=
      ⟨rfl, fun _ => rfl, fun hne => absurd rfl hne⟩
    exact hrefused.of_ran fun i hi => (h i hi).budget

end Flowchart

/-! ## The machine on a route -/

namespace Point

/-- The host instruction that is about to run. -/
def instruction? : Point β → Option HostInstruction
  | ⟨none, .instruction i :: _, _⟩ => some i
  | _ => none

/-- Whatever the machine does between the beginning of marked code and a way out of it, it is on one
of the routes. -/
theorem exists_route [Bus β] {marks : List Mark} {alignment : Nat} {label? : Option Nat}
    {m : HostMachine β} {is : List HostInstruction} {q : Point β}
    (hpath : Path instruction? ⟨label?, marks.filterMap Mark.item? ++ [.align alignment], m⟩ is q)
    (hq : q.Leaves) :
    ∃ r ∈ Mark.routes label? (marks ++ [.item (.align alignment)]),
      r.ran = is ∧ q.items.head? = some r.way := by
  -- The path and the marks are walked along together. While the machine looks for a label, items
  -- are passed over; otherwise each item is a step, a way out, or both.
  induction marks generalizing label? m is with
  | nil =>
    cases label? with
    | none =>
      cases hpath with
      | refl => exact ⟨⟨[], [], .align alignment⟩, List.mem_singleton_self _, rfl, rfl⟩
      | step hnext _ => cases hnext
    | some label =>
      cases hpath with
      | refl => exact hq.elim
      | step hnext hpath =>
        cases hnext
        cases hpath with
        | refl => exact hq.elim
        | step hnext _ => cases hnext
  | cons mark marks ih =>
    cases mark with
    | done i =>
      obtain ⟨r, hr, hran, hway⟩ := ih hpath
      cases label? with
      | none => exact ⟨r.complete i, List.mem_map_of_mem hr, hran, hway⟩
      | some label => exact ⟨r, hr, hran, hway⟩
    | item item =>
      cases hpath with
      | refl =>
        cases label? with
        | some label => exact hq.elim
        | none =>
          cases item with
          | jumpIfTo c stub => exact ⟨_, List.mem_cons_self, rfl, rfl⟩
          | jumpTo stub => exact ⟨_, List.mem_singleton_self _, rfl, rfl⟩
          | leave target destination linked => exact ⟨_, List.mem_singleton_self _, rfl, rfl⟩
          | align alignment => exact ⟨_, List.mem_singleton_self _, rfl, rfl⟩
          | _ => exact hq.elim
      | step hnext hpath =>
        cases label? with
        | some label =>
          cases hnext
          exact ih hpath
        | none =>
          cases item with
          | instruction i =>
            obtain ⟨n, -, rfl⟩ := Option.map_eq_some_iff.1 hnext
            obtain ⟨r, hr, hran, hway⟩ := ih hpath
            exact ⟨r.run i, List.mem_map_of_mem hr, congrArg (i :: ·) hran, hway⟩
          | jumpIf c label =>
            cases hnext
            obtain ⟨r, hr, hway⟩ := ih hpath
            refine ⟨r, List.mem_append.2 ?_, hway⟩
            split at hr
            · exact .inr hr
            · exact .inl hr
          | jumpIfTo c stub =>
            change (if m.flags.holds c then none else _) = _ at hnext
            split at hnext <;> cases hnext
            obtain ⟨r, hr, hway⟩ := ih hpath
            exact ⟨r, List.mem_cons_of_mem _ hr, hway⟩
          | jump label => cases hnext; exact ih hpath
          | bind label => cases hnext; exact ih hpath
          | entry => cases hnext; exact ih hpath
          | _ => cases hnext

end Point

/-! ## Blocks -/

namespace Lower

/-- What a block takes off the budget. The code behind its marked entry is that of a tree whose nodes
are the guest instructions of the block, each with its own code. Every route through this code, whatever
the flags and registers hold, leads to a stub or to another block, and

* if that is not the stub for refused instructions, exactly one instruction on the route may write the
  budget: it takes off the sum of the cycles of the guest instructions that are done on the route;
* if it is, nothing on the route writes the budget, whatever was done before the refused instruction.

The machine always follows one of the routes. -/
theorem block_charges_once [Bus β] {options : Options} {regions : List FastRegion} {stubs : Stubs}
    {entryAt : UInt32 → Option Destination} {start : UInt32} {bus : β} {u : Lowering β}
    (hvalid : options.validate regions = .ok ())
    (hdispatcher : stubs.hardFault ≠ stubs.dispatcher)
    (hchecked : stubs.hardFault ≠ stubs.dispatcherCheckCoreState)
    (h : exec (block start) ⟨options, regions, stubs, entryAt⟩ (.initial bus start) = (.ok (), u)) :
    ∃ chart : Flowchart,
      u.code.toList = entryItems stubs start ++ (chart.items stubs ++ [.align blockAlignment]) ∧
      u.lowered = chart.instructions ∧ chart.Sound β ⟨options, regions, stubs, entryAt⟩ 1 ∧
      (∀ r ∈ Mark.routes none (chart.script stubs ++ [.item (.align blockAlignment)]),
        r.way.isWayOut = true ∧
        (r.way ≠ .jumpTo stubs.hardFault →
          r.charges = Sequence.subtractState (Slot.offset Slot.downcount)
            (r.done.map (·.mnemonic.cycles)).sum) ∧
        (r.way = .jumpTo stubs.hardFault → r.charges = [])) ∧
      ∀ (m : HostMachine β) (is : List HostInstruction) (q : Point β),
        Point.Path Point.instruction? ⟨none, chart.items stubs ++ [.align blockAlignment], m⟩ is q →
        q.Leaves → ∃ r ∈ Mark.routes none (chart.script stubs ++ [.item (.align blockAlignment)]),
          r.ran = is ∧ q.items.head? = some r.way := by
  obtain ⟨chart, hcode, hlowered, hsound, hcharges⟩ :=
    exists_flowchart (Options.accepted_of_validate hvalid) h
  refine ⟨chart, hcode, hlowered, hsound, fun r hr => ?_, fun m is q hpath hq => ?_⟩
  · obtain ⟨hleads, hrefused, hcharged⟩ := hsound.charged hcharges hdispatcher hchecked hr
    refine ⟨hleads, fun hway => ?_, hrefused⟩
    rw [hcharged hway, UInt32.zero_add]
    rfl
  · rw [← Flowchart.filterMap_script] at hpath
    exact Point.exists_route hpath hq

/-- Counting, and then an instruction that is refused: `addiu t0, t0, 1; lwl t1, 0(t0)`. -/
def faulting : Rom :=
  ⟨fun addr => if addr = 0x1000 then 0x25080001 else 0x89090000⟩

/-- The block of `faulting` never writes the budget, although its first instruction is done. -/
theorem block_charges_once_of_faulting :
    ∃ (u : Lowering Rom) (chart : Flowchart),
      exec (block 0x1000) ⟨.standard, [], Stubs.standard, fun _ => none⟩
        (.initial faulting 0x1000) = (.ok (), u) ∧
      u.lowered.map (·.mnemonic) = [.addiu, .lwl] ∧
      u.code.all (fun item => match item with
        | .instruction i => !i.touchesBudget
        | _ => true) = true ∧
      chart.instructions = u.lowered ∧
      ∀ r ∈ Mark.routes none (chart.script Stubs.standard ++ [.item (.align blockAlignment)]),
        r.way = .jumpTo Stubs.standard.hardFault → r.charges = [] := by
  obtain ⟨u, hu⟩ : ∃ u, u = (exec (block 0x1000) ⟨.standard, [], Stubs.standard, fun _ => none⟩
    (.initial faulting 0x1000)).2 := ⟨_, rfl⟩
  have hok : exec (block 0x1000) ⟨.standard, [], Stubs.standard, fun _ => none⟩
      (.initial faulting 0x1000) = (.ok (), u) := by
    rw [hu]
    exact exec_eq_ok_of_isOk (by decide +kernel)
  have hcheck : u.lowered.map (·.mnemonic) = [.addiu, .lwl] ∧
      u.code.all (fun item => match item with
        | .instruction i => !i.touchesBudget
        | _ => true) = true := by
    rw [hu]
    decide +kernel
  have hvalid : Options.standard.validate [] = .ok () := rfl
  obtain ⟨chart, -, hlowered, -, hroutes, -⟩ :=
    block_charges_once hvalid (by decide) (by decide) hok
  exact ⟨u, chart, hok, hcheck.1, hcheck.2, hlowered.symm, fun r hr => (hroutes r hr).2.2⟩

end Lower

end Recompiler
