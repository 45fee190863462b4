import Recompiler.Proofs.Block.Charted
import Recompiler.Proofs.Host.Stack
import Recompiler.Proofs.Memory.Rom
import Recompiler.Proofs.Options

/-!
# Blocks stay in guest memory

Guest code cannot reach host memory outside its regions. Whatever a block was compiled from and
whatever the registers hold, each instruction of the block that control comes to stays in the guest
state and the regions, and each dealing with guest memory is due to an instruction of the guest: a
load or store reaches memory of its own size in one region, or calls its helper.

* `Lower.Entry`: the two entries of a block.
* `Lower.guarded_of_entry`, `Lower.dealings_of_entry`: control from an entry on.
* `Lower.block_stays_in_regions`: the code of a block, its bytes and its dealings.
-/

namespace Recompiler

variable {β : Type}

namespace Lower

/-! ## Entries -/

/-- The code of a block from one of its entries on: from its beginning, or from where the budget is
checked already. -/
def Entry (stubs : Stubs) (start : UInt32) (code items : List Item) : Prop :=
  code = items ∨ code = entryItems stubs start ++ items

theorem tame_budgetCheck : Sequence.Tame [budgetCheck] :=
  have hslot : Slot.downcount < Slot.count := by decide
  Sequence.tame_compareState hslot 0

variable {stubs : Stubs} {start : UInt32}

theorem closed_entryItems : Closed (entryItems stubs start) := by
  simp [entryItems, Closed, Item.jumpLabel?, bindLabels, Item.bindLabel?]

variable [Bus β] {regions : List FastRegion} {m : HostMachine β} {ds : List Dealing}

theorem guarded_entryItems {post : Outlook β} (hm : m.Roles regions)
    (hpost : ∀ n, n.Roles regions → post none n ds) :
    Guarded regions post (entryItems stubs start) none m ds := by
  have hslot : Slot.Free Slot.pc := by decide
  have hpc := Sequence.tame_storeStateImmediate hslot start
  change Guarded regions post ([budgetCheck].map .instruction ++ _) none m ds
  refine .append (.tame tame_budgetCheck hm fun n hn => ?_)
  refine .cons (.jumpIf ?_)
  split
  · change Guarded regions post ([_, _] ++ [_, _]) _ n ds
    refine .append (.search (by simp [bindLabels, Item.bindLabel?]) ?_)
    refine .cons (.bind ⟨trivial, fun label? p hadvance => ?_⟩)
    rw [if_pos rfl] at hadvance
    cases hadvance
    simpa [Guarded, Item.dealing?] using hpost n hn
  · change Guarded regions post ((Sequence.storeStateImmediate _ start).map .instruction ++ _) none n ds
    refine .append (.tame hpc hn fun p _ => ⟨trivial, fun _ _ hadvance => ?_⟩)
    cases hadvance

/-- A path from the beginning of a block ends at the budget check, or goes on behind it. -/
theorem path_entryItems {items : List Item} {q : Point β} (hm : m.Roles regions)
    (hpath : Point.Deals ⟨none, entryItems stubs start ++ items, m⟩ ds q) (hq : q.Leaves) :
    ds = [] ∨ ∃ n, n.Roles regions ∧ Point.Deals ⟨none, items, n⟩ ds q := by
  have hcheck : Passage (β := β) regions 0 (fun _ => True) (· = [])
      ([budgetCheck].map .instruction) := .tame tame_budgetCheck
  have hpc : Passage (β := β) regions 0 (fun _ => True) (· = [])
      ((Sequence.storeStateImmediate (Slot.offset Slot.pc) start).map .instruction) :=
    .tame (Sequence.tame_storeStateImmediate (by decide) start)
  obtain ⟨n, _, ds, hn, rfl, hpath, rfl⟩ := hcheck.exists_path hm hpath hq
  cases hpath with
  | refl => exact hq.elim
  | step hnext hpath =>
    cases hnext
    -- The jump to the label is taken if some budget is left. If not, the stub is next.
    split at hpath
    · change Point.Deals ⟨some 0, [_, _] ++ _, n⟩ _ q at hpath
      have hpath := hpath.past (by simp [bindLabels, Item.bindLabel?]) hq
      cases hpath with
      | refl => exact hq.elim
      | step hnext hpath =>
        cases hnext
        rw [if_pos rfl] at hpath
        cases hpath with
        | refl => exact hq.elim
        | step hnext hpath =>
          cases hnext
          exact .inr ⟨n, hn, hpath⟩
    · obtain ⟨p, _, ds, _, rfl, hpath, rfl⟩ := hpc.exists_path hn hpath hq
      cases hpath with
      | refl => exact .inl rfl
      | step hnext _ => cases hnext

/-! ## Blocks -/

section Blocks

variable {options : Options} {entryAt : UInt32 → Option Destination} {bus : β} {u : Lowering β}
  {items : List Item}

/-- From an entry on, control stays in bounds. -/
theorem guarded_of_entry (haccepted : options.Accepted regions)
    (h : exec (block start) ⟨options, regions, stubs, entryAt⟩ (.initial bus start) = (.ok (), u))
    (hentry : Entry stubs start u.code.toList items) (hm : m.Roles regions) :
    Closed items ∧ Guarded regions (fun _ _ _ => True) items none m ds := by
  obtain ⟨chart, hcode, -, hsound, -⟩ := exists_flowchart haccepted h
  have hclosed : Closed (chart.items stubs ++ [.align blockAlignment]) :=
    hsound.closed.append (.of_no_jumps (by simp [Item.jumpLabel?]))
  have hguarded {n : HostMachine β} (hn : n.Roles regions) :
      Guarded regions (fun _ _ _ => True) (chart.items stubs ++ [.align blockAlignment]) none n ds :=
    .append ((hsound.guarded hn).mono fun _ _ _ hfalse => hfalse.elim)
  rcases hentry with rfl | hentry
  · rw [hcode]
    exact ⟨closed_entryItems.append hclosed, .append (guarded_entryItems hm fun n => hguarded)⟩
  · rw [← List.append_cancel_left (hcode.symm.trans hentry)]
    exact ⟨hclosed, hguarded hm⟩

/-- What is dealt with on a path from an entry out of the block is due to instructions of the
guest. -/
theorem dealings_of_entry (haccepted : options.Accepted regions)
    (h : exec (block start) ⟨options, regions, stubs, entryAt⟩ (.initial bus start) = (.ok (), u))
    (hentry : Entry stubs start u.code.toList items) (hm : m.Roles regions) {q : Point β}
    (hpath : Point.Deals ⟨none, items, m⟩ ds q) (hq : q.Leaves) :
    ∃ done groups, done.Sublist u.lowered ∧ List.Forall₂ (·.MayDeal regions) done groups ∧
      ds = groups.flatten := by
  obtain ⟨chart, hcode, hlowered, hsound, -⟩ := exists_flowchart haccepted h
  rw [hlowered]
  rcases hentry with rfl | hentry
  · rw [hcode] at hpath
    rcases path_entryItems hm hpath hq with rfl | ⟨n, hn, hpath⟩
    · exact ⟨[], [], List.nil_sublist _, .nil, rfl⟩
    · exact hsound.exists_dealings hn hpath hq
  · rw [← List.append_cancel_left (hcode.symm.trans hentry)] at hpath
    exact hsound.exists_dealings hm hpath hq

/-- Guest code stays in guest memory. The way in gives two registers their roles. Where they have
them, and whatever the others hold, control that enters a block by one of its entries does the
following, up to where it leaves the block, with the roles as they were:

* Each instruction that it comes to touches words of the guest state and whole accesses in the
  regions only, and calls helpers only.
* Its dealings with guest memory are due to guest instructions of the block, from first to last: a
  load or store makes one access of its own kind that lies whole in a region, or one call of its
  helper.
* Where the code lies in an arena, the machine that runs the bytes does the same.

`entryAt` may be anything, and so this is true of the code before and after exits are linked. -/
theorem block_stays_in_regions (hvalid : options.validate regions = .ok ())
    (h : exec (block start) ⟨options, regions, stubs, entryAt⟩ (.initial bus start) = (.ok (), u))
    (hentry : Entry stubs start u.code.toList items) :
    (∀ (base : UInt64) (env : Environment β) (enter entry : Nat),
      (∀ r, regions[0]? = some r → base = r.pointer) →
        ∃ before n, Sequence.enter = before ++ [.jumpRegister .rdx] ∧
          HostMachine.Runs before (.start env base enter entry) n ∧ n.Roles regions) ∧
    ∀ m : HostMachine β, m.Roles regions →
      (∀ q ds, Point.Deals ⟨none, items, m⟩ ds q → q.Bounded regions ∧ q.machine.Roles regions) ∧
      (∀ q ds, Point.Deals ⟨none, items, m⟩ ds q → q.Leaves →
        ∃ done groups, done.Sublist u.lowered ∧
          List.Forall₂ (·.MayDeal regions) done groups ∧ ds = groups.flatten) ∧
      ∀ (code : Arena) (offset k : Nat) (n : HostMachine β), Laid code.written offset items →
        Layout.stop offset items < 0x80000000 → HostMachine.Steps code k (m.goto offset) n →
          n.Bounded regions code ∨
            ∃ q ds ip j, Point.Deals ⟨none, items, m⟩ ds q ∧ q.Leaves ∧ j ≤ k ∧
              HostMachine.Steps code j (m.goto offset) (q.machine.goto ip) := by
  have haccepted := Options.accepted_of_validate hvalid
  refine ⟨fun base env enter entry hbase => ?_, fun m hm => ⟨fun q ds hpath => ?_,
    fun q ds => dealings_of_entry haccepted h hentry hm, fun code offset k n hlaid hstop hsteps => ?_⟩⟩
  · obtain ⟨n, hruns, hroles, -⟩ :=
      HostMachine.runs_enter (HostMachine.called_start hbase env enter entry)
    exact ⟨_, n, Sequence.enter_eq, hruns, hroles⟩
  · have hguarded : Guarded regions (fun _ _ _ => True) items none m [] :=
      (guarded_of_entry haccepted h hentry hm).2
    exact ⟨(hguarded.of_deals (p := ⟨none, items, m⟩) hpath).bounded,
      hguarded.roles (p := ⟨none, items, m⟩) hm hpath⟩
  · obtain ⟨hclosed, hguarded⟩ :
        Closed items ∧ Guarded regions (fun _ _ _ => True) items none m [] :=
      guarded_of_entry haccepted h hentry hm
    have hat : Point.At code offset offset ⟨none, items, m⟩ :=
      ⟨hlaid, Nat.le_of_lt hstop, hclosed, rfl⟩
    exact hat.follows hguarded hsteps

/-- Loading a word and returning: `lw t0, 4(zero); jr ra; nop`. -/
def loading : Rom :=
  ⟨fun addr => if addr = 0x1000 then 0x8C080004 else if addr = 0x1004 then 0x03E00008 else 0⟩

/-- The block of `loading` reaches memory at most for its load, which is a word in the region. -/
theorem block_stays_in_regions_of_loading :
    ∃ (r : FastRegion) (u : Lowering Rom) (m : HostMachine Rom),
      exec (block 0x1000) ⟨.standard, [r], ⟨0, 0, 0, 0, 0, 0⟩, fun _ => none⟩
        (.initial loading 0x1000) = (.ok (), u) ∧
      m.Roles [r] ∧ u.lowered.map (·.mnemonic) = [.lw, .jr, .sll] ∧
      ∀ q ds, Point.Deals ⟨none, u.code.toList, m⟩ ds q → q.Leaves →
        ∃ done groups, done.Sublist u.lowered ∧ List.Forall₂ (·.MayDeal [r]) done groups ∧
          ds = groups.flatten := by
  let r : FastRegion := ⟨0, 64, Linkage.memoryBase 0⟩
  obtain ⟨u, hu⟩ : ∃ u, u = (exec (block 0x1000) ⟨.standard, [r], ⟨0, 0, 0, 0, 0, 0⟩, fun _ => none⟩
    (.initial loading 0x1000)).2 := ⟨_, rfl⟩
  have hok : exec (block 0x1000) ⟨.standard, [r], ⟨0, 0, 0, 0, 0, 0⟩, fun _ => none⟩
      (.initial loading 0x1000) = (.ok (), u) := by
    rw [hu]
    exact exec_eq_ok_of_isOk (by decide +kernel)
  have hcheck : u.lowered.map (·.mnemonic) = [.lw, .jr, .sll] := by
    rw [hu]
    decide +kernel
  have hvalid : Options.standard.validate [r] = .ok () := rfl
  obtain ⟨hway, hstays⟩ := block_stays_in_regions hvalid hok (.inl rfl)
  obtain ⟨_, m, -, -, hm⟩ := hway r.pointer (.initial loading) 0 0 fun r' hr' => by
    cases hr'
    rfl
  exact ⟨r, u, m, hok, hm, hcheck, (hstays m hm).2.1⟩

end Blocks

end Lower

end Recompiler
