import Recompiler.Proofs.Block.Quiet
import Recompiler.Proofs.Code.Guarded

/-!
# Passages

Stretches of a block's code that control enters at the beginning and leaves at the end, whatever the
registers hold. Their labels are their own, they stay in bounds, and they leave the budget alone.

* `Passage`: a stretch of symbolic code, and the dealings on the way through it.
* `Lower.Paves`: a lowering step that adds a passage.
* `Paves.interpretCall`: leaving an instruction to the interpreter.
-/

namespace Recompiler

variable {β : Type}

/-! ## Stretches of code -/

/-- The item leads out of the code nowhere, and leaves the budget alone. -/
def Item.isMild : Item → Bool
  | instruction i => !i.touchesBudget
  | jump _ | jumpIf .. | bind _ => true
  | _ => false

theorem Item.isMild_instructions {is : List HostInstruction}
    (h : ∀ i ∈ is, i.touchesBudget = false) :
    ∀ item ∈ is.map Item.instruction, item.isMild = true := by
  intro item hitem
  obtain ⟨i, hi, rfl⟩ := List.mem_map.1 hitem
  simp [Item.isMild, h i hi]

/-- Control that enters where `ready` holds comes to the end, with dealings that `deals` allows. The
labels are not below `low`. -/
structure Passage [Bus β] (regions : List FastRegion) (low : Nat) (ready : HostMachine β → Prop)
    (deals : List Dealing → Prop) (items : List Item) : Prop where
  closed : Closed items
  mild : ∀ item ∈ items, item.isMild = true
  labels : ∀ label ∈ bindLabels items, low ≤ label
  guarded : ∀ (m : HostMachine β) (ds : List Dealing), m.Roles regions → ready m →
    Guarded regions (fun label? n ds' => label? = none ∧ n.Roles regions ∧
      ∃ new, ds' = ds ++ new ∧ deals new) items none m ds

namespace Passage

variable [Bus β] {regions : List FastRegion} {low low' : Nat} {ready ready' : HostMachine β → Prop}
  {deals deals' deals'' : List Dealing → Prop} {items items' : List Item} {is : List HostInstruction}

theorem mono (h : Passage regions low ready deals items) (hlow : low' ≤ low)
    (hready : ∀ m, ready' m → ready m) (hdeals : ∀ ds, deals ds → deals' ds) :
    Passage regions low' ready' deals' items where
  closed := h.closed
  mild := h.mild
  labels label hlabel := Nat.le_trans hlow (h.labels label hlabel)
  guarded m ds hm hm' := (h.guarded m ds hm (hready m hm')).mono fun _ _ _ hpost =>
    ⟨hpost.1, hpost.2.1, hpost.2.2.imp fun new hnew => ⟨hnew.1, hdeals new hnew.2⟩⟩

theorem append (h : Passage regions low ready deals items)
    (h' : Passage (β := β) regions low (fun _ => True) deals' items')
    (hdeals : ∀ ds ds', deals ds → deals' ds' → deals'' (ds ++ ds')) :
    Passage regions low ready deals'' (items ++ items') where
  closed := h.closed.append h'.closed
  mild item hitem := (List.mem_append.1 hitem).elim (h.mild item) (h'.mild item)
  labels label hlabel := by
    rw [bindLabels_append] at hlabel
    exact (List.mem_append.1 hlabel).elim (h.labels label) (h'.labels label)
  guarded m ds hm hready := by
    refine .append ((h.guarded m ds hm hready).mono ?_)
    rintro _ n _ ⟨rfl, hn, new, rfl, hnew⟩
    refine (h'.guarded n _ hn trivial).mono ?_
    rintro _ p _ ⟨rfl, hp, new', rfl, hnew'⟩
    exact ⟨rfl, hp, new ++ new', List.append_assoc .., hdeals new new' hnew hnew'⟩

/-- A run of instructions. -/
theorem instructions (hmild : ∀ i ∈ is, i.touchesBudget = false)
    (hguarded : ∀ (m : HostMachine β) (ds : List Dealing) (post : Outlook β), m.Roles regions →
      ready m → (∀ n new, n.Roles regions → deals new → post none n (ds ++ new)) →
      Guarded regions post (is.map .instruction) none m ds) :
    Passage regions low ready deals (is.map .instruction) where
  closed := .instructions is
  mild := Item.isMild_instructions hmild
  labels := by simp
  guarded m ds hm hready := hguarded m ds _ hm hready fun _ new hn hnew => ⟨rfl, hn, new, rfl, hnew⟩

theorem tame (his : Sequence.Tame is) :
    Passage (β := β) regions low (fun _ => True) (· = []) (is.map .instruction) := by
  refine instructions (fun i hi => (his i hi).budget) fun m ds post hm _ hpost => ?_
  have hnone (n : HostMachine β) (hn : n.Roles regions) : post none n ds := by
    simpa using hpost n [] hn rfl
  exact .tame his hm hnone

theorem nil : Passage (β := β) regions low (fun _ => True) (· = []) [] :=
  tame Sequence.tame_nil

/-- Calling a helper. -/
theorem call {h : Helper} {args : List Argument} (hcall : Sequence.call h.address args = .ok is)
    (hargs : ∀ arg ∈ args, arg.Valid) :
    Passage (β := β) regions low (fun _ => True) (· = [.call h.address]) (is.map .instruction) := by
  refine instructions (fun i hi => ?_) fun m ds post hm _ hpost =>
    .call hcall hargs hm fun n hn => hpost n _ hn rfl
  obtain ⟨passing, rfl, hpassing⟩ := Sequence.exists_of_call hcall hargs
  rcases List.mem_append.1 hi with hi | hi
  · have hmove : Sequence.Tame (Sequence.movePointer .rax h.address) :=
      Sequence.tame_movePointer (by decide) h.address
    exact ((hpassing.append hmove) i hi).budget
  · obtain rfl := List.mem_singleton.1 hi
    rfl

end Passage

/-! ## Steps that add a passage -/

/-- A passage was added, and no more. -/
structure Lowering.Paves [Bus β] (s : Surroundings) (ready : HostMachine β → Prop)
    (deals : List Dealing → Prop) (t u : Lowering β) : Prop extends Idle t u where
  placed : u.registers.Placed
  labels : t.labels ≤ u.labels
  code : ∃ items : List Item, u.code = t.code ++ items ∧
    Passage s.regions t.labels ready deals items

namespace Lower

/-- Where it succeeds, the step adds a passage. -/
def Paves [Bus β] (s : Surroundings) (ready : HostMachine β → Prop)
    (deals : List Dealing → Prop) (x : Lower β Unit) : Prop :=
  ∀ ⦃t u⦄, t.registers.Placed → x.exec s t = (.ok (), u) → t.Paves s ready deals u

theorem exec_emitChecked_eq_ok {x : Except Breach (List HostInstruction)} {s : Surroundings}
    {t u : Lowering β} (h : exec (emitChecked x) s t = (.ok (), u)) :
    ∃ is, x = .ok is ∧ u = { t with code := t.code ++ is.map Item.instruction } := by
  cases x with
  | ok is => exact ⟨is, rfl, (Prod.mk.inj h).2.symm⟩
  | error b => cases h

end Lower

namespace Lowering.Paves

variable [Bus β] {s : Surroundings} {ready : HostMachine β → Prop}
  {deals deals' deals'' : List Dealing → Prop} {t u v : Lowering β}

theorem of_quiet (h : t.Quiet u) : t.Paves s (fun _ => True) (· = []) u := by
  obtain ⟨is, hcode, his⟩ := h.code
  exact ⟨h.toIdle, h.placed, Nat.le_of_eq h.labels.symm, _, hcode, .tame his⟩

theorem of_passage {items : List Item} (ht : t.registers.Placed)
    (h : Passage s.regions t.labels ready deals items) :
    t.Paves s ready deals { t with code := t.code ++ items } :=
  ⟨⟨rfl, rfl, rfl, rfl, rfl⟩, ht, Nat.le_refl _, items, rfl, h⟩

theorem trans (h : t.Paves s ready deals u) (h' : u.Paves s (fun _ => True) deals' v)
    (hdeals : ∀ ds ds', deals ds → deals' ds' → deals'' (ds ++ ds')) :
    t.Paves s ready deals'' v := by
  obtain ⟨items, hcode, hpassage⟩ := h.code
  obtain ⟨items', hcode', hpassage'⟩ := h'.code
  refine ⟨h.toIdle.trans h'.toIdle, h'.placed, Nat.le_trans h.labels h'.labels, items ++ items', ?_,
    hpassage.append (hpassage'.mono h.labels (fun _ h => h) fun _ h => h) hdeals⟩
  rw [hcode', hcode, appendList_append]

end Lowering.Paves

namespace Lower.Paves

variable [Bus β] {α : Type} {s : Surroundings} {ready : HostMachine β → Prop}
  {deals deals' : List Dealing → Prop} {x : Lower β Unit}

theorem mono (hx : Paves s ready deals x) (hdeals : ∀ ds, deals ds → deals' ds) :
    Paves s ready deals' x := by
  intro t u ht hexec
  obtain ⟨hidle, hplaced, hlabels, items, hcode, hpassage⟩ := hx ht hexec
  exact ⟨hidle, hplaced, hlabels, items, hcode,
    hpassage.mono (Nat.le_refl _) (fun _ h => h) hdeals⟩

/-- What may begin anywhere may begin where it should. -/
theorem weaken (hx : Paves s (fun _ => True) deals x) : Paves s ready deals x := by
  intro t u ht hexec
  obtain ⟨hidle, hplaced, hlabels, items, hcode, hpassage⟩ := hx ht hexec
  exact ⟨hidle, hplaced, hlabels, items, hcode,
    hpassage.mono (Nat.le_refl _) (fun _ _ => trivial) fun _ h => h⟩

theorem quiet {post : Unit → Prop} (hx : Quiet x post) : Paves s (fun _ => True) (· = []) x :=
  fun _ _ ht hexec => .of_quiet (hx ht hexec).2

/-- Quiet steps first. -/
theorem of_quiet {x : Lower β α} {post : α → Prop} {f : α → Lower β Unit} (hx : Quiet x post)
    (hf : ∀ r, post r → Paves s (fun _ => True) deals (f r)) :
    Paves s (fun _ => True) deals (x >>= f) := by
  intro t v ht hexec
  rw [exec_bind] at hexec
  rcases hfirst : x.exec s t with ⟨_ | r, u⟩ <;> rw [hfirst] at hexec
  · cases hexec
  · obtain ⟨hr, hu⟩ := hx ht hfirst
    refine (Lowering.Paves.of_quiet hu).trans (hf r hr hu.placed hexec) ?_
    rintro _ ds' rfl hds'
    exact hds'

/-- Quiet steps last. -/
theorem then_quiet {f : Unit → Lower β Unit} (hx : Paves s ready deals x)
    (hf : ∀ r, Quiet (f r) fun _ => True) : Paves s ready deals (x >>= f) := by
  intro t v ht hexec
  rw [exec_bind] at hexec
  rcases hfirst : x.exec s t with ⟨_ | r, u⟩ <;> rw [hfirst] at hexec
  · cases hexec
  · have hu := hx ht hfirst
    refine hu.trans (.of_quiet (hf r hu.placed hexec).2) ?_
    rintro ds _ hds rfl
    rwa [List.append_nil]

theorem ite {c : Prop} [Decidable c] {y : Lower β Unit} (hx : c → Paves s ready deals x)
    (hy : ¬ c → Paves s ready deals y) : Paves s ready deals (if c then x else y) := by
  split
  · next h => exact hx h
  · next h => exact hy h

theorem read_bind {k : Surroundings → Lower β Unit} (h : Paves s ready deals (k s)) :
    Paves s ready deals (read >>= k) :=
  fun _ _ ht hexec => h ht hexec

theorem throw (e : Failure) : Paves s ready deals (MonadExcept.throw e : Lower β Unit) := by
  intro t u ht hexec
  cases hexec

/-- Instructions that may break a contract. -/
theorem emitChecked {y : Except Breach (List HostInstruction)}
    (h : ∀ is low, y = .ok is → Passage s.regions low ready deals (is.map .instruction)) :
    Paves s ready deals (Lower.emitChecked y) := by
  intro t u ht hexec
  obtain ⟨is, hy, rfl⟩ := exec_emitChecked_eq_ok hexec
  exact .of_passage ht (h is t.labels hy)

theorem interpretCall (i : Instruction) (pc : UInt32) :
    Paves s (fun _ => True) (· = [.call Helper.interpret.address])
      (Lower.interpretCall i pc : Lower β Unit) := by
  refine ite (fun _ => ?_) fun _ => ?_
  · refine of_quiet .flushAll fun _ _ => of_quiet
      (.emit (Sequence.tame_storeStateImmediate (by decide) _)) fun _ _ =>
        emitChecked fun is low hcall => .call hcall ?_
    simp [Argument.Valid]
  · exact of_quiet .currentPc fun _ _ => of_quiet (.report rfl) fun _ _ => throw _

end Lower.Paves

end Recompiler
