import Recompiler.Proofs.Block.MemoryAccess
import Recompiler.Proofs.Block.Passage

/-!
# Memory accesses that stay in their regions

Whatever the guest registers hold, the code of a load or store deals with guest memory once: by one
access of its own width that lies whole in a region, or by a call of its helper.

* `Dealing.Fits`, `MemoryOp.DealsOnce`: the dealings that may become of an access.
* `Guarded.direct`, `Passage.slow`: one access.
* `Guarded.guardedItems`: trying one region.
* `Paves.guardedAccess`, `Paves.maskedAccess`, `Paves.constantAccess`: the kinds of accesses.
* `Paves.memoryAccess`: every load and store.
-/

namespace Recompiler

open HostMachine

variable {β : Type}

/-! ## One access -/

/-- The dealing is what may become of an access: it lies whole in a region, or the bus is asked. -/
def Dealing.Fits (regions : List FastRegion) (op : MemoryOp) : Dealing → Prop
  | direct op' pointer => op' = op ∧ ∃ r ∈ regions, r.Spans pointer op.size
  | call function => function = op.helper.address

/-- There is one dealing, and it is what may become of the access. -/
def MemoryOp.DealsOnce (regions : List FastRegion) (op : MemoryOp) (ds : List Dealing) : Prop :=
  ∃ d, ds = [d] ∧ d.Fits regions op

/-- The fast address is not relative to the guest state. -/
def FastAddress.Outside : FastAddress → Prop
  | based base _ => base ≠ .context
  | _ => True

theorem FastAddress.Outside.base_ne {fast : FastAddress} {a : HostAddress} (h : fast.Outside)
    (hresolve : fast.resolve = .ok a) : a.base ≠ .context := by
  have hmain : HostRegister.memoryBase ≠ .context := by decide
  cases fast with
  | indexed index =>
    cases hresolve
    exact hmain
  | fixed offset =>
    rw [FastAddress.resolve] at hresolve
    split at hresolve <;> cases hresolve
    exact hmain
  | based base index =>
    cases hresolve
    exact h

namespace MemoryOp

variable (op : MemoryOp) {value : HostRegister} {a : HostAddress} {m : HostMachine β}

theorem valid_instruction (hvalue : value.Valid) (ha : a.Valid) : (op.instruction value a).Valid := by
  cases op with
  | load kind => exact ⟨hvalue, ha⟩
  | store width => exact ⟨ha, hvalue⟩

theorem mem_sizes : op.size ∈ [1, 2, 4] := by
  rcases op with ⟨_ | _ | _ | _ | _⟩ | ⟨_ | _ | _⟩ <;> decide

theorem isStraight_instruction : (op.instruction value a).isStraight = true := by
  cases op <;> rfl

theorem written_instruction (a : HostAddress) (hvalue : value.Spare) :
    ∀ r ∈ (op.instruction value a).written, r.Spare := by
  cases op with
  | load kind => simpa [instruction, HostInstruction.written] using hvalue
  | store width => simp [instruction, HostInstruction.written]

theorem contained_instruction {regions : List FastRegion} (hbase : a.base ≠ .context)
    (hspans : ∃ r ∈ regions, r.Spans (m.address a) op.size) :
    (op.instruction value a).Contained regions m := by
  cases op <;> exact (if_neg hbase).mpr hspans

theorem dealing?_instruction (hbase : a.base ≠ .context) :
    (op.instruction value a).dealing? m = some (.direct op (m.address a)) := by
  cases op <;> exact if_neg hbase

theorem touchesBudget_instruction (hbase : a.base ≠ .context) :
    (op.instruction value a).touchesBudget = false := by
  cases op with
  | load kind => rfl
  | store width => simp [instruction, HostInstruction.touchesBudget, HostAddress.mayBeBudget, hbase]

/-- A direct access is one instruction, which does not touch the guest state. -/
theorem touchesBudget_direct {fast : FastAddress} (hfast : fast.Outside)
    {is : List HostInstruction} (h : op.direct value fast = .ok is) :
    ∀ i ∈ is, i.touchesBudget = false := by
  cases hresolve : fast.resolve with
  | error b =>
    cases op <;> simp only [direct, Sequence.loadHost, Sequence.storeHost, hresolve] at h <;> cases h
  | ok a =>
    rw [op.direct_eq value hresolve] at h
    cases h
    simpa using op.touchesBudget_instruction (hfast.base_ne hresolve)

end MemoryOp

namespace Guarded

variable [Bus β] {regions : List FastRegion} {post : Outlook β} {m : HostMachine β}
  {ds : List Dealing} {value : HostRegister} {is : List HostInstruction}

/-- A direct access to a place in a region. -/
theorem direct (op : MemoryOp) (hvalue : value.Spare) {fast : FastAddress} {r : FastRegion}
    {offset : UInt32} (hdirect : op.direct value fast = .ok is) (houtside : fast.Outside)
    (haims : fast.Aims m (r.pointer + offset.toUInt64)) (hr : r ∈ regions)
    (hoffset : offset.toNat + op.size ≤ r.length.toNat) (hm : m.Roles regions)
    (hpost : ∀ n d, n.Roles regions → d.Fits regions op → post none n (ds ++ [d])) :
    Guarded regions post (is.map .instruction) none m ds := by
  obtain ⟨a, hresolve, ha, haddress⟩ := haims.resolves
  have hbase := houtside.base_ne hresolve
  have hspans : ∃ r ∈ regions, r.Spans (m.address a) op.size :=
    ⟨r, hr, offset, haddress, hoffset⟩
  have hvalid := op.valid_instruction hvalue.valid ha
  have hwritten := op.written_instruction a hvalue
  rw [op.direct_eq value hresolve] at hdirect
  cases hdirect
  refine instruction hvalid op.isStraight_instruction hwritten
    (op.contained_instruction hbase hspans) fun n hexecute => ?_
  rw [op.dealing?_instruction hbase]
  exact hpost n _ (hm.executeStraight hvalid hwritten hexecute) ⟨rfl, hspans⟩

end Guarded

/-- Asking the bus. -/
theorem Passage.slow [Bus β] {regions : List FastRegion} {low : Nat} (op : MemoryOp)
    {value : HostRegister} (hvalue : value.Spare) {is : List HostInstruction}
    (hslow : op.slow value = .ok is) :
    Passage (β := β) regions low (fun _ => True) (op.DealsOnce regions) (is.map .instruction) := by
  have hfits : (Dealing.call op.helper.address).Fits regions op := rfl
  have hscratch : HostRegister.scratch.Valid := by decide
  cases op with
  | load kind =>
    rw [MemoryOp.slow] at hslow
    cases hcall : Sequence.call (MemoryOp.load kind).helper.address
        [.context, .register .scratch] with
    | error b =>
      rw [hcall] at hslow
      cases hslow
    | ok js =>
      rw [hcall] at hslow
      cases hslow
      rw [List.map_append]
      refine (call hcall (by simpa [Argument.Valid] using hscratch)).append
        (tame (Sequence.tame_move hvalue hscratch)) ?_
      rintro _ _ rfl rfl
      exact ⟨_, rfl, hfits⟩
  | store width =>
    refine (call hslow (by simpa [Argument.Valid] using ⟨hscratch, hvalue.valid⟩)).mono
      (Nat.le_refl _) (fun _ h => h) ?_
    rintro _ rfl
    exact ⟨_, rfl, hfits⟩

namespace Guarded

variable [Bus β] {regions : List FastRegion} {post : Outlook β} {m : HostMachine β}
  {ds : List Dealing} {value : HostRegister}

/-! ## One region -/

theorem tame_rebase (op : AluOp) (start : UInt32) :
    Sequence.Tame (if start ≠ 0 then Sequence.alu op .scratch .scratch (.immediate start) else []) := by
  split
  · exact Sequence.tame_alu op (by decide) (by decide) trivial
  · exact Sequence.tame_nil

theorem tame_aimRegion (n : Nat) (region : FastRegion) :
    Sequence.Tame (if n = 0 then [] else Sequence.movePointer .pointer region.pointer) := by
  split
  · exact Sequence.tame_nil
  · exact Sequence.tame_movePointer (by decide) _

theorem outside_regionAddress (n : Nat) : (Lower.regionAddress n).Outside := by
  rw [Lower.regionAddress]
  split
  · trivial
  · exact (by decide : HostRegister.pointer ≠ .context)

/-- Trying one region. The address in the scratch register is left as it was if it misses, and if it
hits, the access stays in the region. -/
theorem guardedItems (op : MemoryOp) (hvalue : value.Spare) {n done miss : Nat}
    {region : FastRegion} {addr : UInt32} (hregion : regions[n]? = some region)
    (hne : done ≠ miss) (hsize : op.size ≤ region.length.toNat)
    (haddr : m.get .scratch = addr.toUInt64) (hm : m.Roles regions)
    (hmiss : ∀ p, p.Roles regions → p.get .scratch = addr.toUInt64 → post none p ds)
    (hhit : ∀ p d, p.Roles regions → d.Fits regions op → post (some done) p (ds ++ [d])) :
    Guarded regions post (Lower.guardedItems op value n region done miss) none m ds := by
  have hcheck : Sequence.Tame (Lower.checkRegion op region) :=
    (tame_rebase .sub region.start).append (Sequence.tame_compare (by decide) trivial)
  obtain ⟨m₁, hruns, hflags, hscratch, -⟩ := Lower.runs_checkRegion op region haddr
  refine append (runs hcheck hm hruns fun hm₁ => append (jumpIf ?_))
  by_cases htaken : m₁.flags.holds .above = true
  -- The region is missed: control goes on behind the access, where the region start is added again.
  · rw [if_pos htaken]
    obtain ⟨p, hrestore, hback, -⟩ := Sequence.runs_rebase (.inr rfl) hscratch region.start
    refine append (search (by simp) (append (search (by simp) (append (bind ?_)))))
    rw [if_pos rfl]
    refine runs (tame_rebase .add region.start) hm₁ hrestore fun hp => hmiss p hp ?_
    exact hback.trans (congrArg UInt32.toUInt64 (UInt32.sub_add_cancel _ _))
  -- The region is hit: the offset lies far enough before the end, since the comparison says so.
  · rw [if_neg htaken]
    have hoffset : (addr - region.start).toNat + op.size ≤ region.length.toNat := by
      have hle : ¬ region.length - op.size.toUInt32 < addr - region.start := by
        simpa [hflags] using htaken
      rw [UInt32.lt_iff_toNat_lt] at hle
      have hlast := UInt32.toNat_sub region.length op.size.toUInt32
      have hsize32 : op.size.toUInt32.toNat = op.size :=
        UInt32.toNat_ofNat_of_lt' (Nat.lt_of_le_of_lt op.size_le (by decide))
      have hlength := region.length.toNat_lt
      omega
    obtain ⟨m₂, haim, haims, -⟩ := Lower.runs_aimRegion (fun hn => hm₁.main region (hn ▸ hregion))
      hscratch
    have hreach : Guarded regions (Guarded regions post ([.jump done] ++ ([.bind miss] ++
        (Lower.restoreAddress region).map .instruction)))
        ((Lower.reachRegion op value n region).map .instruction) none m₁ ds := by
      rw [Lower.reachRegion, List.map_append]
      refine append (runs (tame_aimRegion n region) hm₁ haim fun hm₂ => ?_)
      refine direct op hvalue (op.direct_eq value (Lower.resolve_regionAddress n))
        (outside_regionAddress n) haims (List.mem_of_getElem? hregion) hoffset hm₂ fun p d hp hd => ?_
      refine append (jump (append (search ?_ (search (by simp) (hhit p d hp hd)))))
      simpa [bindLabels_bind] using hne
    exact append hreach

end Guarded

/-! ## Lowering steps -/

namespace Lower

/-- The scratch register holds a word. -/
def Addressed (m : HostMachine β) : Prop :=
  ∃ addr : UInt32, m.get .scratch = addr.toUInt64

theorem isMild_guardedItems (op : MemoryOp) (value : HostRegister) (n : Nat) (region : FastRegion)
    (done miss : Nat) : ∀ item ∈ guardedItems op value n region done miss, item.isMild = true := by
  have hcheck : Sequence.Tame (checkRegion op region) :=
    (Guarded.tame_rebase .sub region.start).append (Sequence.tame_compare (by decide) trivial)
  have haim := Guarded.tame_aimRegion n region
  have hreach := op.touchesBudget_direct (Guarded.outside_regionAddress n)
    (op.direct_eq value (resolve_regionAddress n))
  have hrestore : Sequence.Tame (restoreAddress region) := Guarded.tame_rebase .add region.start
  simp only [guardedItems, reachRegion, List.map_append, List.forall_mem_append]
  refine ⟨Item.isMild_instructions fun i hi => (hcheck i hi).budget, by simp [Item.isMild],
    ⟨Item.isMild_instructions fun i hi => (haim i hi).budget, Item.isMild_instructions hreach⟩,
    by simp [Item.isMild], by simp [Item.isMild],
    Item.isMild_instructions fun i hi => (hrestore i hi).budget⟩

section RegionCode

variable {op : MemoryOp} {value : HostRegister} {tried : List (FastRegion × Nat)} {first next : Nat}
  {hits : List Nat} {items : List Item}

theorem RegionCode.isMild (h : RegionCode op value tried first hits items next) :
    ∀ item ∈ items, item.isMild = true := by
  induction h with
  | nil => simp
  | small _ _ _ ih => exact ih
  | fits n _ _ ih => exact List.forall_mem_append.2 ⟨isMild_guardedItems op value n _ _ _, ih⟩

/-- Trying regions by their numbers accesses at most one of them. -/
theorem RegionCode.guarded [Bus β] {regions : List FastRegion} (hvalue : value.Spare)
    (h : RegionCode op value tried first hits items next)
    (hregions : ∀ r ∈ tried, regions[r.2]? = some r.1) {m : HostMachine β} (hm : m.Roles regions)
    (haddressed : Addressed m) (ds : List Dealing) :
    Guarded regions (fun label? n ds' => n.Roles regions ∧
      (label? = none ∧ ds' = ds ∨ ∃ done ∈ hits, label? = some done ∧
        ∃ d, ds' = ds ++ [d] ∧ d.Fits regions op)) items none m ds := by
  induction h generalizing m with
  | nil => exact ⟨hm, .inl ⟨rfl, rfl⟩⟩
  | small _ _ _ ih => exact ih (fun r hr => hregions r (List.mem_cons_of_mem _ hr)) hm haddressed
  | @fits region n regions first hits items next hsize h ih =>
    obtain ⟨addr, haddr⟩ := haddressed
    -- Where the check fails, the address is still there for the next region.
    refine .append (.guardedItems op hvalue (hregions (region, n) List.mem_cons_self)
      (Nat.ne_of_lt (Nat.lt_succ_self _)) hsize haddr hm (fun p hp hback => ?_)
      fun p d hp hd => .search h.not_mem_bindLabels ?_)
    · refine (ih (fun r hr => hregions r (List.mem_cons_of_mem _ hr)) hp ⟨addr, hback⟩).mono
        fun label? n ds' hpost => ⟨hpost.1, hpost.2.imp_right fun hhit => ?_⟩
      obtain ⟨done, hdone, hrest⟩ := hhit
      exact ⟨done, List.mem_cons_of_mem _ hdone, hrest⟩
    · exact ⟨hp, .inr ⟨first, List.mem_cons_self, rfl, d, rfl, hd⟩⟩

end RegionCode

namespace Paves

variable [Bus β] {α : Type} {s : Surroundings} {op : MemoryOp} {t u : Lowering β}

/-! ### Guarded accesses -/

/-- Asking the bus. -/
theorem slow {value : HostRegister} (hvalue : value.Spare) :
    Paves (β := β) s (fun _ => True) (op.DealsOnce s.regions)
      (Lower.emitChecked (op.slow value)) :=
  emitChecked fun _ _ hslow => .slow op hvalue hslow

/-- Behind an access control goes on past the labels of all regions. -/
theorem guarded_hits {regions : List FastRegion} {post : Outlook β} {m : HostMachine β}
    {ds : List Dealing} (hits : List Nat) {label? : Option Nat}
    (hlabel : ∀ label, label? = some label → label ∈ hits) (hpost : post none m ds) :
    Guarded regions post (hits.map .bind) label? m ds := by
  induction hits generalizing label? with
  | nil =>
    cases label? with
    | none => exact hpost
    | some label => cases hlabel label rfl
  | cons hit hits ih =>
    refine .cons (.bind (ih fun label heq => ?_))
    split at heq
    · cases heq
    · next hne =>
      refine (List.mem_cons.1 (hlabel label heq)).resolve_left fun hhit => hne ?_
      rw [heq, hhit]

theorem guardedAccess {value : HostRegister} (hvalue : value.Spare) :
    Paves s Addressed (op.DealsOnce s.regions)
      (Lower.guardedAccess op value s.regions : Lower β Unit) := by
  intro t u ht hexec
  obtain ⟨hits, items, labels, hitems, hregions⟩ :=
    exec_guardedRegions op value s.regions.zipIdx s t
  have htried (m : HostMachine β) (ds : List Dealing) (hm : m.Roles s.regions)
      (haddressed : Addressed m) :=
    hitems.guarded hvalue (fun r hr => List.mem_zipIdx_iff_getElem?.1 hr) hm haddressed ds
  rw [Lower.guardedAccess, exec_bind_of_ok hregions, exec_bind] at hexec
  rcases hasked : exec (Lower.emitChecked (op.slow value)) s
      { t with code := t.code ++ items, labels := labels } with ⟨_ | _, v⟩ <;>
    rw [hasked] at hexec
  · cases hexec
  obtain ⟨is, hslow, rfl⟩ := exec_emitChecked_eq_ok hasked
  obtain rfl := (Prod.mk.inj hexec).2
  have hbus : Passage (β := β) s.regions t.labels (fun _ => True) (op.DealsOnce s.regions)
      (is.map .instruction) := .slow op hvalue hslow
  refine ⟨⟨rfl, rfl, rfl, rfl, rfl⟩, ht, hitems.le_next,
    items ++ (is.map .instruction ++ hits.map .bind), ?_,
    ⟨?_, ?_, ?_, fun m ds hm haddressed => .append ((htried m ds hm haddressed).mono ?_)⟩⟩
  · rw [appendList_append, appendList_append]
  · refine hitems.closed ((Closed.instructions is).append (.of_no_jumps ?_)) ?_
    · simp [Item.jumpLabel?]
    · simp [bindLabels_append, bindLabels_hits]
  · refine List.forall_mem_append.2 ⟨hitems.isMild, List.forall_mem_append.2 ⟨hbus.mild, ?_⟩⟩
    simp [Item.isMild]
  · simpa [bindLabels_append, bindLabels_hits] using hitems.le_of_mem
  -- After the regions: none was hit and the bus is called, or one was and its label is searched.
  · rintro label? n ds' ⟨hn, ⟨rfl, rfl⟩ | ⟨done, hdone, rfl, d, rfl, hd⟩⟩
    · refine .append ((hbus.guarded n ds' hn trivial).mono ?_)
      rintro _ p ds' ⟨rfl, hp, hdealt⟩
      refine guarded_hits hits (fun _ hlabel => ?_) ⟨rfl, hp, hdealt⟩
      cases hlabel
    · refine .append (.search (by simp) (guarded_hits hits ?_ ⟨rfl, hn, [d], rfl, d, rfl, hd⟩))
      rintro _ ⟨⟩
      exact hdone

/-! ### Direct accesses -/

/-- Instructions that prepare an address, and then a direct access there. -/
theorem direct {value : HostRegister} (hvalue : value.Spare) {fast : FastAddress}
    (hfast : fast.Outside) {is : List HostInstruction} (his : Sequence.Tame is) {r : FastRegion}
    (hr : r ∈ s.regions)
    (hruns : ∀ m : HostMachine β, m.Roles s.regions → ∃ (n : HostMachine β) (offset : UInt32),
      HostMachine.Runs is m n ∧ (n.Roles s.regions → fast.Aims n (r.pointer + offset.toUInt64)) ∧
      offset.toNat + op.size ≤ r.length.toNat) :
    Paves s (fun _ => True) (op.DealsOnce s.regions)
      (emit is >>= fun _ => Lower.emitChecked (op.direct value fast) : Lower β Unit) := by
  intro t u ht hexec
  rw [exec_bind_of_ok (exec_emit ..)] at hexec
  obtain ⟨js, hdirect, rfl⟩ := exec_emitChecked_eq_ok hexec
  dsimp only
  rw [← appendList_append, ← List.map_append]
  refine .of_passage ht (.instructions ?_ fun m ds post hm _ hpost => ?_)
  · exact List.forall_mem_append.2
      ⟨fun i hi => (his i hi).budget, op.touchesBudget_direct hfast hdirect⟩
  · obtain ⟨n, offset, hruns, haims, hoffset⟩ := hruns m hm
    rw [List.map_append]
    refine .append (.runs his hm hruns fun hn => ?_)
    exact .direct op hvalue hdirect hfast (haims hn) hr hoffset hn fun p d hp hd =>
      hpost p [d] hp ⟨d, rfl, hd⟩

/-! ### Masked accesses -/

/-- A masked address that is aligned as well leaves room for the access. -/
theorem toNat_masked_add_size (op : MemoryOp) {length : UInt32} (hpower : isPowerOfTwo length = true)
    (hsize : op.size ≤ length.toNat) (w : UInt32) :
    (w &&& ((length - 1) &&& ~~~(op.size.toUInt32 - 1))).toNat + op.size ≤ length.toNat := by
  have hle : (w &&& ((length - 1) &&& ~~~(op.size.toUInt32 - 1))).toNat ≤
      ((length - 1) &&& ~~~(op.size.toUInt32 - 1)).toNat := by
    rw [UInt32.toNat_and w]
    exact Nat.and_le_right
  have hmask : ((length - 1) &&& ~~~(op.size.toUInt32 - 1)).toNat + op.size = length.toNat := by
    obtain ⟨k, rfl⟩ := exists_of_isPowerOfTwo hpower
    have hall : ∀ k : Fin 32, ∀ size ∈ [1, 2, 4], size ≤ (1 <<< k.val.toUInt32 : UInt32).toNat →
        (((1 <<< k.val.toUInt32 : UInt32) - 1) &&& ~~~(size.toUInt32 - 1)).toNat + size =
          (1 <<< k.val.toUInt32 : UInt32).toNat := by
      decide
    exact hall k op.size op.mem_sizes hsize
  omega

theorem runs_mask (m : HostMachine β) (mask : UInt32) :
    ∃ n, Runs (Sequence.alu .and .scratch .scratch (.immediate mask)) m n ∧
      n.get .scratch = (m.getWord .scratch &&& mask).toUInt64 ∧ m.Keeps [.scratch] n := by
  refine ⟨_, Sequence.runs_group (by decide) (show (Source.immediate mask).Valid from trivial)
    (by decide) m, ?_, (Keeps.setFlags m _).trans (.setWord (by decide) (by decide) _ _)⟩
  rw [get_setWord_self]
  rfl

theorem maskedAccess {value : HostRegister} (hvalue : value.Spare) {main : FastRegion}
    (hmain : s.regions[0]? = some main) (hpower : isPowerOfTwo main.length = true) :
    Paves s (fun _ => True) (op.DealsOnce s.regions)
      (Lower.maskedAccess op value main : Lower β Unit) := by
  refine .ite (fun _ => slow hvalue) fun hsize => ?_
  have hfits := toNat_masked_add_size op hpower (Nat.le_of_not_lt hsize)
  have hmask (mask : UInt32) :
      Sequence.Tame (Sequence.alu .and .scratch .scratch (.immediate mask)) :=
    Sequence.tame_alu .and (by decide) (by decide) trivial
  have hindexed : FastAddress.Outside (.indexed .scratch) := trivial
  have hmasked := direct (β := β) hvalue hindexed (hmask _) (List.mem_of_getElem? hmain) fun m _ => by
      obtain ⟨n, hruns, hscratch, -⟩ := runs_mask m _
      exact ⟨n, _, hruns, fun hn => FastAddress.aims_indexed (hn.main main hmain) hscratch,
        hfits (m.getWord .scratch)⟩
  exact ite (fun _ => of_quiet (.emit (Sequence.tame_alu .sub (by decide) (by decide) trivial))
    fun _ _ => hmasked) fun _ => hmasked

/-! ### Addresses in registers -/

/-- An access to the address in the scratch register. -/
theorem dynamicAccess (haccepted : s.options.Accepted s.regions) {value : HostRegister}
    (hvalue : value.Spare) :
    Paves s Addressed (op.DealsOnce s.regions)
      (Lower.dynamicAccess op value : Lower β Unit) := by
  refine read_bind ?_
  split
  · exact (slow hvalue).weaken
  · next main rest hregions =>
    refine ite (fun hfast => ?_) fun _ => guardedAccess hvalue
    obtain ⟨main', rest', hregions', hpower⟩ := haccepted.main hfast
    cases hregions.symm.trans hregions'
    exact (maskedAccess hvalue (by rw [hregions]; rfl) hpower).weaken

/-- An access to the sum of a register and a constant. -/
theorem addressedAccess (haccepted : s.options.Accepted s.regions) {value base : HostRegister}
    (hvalue : value.Spare) (hbase : base.Valid) (offset : UInt32) :
    Paves s (fun _ => True) (op.DealsOnce s.regions)
      (emit (Sequence.loadAddress .scratch base offset) >>= fun _ =>
        Lower.dynamicAccess op value : Lower β Unit) := by
  intro t u ht hexec
  rw [exec_bind_of_ok (exec_emit ..)] at hexec
  obtain ⟨hidle, hplaced, hlabels, items, hcode, hpassage⟩ :=
    dynamicAccess haccepted hvalue (by exact ht) hexec
  have hscratch : HostRegister.scratch.Spare := by decide
  have htame := Sequence.tame_loadAddress hscratch hbase offset
  have haddress : Passage (β := β) s.regions t.labels (fun _ => True) (· = [])
      ((Sequence.loadAddress .scratch base offset).map .instruction) := .tame htame
  refine ⟨⟨hidle.lowered, hidle.cycles, hidle.cancelled, hidle.isOpen, hidle.pc⟩, hplaced, hlabels,
    (Sequence.loadAddress .scratch base offset).map .instruction ++ items, ?_,
    ⟨haddress.closed.append hpassage.closed,
      List.forall_mem_append.2 ⟨haddress.mild, hpassage.mild⟩, ?_, fun m ds hm _ => ?_⟩⟩
  · rw [hcode, appendList_append]
  · simpa [bindLabels_append] using hpassage.labels
  · refine .append (.runs htame hm (Sequence.runs_loadAddress hscratch.valid hbase offset m)
      fun hn => ?_)
    exact hpassage.guarded _ ds hn ⟨_, get_setWord_self m _ _⟩

/-! ### Constant addresses -/

theorem tame_placeInstructions (n : Nat) (region : FastRegion) (offset : UInt32) :
    Sequence.Tame (placeInstructions n region offset) := by
  rw [placeInstructions]
  split
  · exact Sequence.tame_nil
  · refine (Sequence.tame_moveImmediate (by decide) offset).append ?_
    exact Guarded.tame_aimRegion n region

theorem outside_placeAddress (n : Nat) (offset : UInt32) : (placeAddress n offset).Outside := by
  rw [placeAddress]
  split
  · split <;> trivial
  · exact (by decide : HostRegister.pointer ≠ .context)

/-- A direct access to a known place in a region. -/
theorem placedAccess {addr : UInt32} {n : Nat} {region : FastRegion} {offset : UInt32}
    (hfind : findRegion s.regions addr op.size = some (n, region, offset)) {value : HostRegister}
    (hvalue : value.Spare) :
    Paves s (fun _ => True) (op.DealsOnce s.regions)
      (constantAddress n region offset >>= fun fast =>
        Lower.emitChecked (op.direct value fast) : Lower β Unit) := by
  obtain ⟨hregion, hoffset⟩ := findRegion_eq_some hfind
  have hfits : offset.toNat + op.size ≤ region.length.toNat := by
    rw [FastRegion.offset?] at hoffset
    split at hoffset
    · next hholds =>
      cases hoffset
      exact hholds.2
    · cases hoffset
  have hdirect := direct (β := β) hvalue (outside_placeAddress n offset)
    (tame_placeInstructions n region offset) (List.mem_of_getElem? hregion) fun m hm => by
      obtain ⟨p, hruns, haims, -⟩ := runs_placeInstructions (m := m) (n := n)
        (fun hn => hm.main region (hn ▸ hregion)) offset
      exact ⟨p, offset, hruns, fun _ => haims, hfits⟩
  intro t u ht hexec
  rw [exec_bind_of_ok (exec_constantAddress ..)] at hexec
  refine hdirect ht ?_
  rw [exec_bind_of_ok (exec_emit ..)]
  exact hexec

theorem constantAccess (rt : GuestIndex) (addr : UInt32) :
    Paves s (fun _ => True) (op.DealsOnce s.regions)
      (Lower.constantAccess op rt addr : Lower β Unit) := by
  refine read_bind ?_
  have hscratch : HostRegister.scratch.Spare := by decide
  cases hfind : findRegion s.regions addr op.size with
  | some place =>
    obtain ⟨n, region, offset⟩ := place
    cases op with
    | load kind => exact of_quiet (.map rt .write) fun dst hdst => placedAccess hfind hdst
    | store width => exact of_quiet (.map rt .read) fun src hsrc => placedAccess hfind hsrc
  | none =>
    cases op with
    | load kind =>
      refine of_quiet (.emit (Sequence.tame_moveImmediate hscratch addr)) fun _ _ => ?_
      refine then_quiet (emitChecked fun is low hcall => ?_) fun _ =>
        (Quiet.map rt .write).bind fun dst hdst => .emit (Sequence.tame_move hdst hscratch.valid)
      refine (Passage.call hcall (by simpa [Argument.Valid] using hscratch.valid)).mono
        (Nat.le_refl _) (fun _ h => h) ?_
      rintro _ rfl
      exact ⟨_, rfl, rfl⟩
    | store width =>
      exact of_quiet (.map rt .read) fun src hsrc =>
        of_quiet (.emit (Sequence.tame_moveImmediate hscratch addr)) fun _ _ => slow hsrc

/-! ### Loads and stores -/

theorem memoryAccess (haccepted : s.options.Accepted s.regions) {i : Instruction} {rt : UInt32}
    (hrt : i.rt = .ok rt)
    (hne : ∀ kind, op = .load kind → guestOperand rt ≠ zeroRegister) :
    Paves s (fun _ => True) (op.DealsOnce s.regions)
      (Lower.memoryAccess i op : Lower β Unit) := by
  have hoperand : Quiet (registerOperand i.rt : Lower β GuestIndex) (· = guestOperand rt) := by
    rw [hrt]
    exact .pure rfl
  refine of_quiet hoperand fun _ heq => of_quiet (.registerOperand _) fun base _ =>
    of_quiet (.checked _) fun offset _ => ?_
  subst heq
  -- A known base makes the address a constant. Otherwise it is formed in the scratch register.
  cases op with
  | load kind =>
    dsimp only
    rw [if_neg (hne kind rfl)]
    refine of_quiet (.immediate? base) fun addr? _ => ?_
    cases addr? with
    | some addr => exact constantAccess _ _
    | none =>
      exact of_quiet (.lock base) fun _ _ => of_quiet (.lock _) fun _ _ =>
        of_quiet (.map base .read) fun _ hbase => of_quiet (.map _ .write) fun _ hdst =>
          addressedAccess haccepted hdst hbase.valid offset
  | store width =>
    refine of_quiet (.immediate? base) fun addr? _ => ?_
    cases addr? with
    | some addr => exact constantAccess _ _
    | none =>
      exact of_quiet (.allocating (RegisterCache.tidy_mapSources base _)) fun _ hr =>
        addressedAccess haccepted hr.2 hr.1.valid offset

end Paves

/-- A load of register zero does nothing at all. -/
theorem quiet_memoryAccess {i : Instruction} {rt : UInt32} {kind : LoadKind} (hrt : i.rt = .ok rt)
    (hzero : guestOperand rt = zeroRegister) :
    Quiet (memoryAccess i (.load kind) : Lower β Unit) fun _ => True := by
  have hoperand : Quiet (registerOperand i.rt : Lower β GuestIndex) (· = guestOperand rt) := by
    rw [hrt]
    exact .pure rfl
  refine hoperand.bind fun _ heq => (Quiet.registerOperand _).seq fun base =>
    (Quiet.checked _).seq fun offset => ?_
  subst heq
  dsimp only
  rw [if_pos hzero]
  exact .pure trivial

end Lower

end Recompiler
