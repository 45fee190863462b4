import Recompiler.Proofs.Block.Access
import Recompiler.Proofs.Block.Carrying

/-!
# Guarded accesses

The code that tries one region after the other and asks the bus if the address misses all of them.

* `Lower.guardedItems`, `Lower.exec_guardedRegion`: the code for one region.
* `Lower.passes_hit`, `Lower.passes_miss`: the two ways through it.
* `Lower.RegionCode`: the code for all regions, by induction on them.
* `Lower.guardedAccess_spec`: the access as a whole attains what the helper and direct accesses do.
-/

namespace Recompiler

open HostMachine

variable {β : Type}

/-- The direct access to a host address. -/
def MemoryOp.instruction (op : MemoryOp) (value : HostRegister) (a : HostAddress) :
    HostInstruction :=
  match op with
  | load kind => .load kind value a
  | store width => .store width a value

theorem MemoryOp.direct_eq (op : MemoryOp) (value : HostRegister) {fast : FastAddress}
    {a : HostAddress} (h : fast.resolve = .ok a) :
    op.direct value fast = .ok [op.instruction value a] := by
  cases op with
  | load kind =>
    change (fast.resolve >>= fun a => pure [HostInstruction.load kind value a]) = _
    rw [h]
    rfl
  | store width =>
    change (fast.resolve >>= fun a => pure [HostInstruction.store width a value]) = _
    rw [h]
    rfl

/-- Asking the bus takes no more arguments than a call can pass. -/
theorem MemoryOp.exists_slow (op : MemoryOp) (value : HostRegister) :
    ∃ is, op.slow value = .ok is := by
  cases op <;> exact ⟨_, rfl⟩

namespace Lower

/-- The fast address of an access to region number `n`. -/
def regionAddress (n : Nat) : FastAddress :=
  if n = 0 then .indexed .scratch else .based .pointer .scratch

/-- The host address of an access to region number `n`. -/
def regionHostAddress (n : Nat) : HostAddress :=
  ⟨if n = 0 then .memoryBase else .pointer, some .scratch, 0⟩

theorem resolve_regionAddress (n : Nat) : (regionAddress n).resolve = .ok (regionHostAddress n) := by
  rw [regionAddress, regionHostAddress]
  split <;> rfl

/-- The instructions up to the check of a region. -/
def checkRegion (op : MemoryOp) (region : FastRegion) : List HostInstruction :=
  (if region.start ≠ 0 then Sequence.alu .sub .scratch .scratch (.immediate region.start) else []) ++
    Sequence.compare .scratch (.immediate (region.length - op.size.toUInt32))

/-- The instructions of the direct access to region number `n`. -/
def reachRegion (op : MemoryOp) (value : HostRegister) (n : Nat) (region : FastRegion) :
    List HostInstruction :=
  (if n = 0 then [] else Sequence.movePointer .pointer region.pointer) ++
    [op.instruction value (regionHostAddress n)]

/-- The instructions that leave the address as it was before the check. -/
def restoreAddress (region : FastRegion) : List HostInstruction :=
  if region.start ≠ 0 then Sequence.alu .add .scratch .scratch (.immediate region.start) else []

/-- The code that tries region number `n`. -/
def guardedItems (op : MemoryOp) (value : HostRegister) (n : Nat) (region : FastRegion)
    (done miss : Nat) : List Item :=
  (checkRegion op region).map .instruction ++ ([.jumpIf .above miss] ++
    ((reachRegion op value n region).map .instruction ++ ([.jump done] ++ ([.bind miss] ++
      (restoreAddress region).map .instruction))))

theorem exec_guardedRegion (op : MemoryOp) (value : HostRegister) (n : Nat) (region : FastRegion)
    (done : Nat) (s : Surroundings) (t : Lowering β) :
    exec (guardedRegion op value n region done) s t = (.ok (),
      { t with
        code := t.code ++ guardedItems op value n region done t.labels
        labels := t.labels + 1 }) := by
  have hdirect := op.direct_eq value (resolve_regionAddress n)
  have hcode {c c' : Array Item} (h : c.toList = c'.toList) :
      ((.ok (), { t with code := c, labels := t.labels + 1 }) : Except Failure Unit × Lowering β) =
        (.ok (), { t with code := c', labels := t.labels + 1 }) := by
    rw [Array.ext' h]
  by_cases hn : n = 0
  · subst hn
    rw [regionAddress, if_pos rfl] at hdirect
    by_cases hstart : region.start = 0 <;>
      simp only [guardedRegion, exec_bind, exec_freshLabel, exec_emit, exec_append, exec_pure,
        emitChecked, hdirect, hstart, ne_eq, not_true_eq_false, not_false_eq_true, if_true,
        if_false] <;>
      exact hcode (by simp [guardedItems, checkRegion, reachRegion, restoreAddress, hstart])
  · rw [regionAddress, if_neg hn] at hdirect
    by_cases hstart : region.start = 0 <;>
      simp only [guardedRegion, exec_bind, exec_freshLabel, exec_emit, exec_append, exec_pure,
        emitChecked, hdirect, hstart, hn, ne_eq, not_true_eq_false, not_false_eq_true, if_true,
        if_false] <;>
      exact hcode (by simp [guardedItems, checkRegion, reachRegion, restoreAddress, hstart, hn])

/-- Only the jump past a region leads to a label that is not behind it. -/
theorem closed_guardedItems (op : MemoryOp) (value : HostRegister) (n : Nat) (region : FastRegion)
    (done miss : Nat) {rest : List Item} (hrest : Closed rest) (hdone : done ∈ bindLabels rest) :
    Closed (guardedItems op value n region done miss ++ rest) := by
  have hrestore := (Closed.instructions (restoreAddress region)).append hrest
  have hreach : Closed ((reachRegion op value n region).map .instruction ++
      (.jump done :: .bind miss :: ((restoreAddress region).map .instruction ++ rest))) := by
    refine (Closed.instructions _).append ⟨fun label hlabel => ?_, nofun, hrestore⟩
    cases hlabel
    simp [bindLabels_bind, bindLabels_append, hdone]
  have hcheck : Closed ((checkRegion op region).map .instruction ++
      (.jumpIf .above miss :: ((reachRegion op value n region).map .instruction ++
        (.jump done :: .bind miss :: ((restoreAddress region).map .instruction ++ rest))))) := by
    refine (Closed.instructions _).append ⟨fun label hlabel => ?_, hreach⟩
    cases hlabel
    simp [bindLabels_append, bindLabels_bind]
  simpa [guardedItems] using hcheck

/-- The code that tries regions by their numbers, with labels from `first` on. The labels of the direct
accesses are `hits`, and `next` is the first label that is left. A region that is too small for the
access is left out. -/
inductive RegionCode (op : MemoryOp) (value : HostRegister) :
    List (FastRegion × Nat) → Nat → List Nat → List Item → Nat → Prop
  | nil (first : Nat) : RegionCode op value [] first [] [] first
  | small {region : FastRegion} (n : Nat) {regions : List (FastRegion × Nat)} {first next : Nat}
    {hits : List Nat} {items : List Item} (hsize : ¬ op.size ≤ region.length.toNat)
    (h : RegionCode op value regions first hits items next) :
    RegionCode op value ((region, n) :: regions) first hits items next
  | fits {region : FastRegion} (n : Nat) {regions : List (FastRegion × Nat)} {first next : Nat}
    {hits : List Nat} {items : List Item} (hsize : op.size ≤ region.length.toNat)
    (h : RegionCode op value regions (first + 2) hits items next) :
    RegionCode op value ((region, n) :: regions) first (first :: hits)
      (guardedItems op value n region first (first + 1) ++ items) next

theorem exec_guardedRegions (op : MemoryOp) (value : HostRegister)
    (regions : List (FastRegion × Nat)) (s : Surroundings) (t : Lowering β) :
    ∃ (hits : List Nat) (items : List Item) (labels : Nat),
      RegionCode op value regions t.labels hits items labels ∧
        exec (guardedRegions op value regions) s t =
          (.ok hits, { t with code := t.code ++ items, labels := labels }) := by
  induction regions generalizing t with
  | nil =>
    refine ⟨[], [], t.labels, .nil _, ?_⟩
    rw [guardedRegions, exec_pure, Array.appendList_nil]
  | cons r regions ih =>
    obtain ⟨region, n⟩ := r
    by_cases hsize : op.size ≤ region.length.toNat
    · obtain ⟨hits, items, labels, hitems, hexec⟩ := ih { t with
        code := t.code ++ guardedItems op value n region t.labels (t.labels + 1)
        labels := t.labels + 2 }
      refine ⟨_, _, labels, .fits n hsize hitems, ?_⟩
      rw [guardedRegions, if_pos hsize, exec_bind_of_ok (exec_freshLabel ..),
        exec_bind_of_ok (exec_guardedRegion ..), exec_bind_of_ok hexec, appendList_append]
      rfl
    · obtain ⟨hits, items, labels, hitems, hexec⟩ := ih t
      refine ⟨hits, items, labels, .small n hsize hitems, ?_⟩
      rw [guardedRegions, if_neg hsize, hexec]

namespace RegionCode

variable {op : MemoryOp} {value : HostRegister} {regions : List (FastRegion × Nat)}
  {first next : Nat} {hits : List Nat} {items : List Item}

theorem le_next (h : RegionCode op value regions first hits items next) : first ≤ next := by
  induction h with
  | nil first => exact Nat.le_refl first
  | small _ _ _ ih => exact ih
  | fits _ _ _ ih => omega

/-- Labels that are bound, or that have to be bound behind the code, are new. -/
theorem le_of_mem (h : RegionCode op value regions first hits items next) :
    ∀ label ∈ bindLabels items ++ hits, first ≤ label := by
  intro label hlabel
  induction h with
  | nil first => cases hlabel
  | small _ _ _ ih => exact ih hlabel
  | @fits region n regions first hits items next _ _ ih =>
    have hbinds : bindLabels (guardedItems op value n region first (first + 1)) = [first + 1] := by
      simp [guardedItems, bindLabels_append, bindLabels_bind]
    simp only [bindLabels_append, hbinds, List.mem_append, List.mem_cons, List.not_mem_nil,
      or_false] at hlabel ih
    rcases hlabel with (rfl | hlabel) | rfl | hlabel
    · exact Nat.le_succ _
    · exact Nat.le_trans (Nat.le_add_right _ 2) (ih (.inl hlabel))
    · exact Nat.le_refl _
    · exact Nat.le_trans (Nat.le_add_right _ 2) (ih (.inr hlabel))

/-- The label of a direct access is not bound in the code for the regions behind it. -/
theorem not_mem_bindLabels (h : RegionCode op value regions (first + 2) hits items next) :
    first ∉ bindLabels items := fun hlabel => by
  have := h.le_of_mem _ (List.mem_append_left _ hlabel)
  omega

theorem closed (h : RegionCode op value regions first hits items next) {rest : List Item}
    (hrest : Closed rest) (hhits : hits ⊆ bindLabels rest) : Closed (items ++ rest) := by
  induction h with
  | nil => exact hrest
  | small _ _ _ ih => exact ih hhits
  | fits n _ _ ih =>
    rw [List.append_assoc]
    refine closed_guardedItems op value n _ _ _ (ih fun l hl => hhits (List.mem_cons_of_mem _ hl)) ?_
    rw [bindLabels_append]
    exact List.mem_append_right _ (hhits List.mem_cons_self)

end RegionCode

/-! ## One region -/

section Region

variable [Bus β] {m : HostMachine β} {addr : UInt32}

theorem runs_checkRegion (op : MemoryOp) (region : FastRegion)
    (haddr : m.get .scratch = addr.toUInt64) :
    ∃ n, Runs (checkRegion op region) m n ∧
      n.flags.holds .above = decide (region.length - op.size.toUInt32 < addr - region.start) ∧
      n.get .scratch = (addr - region.start).toUInt64 ∧ Keeps [.scratch] m n := by
  obtain ⟨n, hruns, hscratch, hkeeps⟩ := Sequence.runs_rebase (.inl rfl) haddr region.start
  have hword : n.getWord .scratch = addr - region.start := getWord_of_get hscratch
  have hlast : (Source.immediate (region.length - op.size.toUInt32)).Valid := trivial
  have hcompare := Sequence.runs_compare (by decide : HostRegister.scratch.Valid) hlast n
  refine ⟨_, hruns.append hcompare, ?_, hscratch, hkeeps.trans (.setFlags n _)⟩
  rw [flags_setFlags, Flags.holds_ofSub, hword]
  rfl

/-- What the check of a region finds. -/
theorem holds_above_iff (op : MemoryOp) (region : FastRegion)
    (hsize : op.size ≤ region.length.toNat) :
    decide (region.length - op.size.toUInt32 < addr - region.start) = true ↔
      region.wrapped? addr op.size = none := by
  rw [FastRegion.wrapped?, decide_eq_true_iff]
  simp only [hsize, true_and]
  split
  · next hle => simp [UInt32.not_lt.2 hle]
  · next hle => simp [UInt32.not_le.1 hle]

/-- An address that misses the region is left as it was. -/
theorem passes_miss (op : MemoryOp) (value : HostRegister) (n : Nat) (region : FastRegion)
    (done miss : Nat) (haddr : m.get .scratch = addr.toUInt64)
    (hsize : op.size ≤ region.length.toNat) (hmiss : region.wrapped? addr op.size = none) :
    ∃ p, Passes none (guardedItems op value n region done miss) m none p ∧
      p.get .scratch = addr.toUInt64 ∧ Keeps [.scratch] m p := by
  obtain ⟨m₁, hcheck, hflags, hscratch, hkeeps⟩ := runs_checkRegion op region haddr
  obtain ⟨p, hrestore, hscratch', hkeeps'⟩ :=
    Sequence.runs_rebase (.inr rfl) hscratch region.start
  have htaken : m₁.flags.holds .above = true := by
    rw [hflags]
    exact (holds_above_iff op region hsize).2 hmiss
  have hjump : Passes none [.jumpIf .above miss] m₁ (some miss) m₁ := by
    have h := Passes.jumpIf .above miss m₁
    rwa [if_pos htaken] at h
  have hback : AluOp.add.fold (AluOp.sub.fold addr region.start) region.start = addr :=
    UInt32.sub_add_cancel _ _
  refine ⟨p, (Passes.instructions hcheck).append (hjump.append ((Passes.search ?_ m₁).append
    ((Passes.search ?_ m₁).append ((Passes.bind miss m₁).append (.instructions hrestore))))),
    hscratch'.trans (congrArg UInt32.toUInt64 hback), hkeeps.trans hkeeps'⟩
  · simp
  · simp

/-- The host address of the direct access to region number `n`. -/
theorem runs_aimRegion {n : Nat} {region : FastRegion} {offset : UInt32}
    (hmain : n = 0 → m.get .memoryBase = region.pointer)
    (hscratch : m.get .scratch = offset.toUInt64) :
    ∃ p, Runs (if n = 0 then [] else Sequence.movePointer .pointer region.pointer) m p ∧
      (regionAddress n).Aims p (region.pointer + offset.toUInt64) ∧ Keeps [.pointer] m p := by
  by_cases hn : n = 0
  · rw [if_pos hn, regionAddress, if_pos hn]
    exact ⟨m, rfl, FastAddress.aims_indexed (hmain hn) hscratch, .refl _ m⟩
  · rw [if_neg hn, regionAddress, if_neg hn]
    refine ⟨m.set .pointer region.pointer, .one (by decide : HostRegister.pointer.Valid) rfl,
      FastAddress.aims_based (get_set_self m _ _) ?_, .set (by decide) (by decide) m _⟩
    rw [get_set_of_ne m (by decide) (by decide) (by decide), hscratch]

/-- An address in the region is reached directly. -/
theorem passes_hit {offset : UInt32} (op : MemoryOp) (value : HostRegister)
    {goal : HostMachine β → Prop} {n : Nat} {region : FastRegion}
    (hmain : n = 0 → m.get .memoryBase = region.pointer) {done miss : Nat} (hne : done ≠ miss)
    (haddr : m.get .scratch = addr.toUInt64) (hsize : op.size ≤ region.length.toNat)
    (hhit : region.wrapped? addr op.size = some offset)
    (hdirect : ∀ p fast, m.Keeps [.scratch, .pointer] p →
      fast.Aims p (region.pointer + offset.toUInt64) →
        ∃ is, op.direct value fast = .ok is ∧ ∃ q, Runs is p q ∧ goal q) :
    ∃ p, Passes none (guardedItems op value n region done miss) m (some done) p ∧ goal p := by
  obtain ⟨m₁, hcheck, hflags, hscratch, hkeeps⟩ := runs_checkRegion op region haddr
  -- The comparison comes out above for a miss only, so the jump past the access is not taken.
  have htaken : m₁.flags.holds .above ≠ true := by
    rw [hflags]
    intro hmiss
    rw [(holds_above_iff op region hsize).1 hmiss] at hhit
    cases hhit
  have hjump : Passes none [.jumpIf .above miss] m₁ none m₁ := by
    have h := Passes.jumpIf .above miss m₁
    rwa [if_neg htaken] at h
  have hplace : addr - region.start = offset := by
    rw [FastRegion.wrapped?] at hhit
    split at hhit
    · exact Option.some.inj hhit
    · cases hhit
  rw [hplace] at hscratch
  obtain ⟨m₂, hpointer, haims, hkeeps'⟩ := runs_aimRegion (n := n) (fun hn =>
    (hkeeps.registers .memoryBase (by decide) (by decide)).trans (hmain hn)) hscratch
  have hprepared : Keeps [.scratch, .pointer] m m₂ :=
    (hkeeps.mono (by simp)).trans (hkeeps'.mono (by simp))
  obtain ⟨is, hcode, p, hreach, hgoal⟩ := hdirect m₂ (regionAddress n) hprepared haims
  rw [op.direct_eq value (resolve_regionAddress n)] at hcode
  cases hcode
  refine ⟨p, (Passes.instructions hcheck).append (hjump.append ((Passes.instructions
    (hpointer.append hreach)).append ((Passes.jump done p).append ((Passes.search ?_ p).append
      (.search ?_ p))))), hgoal⟩
  · simpa [bindLabels_bind] using hne
  · simp

end Region

/-! ## All regions -/

section Regions

variable [Bus β] {op : MemoryOp} {value : HostRegister} {goal : HostMachine β → Prop} {addr : UInt32}
  {m : HostMachine β}

/-- The first region whose check finds the place of an access, with the place. -/
def firstHit (regions : List (FastRegion × Nat)) (addr : UInt32) (size : Nat) :
    Option ((FastRegion × Nat) × UInt32) :=
  regions.findSome? fun r => (r.1.wrapped? addr size).map (r, ·)

theorem firstHit_cons_of_none {r : FastRegion × Nat} {size : Nat}
    (h : r.1.wrapped? addr size = none) (regions : List (FastRegion × Nat)) :
    firstHit (r :: regions) addr size = firstHit regions addr size := by
  simp [firstHit, h]

theorem firstHit_cons_of_some {r : FastRegion × Nat} {size : Nat} {offset : UInt32}
    (h : r.1.wrapped? addr size = some offset) (regions : List (FastRegion × Nat)) :
    firstHit (r :: regions) addr size = some (r, offset) := by
  simp [firstHit, h]

theorem firstHit_eq_some {regions : List (FastRegion × Nat)} {size : Nat} {r : FastRegion × Nat}
    {offset : UInt32} (h : firstHit regions addr size = some (r, offset)) :
    r ∈ regions ∧ r.1.wrapped? addr size = some offset := by
  obtain ⟨q, hq, hfound⟩ := List.exists_of_findSome?_eq_some h
  obtain ⟨o, hoffset, heq⟩ := Option.map_eq_some_iff.1 hfound
  cases heq
  exact ⟨hq, hoffset⟩

/-- The outcome of trying regions: the address missed all of them and is as it was, or control is on
its way past the others after an access. -/
def Tried (goal : HostMachine β → Prop) (addr : UInt32) (missed : Prop) (items : List Item)
    (hits : List Nat) (m n : HostMachine β) : Prop :=
  (missed ∧ Passes none items m none n ∧ n.get .scratch = addr.toUInt64 ∧ Keeps [.scratch] m n) ∨
    ∃ done ∈ hits, Passes none items m (some done) n ∧ goal n

/-- The machine is ready for an access to regions by their numbers: the main region is where it is
expected, and a direct access to the first place that a check finds attains the goal. -/
structure Offers (op : MemoryOp) (value : HostRegister) (goal : HostMachine β → Prop) (addr : UInt32)
    (regions : List (FastRegion × Nat)) (m : HostMachine β) : Prop where
  main : ∀ r ∈ regions, r.2 = 0 → m.get .memoryBase = r.1.pointer
  direct : ∀ r offset, firstHit regions addr op.size = some (r, offset) →
    ∀ p fast, m.Keeps [.scratch, .pointer] p → fast.Aims p (r.1.pointer + offset.toUInt64) →
      ∃ is, op.direct value fast = .ok is ∧ ∃ q, Runs is p q ∧ goal q

theorem Offers.of_keeps {r : FastRegion × Nat} {regions : List (FastRegion × Nat)}
    {n : HostMachine β} (h : Offers op value goal addr (r :: regions) m)
    (hmiss : r.1.wrapped? addr op.size = none) (hkeeps : Keeps [.scratch] m n) :
    Offers op value goal addr regions n where
  main q hq hzero := (hkeeps.registers _ (by decide) (by decide)).trans
    (h.main q (List.mem_cons_of_mem _ hq) hzero)
  direct q offset hhit p fast hp :=
    h.direct q offset (by rwa [firstHit_cons_of_none hmiss]) p fast ((hkeeps.mono (by simp)).trans hp)

/-- What comes of trying regions: the address misses all of them, or an access to the first that it
lies in attains the goal. -/
theorem RegionCode.exists_tried {regions : List (FastRegion × Nat)} {first next : Nat} {hits : List Nat}
    {items : List Item} (h : RegionCode op value regions first hits items next)
    (hoffers : Offers op value goal addr regions m) (haddr : m.get .scratch = addr.toUInt64) :
    ∃ n, Tried goal addr (firstHit regions addr op.size = none) items hits m n := by
  induction h generalizing m with
  | nil first => exact ⟨m, .inl ⟨rfl, .nil none m, haddr, .refl _ m⟩⟩
  | small n hsize _ ih =>
    have hmiss : FastRegion.wrapped? _ addr op.size = none := if_neg fun h => hsize h.1
    rw [firstHit_cons_of_none hmiss]
    exact ih (hoffers.of_keeps hmiss (.refl _ m)) haddr
  | @fits region n regions first hits items next hsize h ih =>
    -- An address outside of the region goes on to the other regions, one inside is done here.
    cases hwrapped : region.wrapped? addr op.size with
    | none =>
      obtain ⟨p, hpasses, hscratch, hkeeps⟩ :=
        passes_miss op value n region first (first + 1) haddr hsize hwrapped
      obtain ⟨q, ⟨hmissed, hpasses', hscratch', hkeeps'⟩ | ⟨done, hdone, hpasses', hgoal⟩⟩ :=
        ih (hoffers.of_keeps hwrapped hkeeps) hscratch
      · refine ⟨q, .inl ⟨?_, hpasses.append hpasses', hscratch', hkeeps.trans hkeeps'⟩⟩
        rw [firstHit_cons_of_none hwrapped, hmissed]
      · exact ⟨q, .inr ⟨done, List.mem_cons_of_mem _ hdone, hpasses.append hpasses', hgoal⟩⟩
    | some offset =>
      obtain ⟨p, hpasses, hgoal⟩ := passes_hit op value
        (hoffers.main (region, n) List.mem_cons_self) (Nat.ne_of_lt (Nat.lt_succ_self first))
        haddr hsize hwrapped
        (hoffers.direct (region, n) offset (firstHit_cons_of_some hwrapped regions))
      exact ⟨p, .inr ⟨first, List.mem_cons_self,
        hpasses.append (.search h.not_mem_bindLabels p), hgoal⟩⟩

end Regions

/-! ## The access as a whole -/

/-- Behind an access control goes on past the labels of all regions. -/
theorem passes_hits [Bus β] (hits : List Nat) {label? : Option Nat}
    (hlabel : ∀ label, label? = some label → label ∈ hits) (m : HostMachine β) :
    Passes label? (hits.map .bind) m none m := by
  induction hits generalizing label? with
  | nil =>
    cases label? with
    | none => exact .nil none m
    | some label => cases hlabel label rfl
  | cons hit hits ih =>
    cases label? with
    | none => exact (Passes.pass_bind hit m).cons (ih fun _ h => by cases h)
    | some label =>
      by_cases heq : label = hit
      · subst heq
        exact (Passes.bind label m).cons (ih fun _ h => by cases h)
      · refine (Passes.search ?_ m).cons (ih fun l hl => ?_)
        · simpa [bindLabels_bind] using heq
        · cases hl
          exact (List.mem_cons.1 (hlabel label rfl)).resolve_left heq

theorem bindLabels_hits (hits : List Nat) : bindLabels (hits.map .bind) = hits := by
  induction hits with
  | nil => rfl
  | cons hit hits ih => rw [List.map_cons, bindLabels_bind, ih]

/-- The access attains what both the helper and direct accesses attain. -/
theorem guardedAccess_spec [Bus β] {γ : Type} {op : MemoryOp} {value : HostRegister}
    {goal : HostMachine β → Prop} {regions : List FastRegion} {addr : UInt32} {m : HostMachine β}
    (hoffers : Offers op value goal addr regions.zipIdx m)
    (hslow : firstHit regions.zipIdx addr op.size = none → ∀ p, m.Keeps [.scratch] p →
      p.getWord .scratch = addr → ∃ is, op.slow value = .ok is ∧ ∃ q, Runs is p q ∧ goal q)
    (haddr : m.get .scratch = addr.toUInt64) (s : Surroundings) (t : Lowering γ) :
    ∃ code labels n,
      exec (guardedAccess op value regions) s t = (.ok (), { t with code := code, labels := labels }) ∧
        t.Carries m { t with code := code, labels := labels } n ∧ goal n := by
  obtain ⟨hits, items, labels, hitems, hexec⟩ := exec_guardedRegions op value regions.zipIdx s t
  have hword {p : HostMachine β} (hp : p.get .scratch = addr.toUInt64) :
      p.getWord .scratch = addr := getWord_of_get hp
  obtain ⟨m₁, htried⟩ := hitems.exists_tried hoffers haddr
  obtain ⟨slow, hcall⟩ := op.exists_slow value
  have hcode : exec (guardedAccess op value regions) s t = (.ok (), { t with
      code := t.code ++ (items ++ (slow.map Item.instruction ++ hits.map .bind))
      labels := labels }) := by
    rw [guardedAccess, exec_bind_of_ok hexec, exec_bind_of_ok (exec_emitChecked hcall ..),
      exec_append, appendList_append, appendList_append]
  have hclosed' : Closed (items ++ (slow.map Item.instruction ++ hits.map .bind)) := by
    refine hitems.closed ((Closed.instructions slow).append (.of_no_jumps ?_)) ?_
    · simp [Item.jumpLabel?]
    · rw [bindLabels_append, bindLabels_instructions, bindLabels_hits]
      exact List.Subset.refl _
  -- Either all regions were missed and the helper is called, or one was hit and served directly.
  obtain ⟨hmissed, hpasses, hscratch, hkeeps⟩ | ⟨done, hdone, hpasses, hgoal⟩ := htried
  · obtain ⟨slow', hcall', n, hruns, hgoal⟩ := hslow hmissed m₁ hkeeps (hword hscratch)
    cases hcall.symm.trans hcall'
    exact ⟨_, labels, n, hcode, ⟨_, rfl, hclosed', hpasses.append
      ((Passes.instructions hruns).append (passes_hits hits (fun _ h => by cases h) n))⟩, hgoal⟩
  · refine ⟨_, labels, m₁, hcode, ⟨_, rfl, hclosed', hpasses.append
      ((Passes.search ?_ m₁).append (passes_hits hits ?_ m₁))⟩, hgoal⟩
    · simp
    · rintro _ ⟨⟩
      exact hdone

end Lower

end Recompiler
