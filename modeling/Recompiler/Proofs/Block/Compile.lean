import Recompiler.Proofs.Block.Orderly

/-!
# The stages of a compilation

A compilation takes up a block, lowers it, assembles it and then publishes or drops it. Here each
stage has a name, and `BlockTable.compile` is put together from them.

* `Lower.entryItems`, `Lower.items_block`: the symbolic code of a block.
* `BlockTable.opened`: the table while the block is lowered.
* `BlockTable.lower`: the lowering.
* `BlockTable.assembled`: the table with the code of the block behind that of the others.
* `BlockTable.compile_of_not_full`: the compilation.
* `BlockTable.compile_eq_ok`, `BlockTable.compile_eq_error`: what an outcome says about the stages.
-/

namespace Recompiler

/-- Changing the newest entry of an array. -/
theorem modify_push_size {α : Type} (xs : Array α) (x : α) (f : α → α) :
    (xs.push x).modify xs.size f = xs.push (f x) := by
  apply Array.ext_getElem?
  intro i
  rw [Array.getElem?_modify, Array.getElem?_push, Array.getElem?_push]
  by_cases h : i = xs.size
  · rw [if_pos h, if_pos h, if_pos h.symm, Option.map_some]
  · rw [if_neg h, if_neg h, if_neg (Ne.symm h)]

/-! ## The lowering of a block -/

namespace Lower

variable {β : Type}

/-- The comparison of the budget with zero, which every block begins with. -/
def budgetCheck : HostInstruction :=
  .groupImmediate .compare (.memory (Sequence.stateAddress (Slot.offset Slot.downcount))) 0

/-- The symbolic code of a block up to its marked entry. -/
def entryItems (stubs : Stubs) (start : UInt32) : List Item :=
  [.instruction budgetCheck, .jumpIf .greaterEqual 0,
    .instruction (.storeImmediate (Sequence.stateAddress (Slot.offset Slot.pc)) start),
    .jumpTo stubs.outerLoop, .bind 0, .entry]

theorem length_budgetCheck : budgetCheck.encode.length = 8 := by
  decide

/-- The comparison is written in one piece. -/
theorem write_budgetCheck (a : Arena) : a.write budgetCheck = a.emit budgetCheck.encode := rfl

end Lower

/-- A lowering at the marked entry of its block. -/
def Lowering.entered {β : Type} (bus : β) (stubs : Stubs) (start : UInt32) : Lowering β :=
  { Lowering.initial bus start with
    code := (Lower.entryItems stubs start).toArray
    events := #[.compiling start]
    labels := 1 }

namespace Lower

variable {β : Type} [Bus β] (start : UInt32) (s : Surroundings) (bus : β)

/-- The lowering of a block is that of its instructions, between an entry and some filler. -/
theorem exec_block :
    exec (block start) s (.initial bus start) =
      match exec (body start s.options.maxBlockInstructions) s (.entered bus s.stubs start) with
      | (.ok (), t) => (.ok (), { t with code := t.code ++ [Item.align blockAlignment] })
      | (.error e, t) => (.error e, t) := by
  have hentry : exec (writeEntry start) s
      { Lowering.initial bus start with events := #[.compiling start] } =
        (.ok (), .entered bus s.stubs start) := by
    simp only [writeEntry, exec_bind, exec_freshLabel, exec_emit, exec_append]
    rfl
  have hblock : exec (block start) s (.initial bus start) =
      exec (writeEntry start >>= fun _ => read >>= fun s =>
        body start s.options.maxBlockInstructions >>= fun _ => append [.align blockAlignment]) s
        { Lowering.initial bus start with events := #[.compiling start] } := rfl
  rw [hblock, exec_bind, hentry]
  change exec (body start s.options.maxBlockInstructions >>= fun _ =>
    append [.align blockAlignment]) s (.entered bus s.stubs start) = _
  rw [exec_bind]
  rcases exec (body start s.options.maxBlockInstructions) s (.entered bus s.stubs start)
    with ⟨_ | _, t⟩ <;> rfl

/-- Whatever comes of it, the code of a block begins with its entry. -/
theorem code_block :
    ∃ more, (exec (block start) s (.initial bus start)).2.code.toList =
      entryItems s.stubs start ++ more := by
  obtain ⟨more, hmore⟩ := (Orderly.body start s.options.maxBlockInstructions).code_extends s
    (.entered bus s.stubs start)
  rw [exec_block]
  rcases hrun : exec (body start s.options.maxBlockInstructions) s (.entered bus s.stubs start)
    with ⟨_ | _, t⟩ <;> rw [hrun] at hmore <;> dsimp only at hmore ⊢
  · exact ⟨more, hmore⟩
  · refine ⟨more ++ [.align blockAlignment], ?_⟩
    rw [Array.toList_appendList, hmore, List.append_assoc]
    rfl

/-- Between its entry and some filler, the code of a block has plain steps and exits, and its labels
are unique. -/
theorem items_block (h : (exec (block start) s (.initial bus start)).1 = .ok ()) :
    ∃ more, (exec (block start) s (.initial bus start)).2.code.toList =
        entryItems s.stubs start ++ more ++ [.align blockAlignment] ∧
      UniqueLabels (entryItems s.stubs start ++ more ++ [.align blockAlignment]) ∧
      ∀ i ∈ more, i.isPlain = true ∨ ∃ target, i = s.exitItem target := by
  have hbody := Orderly.body (β := β) start s.options.maxBlockInstructions
  -- The labels of the instructions are new, and so none of them is that of the entry.
  obtain ⟨-, more, hcode, hjumps, hbinds⟩ :=
    hbody.fresh s (.entered bus s.stubs start) (by simp) .nil .nil
  -- The form of the items is kept by every step.
  let r (c _ : Array Item) : Prop := ∃ more, c.toList = entryItems s.stubs start ++ more ∧
    ∀ i ∈ more, i.isPlain = true ∨ ∃ target, i = s.exitItem target
  have hkeeps : s.KeepsRelated s r := by
    constructor
    · rintro c _ items hplain ⟨more, hc, hmore⟩
      refine ⟨more ++ items, ?_, fun i hi => ?_⟩
      · rw [Array.toList_appendList, hc, List.append_assoc]
      · exact (List.mem_append.1 hi).elim (hmore i) fun hi => .inl (hplain i hi)
    · rintro c _ target ⟨more, hc, hmore⟩
      refine ⟨more ++ [s.exitItem target], ?_, fun i hi => ?_⟩
      · rw [Array.toList_appendList, hc, List.append_assoc]
      · refine (List.mem_append.1 hi).elim (hmore i) fun hi => .inr ⟨target, ?_⟩
        exact List.mem_singleton.1 hi
  have halike : (Lowering.entered bus s.stubs start).Alike Eq r (.entered bus s.stubs start) :=
    ⟨⟨[], rfl, by simp⟩, rfl, rfl⟩
  have hform := (hbody.uniform (.refl s) Bus.matched_eq hkeeps halike).2.code
  rw [exec_block] at h ⊢
  rcases hrun : exec (body start s.options.maxBlockInstructions) s (.entered bus s.stubs start)
    with ⟨_ | ⟨⟨⟩⟩, t⟩ <;> rw [hrun] at h hcode hjumps hbinds hform
  · cases h
  · obtain ⟨more', hcode', hmore⟩ := hform
    dsimp only at hcode hcode' hjumps hbinds ⊢
    obtain rfl : more' = more := by
      rw [hcode'] at hcode
      exact List.append_cancel_left hcode
    refine ⟨more', ?_, ⟨?_, ?_⟩, hmore⟩
    · rw [Array.toList_appendList, hcode']
    · rw [jumpLabels_append, jumpLabels_append]
      change ([0] ++ jumpLabels more' ++ []).Nodup
      rw [List.append_nil, List.singleton_append]
      refine List.nodup_cons.2 ⟨fun hmem => ?_, hjumps.nodup⟩
      rcases hjumps.mem 0 hmem with hmem | ⟨hpos, -⟩
      · cases hmem
      · exact Nat.not_succ_le_zero 0 hpos
    · rw [bindLabels_append, bindLabels_append]
      change ([0] ++ bindLabels more' ++ []).Nodup
      rw [List.append_nil, List.singleton_append]
      refine List.nodup_cons.2 ⟨fun hmem => ?_, hbinds.nodup⟩
      rcases hbinds.mem 0 hmem with hmem | ⟨hpos, -⟩
      · cases hmem
      · exact Nat.not_succ_le_zero 0 hpos

end Lower

namespace BlockTable

variable {β : Type}

/-- The arena while a block is compiled, with room for all that is left. -/
def reserved (t : BlockTable) : Arena :=
  (t.code.reserve t.code.spaceLeft).2

theorem reserved_eq {t : BlockTable} (h : t.code.size ≤ t.code.capacity) :
    t.reserved = { t.code with limit := t.code.capacity } := by
  have hsum : t.code.size + t.code.spaceLeft = t.code.capacity := by
    rw [Arena.spaceLeft]
    omega
  rw [reserved, Arena.reserve, hsum, if_pos (Nat.le_refl _)]

/-- The table while the block at `start` is lowered. -/
def opened (t : BlockTable) (start : UInt32) : BlockTable :=
  { t with
    code := t.reserved
    blocks := t.blocks.push ⟨start, 0, 0, t.code.size, t.code.size, #[]⟩ }

/-- What the lowering of the block at `start` comes to, and what it leaves behind. -/
def lower [Bus β] (t : BlockTable) (bus : β) (options : Options) (regions : List FastRegion)
    (start : UInt32) : Except Failure Unit × Lowering β :=
  (Lower.block start).exec ⟨options, regions, t.stubs, (t.opened start).entryAt t.size⟩
    (.initial bus start)

/-- The code of the others with that of a lowered block behind it. -/
def extended (t : BlockTable) (r : Lowering β) : Assembly :=
  t.reserved.assemble r.code

/-- The table with the assembled block, which is not published yet. -/
def assembled (t : BlockTable) (start : UInt32) (r : Lowering β) : BlockTable :=
  { t with
    code := (t.extended r).code.takeOverflow.2
    blocks := t.blocks.push ⟨start, r.instructions, 0, t.code.size, (t.extended r).entry,
      (t.extended r).exits⟩ }

variable {t : BlockTable}

theorem size_start_reserved (h : t.code.size ≤ t.code.capacity) :
    (Assembly.start t.reserved).code.size = t.code.size := by
  change t.reserved.size = _
  rw [reserved_eq h]
  rfl

/-- The code with a block behind it keeps to the capacity. -/
theorem extends_extended (h : t.code.size ≤ t.code.capacity) (r : Lowering β) :
    Arena.Extends { t.code with limit := t.code.capacity } (t.extended r).code := by
  rw [extended, reserved_eq h]
  exact Assembly.extends_assemble _ r.code

theorem size_extended (h : t.code.size ≤ t.code.capacity) (r : Lowering β) :
    t.code.size ≤ (t.extended r).code.size ∧ (t.extended r).code.size ≤ t.code.capacity := by
  have hextends := extends_extended h r
  exact ⟨hextends.size_le, Nat.le_trans (hextends.within h) (Nat.le_of_eq hextends.limit)⟩

/-- Dropping an assembled block takes the table back, and all code that reaches past the old
end. -/
theorem discard_assembled (start : UInt32) (r : Lowering β) :
    (t.assembled start r).discard t.size =
      if (t.size + 1) % UInt64.size ≠ t.size + 1 then
        .error (.discardOutOfOrder ((t.size + 1) % UInt64.size) (t.size + 1))
      else .ok { t with code := ((t.extended r).code.takeOverflow.2.truncate
        t.code.size).takeOverflow.2 } := by
  have hsize : (t.assembled start r).size = t.size + 1 := Array.size_push _
  unfold discard
  rw [hsize, assembled, Array.back?_push, Array.pop_push]

variable [Bus β] {bus : β} {options : Options} {regions : List FastRegion} {start : UInt32}

theorem compile_of_full (h : t.isFull = true) :
    t.compile bus options regions start = ⟨.error (.breach .tableFull), t, bus, #[]⟩ := by
  simp [compile, allocate, h]

/-- A compilation stage by stage. -/
theorem compile_of_not_full (h : t.isFull = false) :
    t.compile bus options regions start =
      let (outcome, r) := t.lower bus options regions start
      match outcome, (t.extended r).code.overflowed with
      | .ok (), false =>
        match (t.assembled start r).finalize t.size options.enableBlockLink with
        | .ok (u, events) => ⟨.ok t.size, u, r.bus, r.events ++ events⟩
        | .error b => ⟨.error (.breach b), t.assembled start r, r.bus, r.events⟩
      | outcome, _ =>
        let failure :=
          match outcome with
          | .error f => f
          | .ok () => .compile .codeSpaceExhausted
        match (t.assembled start r).discard t.size with
        | .ok u => ⟨.error failure, u, r.bus, r.events⟩
        | .error b => ⟨.error (.breach b), t.assembled start r, r.bus, r.events⟩ := by
  -- What the steps leave is named before they are unfolded, so that the lowering is not computed.
  have hallocate : t.allocate start = .ok (t.size, t.opened start) := by
    simp [allocate, h, opened, reserved]
  have hinstall (r : Lowering β) :
      (t.opened start).install t.size r.instructions r.code =
        { t.assembled start r with code := (t.extended r).code } := by
    have hblocks := modify_push_size t.blocks ⟨start, 0, 0, t.code.size, t.code.size, #[]⟩
      fun b => { b with
        instructions := r.instructions
        normalEntry := (t.extended r).entry
        exits := (t.extended r).exits }
    exact congrArg (fun blocks =>
      { t with code := (t.extended r).code, blocks := blocks }) hblocks
  have hlower : ((Lower.block start).run ⟨options, regions, (t.opened start).stubs,
      (t.opened start).entryAt t.size⟩).run.run (.initial bus start) =
        t.lower bus options regions start := rfl
  unfold compile
  rw [hallocate]
  dsimp only
  rw [hlower]
  rcases t.lower bus options regions start with ⟨outcome, r⟩
  dsimp only
  rw [hinstall]
  rfl

/-- A compilation gives the number of a block exactly if the block was lowered, found room and was
published. -/
theorem compile_eq_ok {n : Nat} (h : (t.compile bus options regions start).result = .ok n) :
    t.isFull = false ∧ (t.lower bus options regions start).1 = .ok () ∧
      (t.extended (t.lower bus options regions start).2).code.overflowed = false ∧
      n = t.size ∧
      (∃ events, (t.assembled start (t.lower bus options regions start).2).finalize t.size
        options.enableBlockLink = .ok ((t.compile bus options regions start).table, events)) ∧
      (t.compile bus options regions start).bus = (t.lower bus options regions start).2.bus := by
  cases hfull : t.isFull with
  | true =>
    rw [compile_of_full hfull] at h
    cases h
  | false =>
    rw [compile_of_not_full hfull] at h ⊢
    generalize t.lower bus options regions start = l at h ⊢
    obtain ⟨outcome, r⟩ := l
    dsimp only at h ⊢
    split at h
    · next hclean =>
      rw [hclean]
      split at h
      · next u events hfinalize =>
        cases h
        rw [hfinalize]
        exact ⟨rfl, rfl, rfl, rfl, ⟨events, rfl⟩, rfl⟩
      · cases h
    · split at h <;> cases h

/-- A compilation that fails with an error of its own drops the block and its code. -/
theorem compile_eq_error {e : CompileError}
    (h : (t.compile bus options regions start).result = .error (.compile e)) :
    (t.compile bus options regions start).table =
      { t with code := ((t.extended (t.lower bus options regions start).2).code.takeOverflow.2.truncate
        t.code.size).takeOverflow.2 } := by
  cases hfull : t.isFull with
  | true =>
    rw [compile_of_full hfull] at h
    cases h
  | false =>
    rw [compile_of_not_full hfull] at h ⊢
    generalize t.lower bus options regions start = l at h ⊢
    obtain ⟨outcome, r⟩ := l
    dsimp only at h ⊢
    rw [discard_assembled] at h ⊢
    split at h
    · split at h <;> cases h
    · split at h
      · next hdiscard =>
        split at hdiscard
        · cases hdiscard
        · cases hdiscard
          split <;> rfl
      · cases h

end BlockTable

end Recompiler
