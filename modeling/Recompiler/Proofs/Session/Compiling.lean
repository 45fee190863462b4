import Recompiler.Proofs.Block.Coherent
import Recompiler.Proofs.Block.Readable
import Recompiler.Proofs.Session.Cleared

/-!
# Compiling comes to an answer

No compilation breaks a contract, whatever was compiled before and with whatever result. It gives a
block, runs out of space, or tells which guest word is no instruction.

* `BlockTable.Numbered`: the numbers that a table keeps are those of its blocks.
* `BlockTable.Numbered.finalize`: publishing a block breaks no contract.
* `Compilation.Answers`: what a compilation may come to.
* `Session.Ready`: tables and options for which it does.
* `Session.Reachable.compile_answers`: every compilation comes to an answer.
-/

namespace Recompiler

/-- A block is there, or it did not fit, or one of its words is no instruction. -/
def Compilation.Answers {β : Type} [Bus β] (limit : Nat) (start : UInt32) (bus : β)
    (c : Compilation β) : Prop :=
  (∃ n, c.result = .ok n) ∨
    (c.result = .error (.compile .codeSpaceExhausted) ∧ Bus.ReadsTo bus c.bus) ∨
    ∃ e, c.result = .error (.compile e) ∧ Bus.Breaks e limit start bus

namespace BlockTable

variable {β : Type} {t u : BlockTable}

/-! ## Numbers -/

/-- The numbers that a table keeps are those of its blocks, of which there are no more than bytes of
code. -/
structure Numbered (t : BlockTable) : Prop where
  indexed : ∀ addr n, t.number? addr = some n → n < t.size
  known : ∀ x, ∀ m ∈ t.linksTo.getD x [], m < t.size
  few : t.size ≤ t.code.size

theorem numbered_bare (capacity maxBlocks : Nat) : (bare capacity maxBlocks).Numbered where
  indexed addr n h := by
    rw [number?, bare, Std.HashMap.getElem?_empty] at h
    cases h
  known x m hm := by
    rw [bare, Std.HashMap.getD_empty] at hm
    cases hm
  few := Nat.zero_le _

/-- Linking the exits of a block to another breaks no contract. -/
theorem linkExits_of_lt {source n : Nat} (target : UInt32) (hsource : source < t.size)
    (hn : n < t.size) :
    ∃ u events, t.linkExits source target n = .ok (u, events) ∧ u.linksTo = t.linksTo := by
  have hdestination : t.blocks[n]? = some t.blocks[n] := Array.getElem?_eq_getElem hn
  have hblock : t.blocks[source]? = some t.blocks[source] := Array.getElem?_eq_getElem hsource
  unfold linkExits
  rw [hdestination, hblock]
  exact ⟨_, _, rfl, rfl⟩

theorem Numbered.relinks (ht : t.Numbered) (h : t.Relinks u) (hto : u.linksTo = t.linksTo) :
    u.Numbered where
  indexed addr n hn := by
    rw [h.size_eq]
    exact ht.indexed addr n (h.number?_eq addr ▸ hn)
  known x m hm := by
    rw [h.size_eq]
    exact ht.known x m (hto ▸ hm)
  few := by
    rw [h.size_eq, h.code.size]
    exact ht.few

/-- Nor does linking the exits of a block to all that they lead to. -/
theorem Numbered.linkOut (ht : t.Numbered) {n : Nat} (hn : n < t.size) (targets : List UInt32) :
    ∃ u events, BlockTable.linkOut n t targets = .ok (u, events) ∧ u.Numbered := by
  induction targets generalizing t with
  | nil => exact ⟨t, [], rfl, ht⟩
  | cons target rest ih =>
    have hnote : (t.noteLink n target).Numbered := by
      refine ⟨ht.indexed, fun x m hm => ?_, ht.few⟩
      rcases (mem_linksTo_noteLink t n target x m).1 hm with hm | ⟨rfl, -⟩
      · exact ht.known x m hm
      · exact hn
    rw [linkOut_cons]
    split
    · exact ih hnote hn
    · next destination hdestination =>
      obtain ⟨v, events, hlink, hto⟩ := linkExits_of_lt (t := t.noteLink n target) target hn
        (hnote.indexed target destination hdestination)
      have hrelinks := relinks_linkExits hlink
      obtain ⟨u, more, hrest, hu⟩ := ih (hnote.relinks hrelinks hto) (hrelinks.size_eq ▸ hn)
      rw [hlink]
      dsimp only
      rw [hrest]
      exact ⟨u, events ++ more, rfl, hu⟩

/-- Nor does linking the exits that wait for a block. -/
theorem Numbered.linkAll (ht : t.Numbered) {n : Nat} (hn : n < t.size) (start : UInt32)
    {sources : List Nat} (hsources : ∀ m ∈ sources, m < t.size) :
    ∃ u events, t.linkAll (sources.map (·, start, n)) = .ok (u, events) ∧ u.Numbered := by
  induction sources generalizing t with
  | nil => exact ⟨t, [], rfl, ht⟩
  | cons source rest ih =>
    obtain ⟨v, events, hlink, hto⟩ := linkExits_of_lt start (hsources source (by simp)) hn
    have hrelinks := relinks_linkExits hlink
    obtain ⟨u, more, hrest, hu⟩ := ih (ht.relinks hrelinks hto) (hrelinks.size_eq ▸ hn)
      fun m hm => hrelinks.size_eq ▸ hsources m (List.mem_cons_of_mem _ hm)
    rw [List.map_cons, linkAll_cons, hlink]
    dsimp only
    rw [hrest]
    exact ⟨u, events ++ more, rfl, hu⟩

theorem Numbered.enlisted (ht : t.Numbered) {n : Nat} (hn : n < t.size) (b : Block) :
    (t.enlisted n b).Numbered := by
  have hsize : (t.enlisted n b).size = t.size := Array.size_modify
  refine ⟨fun addr m hm => ?_, fun x m hm => hsize ▸ ht.known x m hm, hsize ▸ ht.few⟩
  rw [hsize]
  rw [number?, BlockTable.enlisted, Std.HashMap.getElem?_insert] at hm
  split at hm
  · cases hm
    exact hn
  · exact ht.indexed addr m hm

/-- Publishing a block breaks no contract. -/
theorem Numbered.finalize (ht : t.Numbered) {n : Nat} (hn : n < t.size) (link : Bool) :
    ∃ u events, t.finalize n link = .ok (u, events) ∧ u.Numbered := by
  have hb : t.blocks[n]? = some t.blocks[n] := Array.getElem?_eq_getElem hn
  have henlisted := ht.enlisted hn t.blocks[n]
  have hsize : (t.enlisted n t.blocks[n]).size = t.size := Array.size_modify
  rw [finalize_eq hb]
  cases link with
  | false => exact ⟨_, _, rfl, henlisted⟩
  | true =>
    obtain ⟨v, out, hout, hv⟩ := henlisted.linkOut (hsize ▸ hn)
      (t.blocks[n].exits.toList.map (·.target))
    have hsize' : v.size = t.size := (relinks_linkOut hout).size_eq.trans hsize
    have hsources (m : Nat) (hm : m ∈ v.linksTo.getD t.blocks[n].start []) : m < v.size :=
      hv.known _ m hm
    obtain ⟨u, back, hback, hu⟩ := hv.linkAll (hsize' ▸ hn) t.blocks[n].start hsources
    rw [← linkIn] at hback
    dsimp only
    rw [if_pos rfl, hout]
    dsimp only
    rw [hback]
    exact ⟨u, _, rfl, hu⟩

/-! ## Compilations -/

section Compile

variable [Bus β] {bus : β} {options : Options} {regions : List FastRegion} {start : UInt32}

/-- A block is lowered unless one of its words is no instruction. -/
theorem lower_answers (t : BlockTable) (bus : β) (options : Options) (regions : List FastRegion)
    (start : UInt32) :
    ((t.lower bus options regions start).1 = .ok () ∧
      Bus.ReadsTo bus (t.lower bus options regions start).2.bus) ∨
    ∃ e, (t.lower bus options regions start).1 = .error (.compile e) ∧
      Bus.Breaks e options.maxBlockInstructions start bus := by
  have hblock := Lower.exec_block start (t.surroundings options regions start) bus
  change t.lower bus options regions start = _ at hblock
  rw [hblock]
  have hentered : (Lowering.entered bus t.stubs start).registers.Locks [] :=
    RegisterCache.locks_fresh
  rcases Lower.exec_body (s := t.surroundings options regions start) start
    options.maxBlockInstructions hentered with ⟨u, hexec, hreads⟩ | ⟨e, u, hexec, hbreaks⟩
  · have hbody : Lower.exec (Lower.body start _) _ (Lowering.entered bus t.stubs start) = _ := hexec
    dsimp only [surroundings] at hbody ⊢
    rw [hbody]
    exact .inl ⟨rfl, hreads⟩
  · have hbody : Lower.exec (Lower.body start _) _ (Lowering.entered bus t.stubs start) = _ := hexec
    dsimp only [surroundings] at hbody ⊢
    rw [hbody]
    exact .inr ⟨e, rfl, hbreaks⟩

/-- The code of a block is at least as long as its entry. -/
theorem size_entry_le_extended (ht : t.Sound) (bus : β) (options : Options)
    (regions : List FastRegion) (start : UInt32)
    (hok : (t.lower bus options regions start).1 = .ok ())
    (hclean : (t.extended (t.lower bus options regions start).2).code.overflowed = false) :
    t.code.size + 30 ≤ (t.extended (t.lower bus options regions start).2).code.size := by
  obtain ⟨more, -, -, hlaid⟩ := laidOut_extended ht hok hclean
  have hsize := size_start_reserved ht.room
  have hstop := hlaid.size
  rw [hsize, List.append_assoc, Layout.stop_entryItems] at hstop
  have hle := Layout.le_stop (t.code.size + 30) (more ++ [.align Lower.blockAlignment])
  omega

omit [Bus β] in
/-- With the code of a new block the numbers stay those of the blocks. -/
theorem Numbered.assembled (ht : t.Numbered) (start : UInt32) (r : Lowering β)
    (hlonger : t.code.size < (t.extended r).code.size) : (t.assembled start r).Numbered := by
  have hsize : (t.assembled start r).size = t.size + 1 := Array.size_push _
  refine ⟨fun addr n hn => ?_, fun x m hm => ?_, ?_⟩
  · have := ht.indexed addr n hn
    omega
  · have := ht.known x m hm
    omega
  · have := ht.few
    change (t.assembled start r).size ≤ (t.extended r).code.size
    omega

omit [Bus β] in
/-- A block that was assembled can be dropped. -/
theorem Numbered.discard_assembled (ht : t.Numbered) (hsound : t.Sound) (start : UInt32)
    (r : Lowering β) :
    ∃ u, (t.assembled start r).discard t.size = .ok u ∧ u.Numbered := by
  have hfew := ht.few
  have hsize := hsound.size_lt
  have hroom := size_extended hsound.room r
  have hcapacity := hsound.capacity_lt
  have hsmall : (t.size + 1) % UInt64.size = t.size + 1 := by
    refine Nat.mod_eq_of_lt ?_
    have hrun := hsound.capacity
    have hlarge : Arena.addressSpace + 1 < UInt64.size := by decide
    have hin := hsound.room
    omega
  rw [BlockTable.discard_assembled, if_neg (by rw [hsmall]; simp)]
  refine ⟨_, rfl, ht.indexed, ht.known, ?_⟩
  change t.size ≤ (((t.extended r).code.takeOverflow.2.truncate t.code.size).takeOverflow.2).size
  have htruncate : (((t.extended r).code.takeOverflow.2.truncate t.code.size).takeOverflow.2).size =
      min t.code.size (t.extended r).code.size := Arena.size_truncate _ _
  omega

/-- A compilation in a table that is not full breaks no contract. -/
theorem Numbered.compile (ht : t.Numbered) (hsound : t.Sound) (hfull : t.isFull = false)
    (bus : β) (options : Options) (regions : List FastRegion) (start : UInt32) :
    (t.compile bus options regions start).table.Numbered ∧
      (t.compile bus options regions start).Answers options.maxBlockInstructions start bus := by
  have hanswers := t.lower_answers bus options regions start
  have hlonger := size_entry_le_extended hsound bus options regions start
  rw [compile_of_not_full hfull]
  generalize t.lower bus options regions start = l at hanswers hlonger ⊢
  obtain ⟨outcome, r⟩ := l
  obtain ⟨v, hdiscard, hv⟩ := ht.discard_assembled hsound start r
  dsimp only at hanswers hlonger ⊢
  -- Lowering answers and the code fits, it answers and the code does not fit, or it breaks a
  -- contract.
  rcases hanswers with ⟨rfl, hreads⟩ | ⟨e, rfl, hbreaks⟩
  · cases hclean : (t.extended r).code.overflowed with
    | false =>
      have hin : t.size < (t.assembled start r).size := by
        rw [show (t.assembled start r).size = t.size + 1 from Array.size_push _]
        exact Nat.lt_succ_self _
      obtain ⟨u, events, hfinalize, hu⟩ := (ht.assembled start r
        (Nat.lt_of_lt_of_le (by omega) (hlonger rfl hclean))).finalize hin options.enableBlockLink
      dsimp only
      rw [hfinalize]
      exact ⟨hu, .inl ⟨_, rfl⟩⟩
    | true =>
      dsimp only
      rw [hdiscard]
      exact ⟨hv, .inr (.inl ⟨rfl, hreads⟩)⟩
  · dsimp only
    rw [hdiscard]
    exact ⟨hv, .inr (.inr ⟨e, rfl, hbreaks⟩)⟩

end Compile

/-- With room for a block at all, there is some in a table without blocks. -/
theorem isFull_clear (hlength : Stubs.length ≤ t.code.capacity) (hblocks : t.maxBlocks ≠ 0) :
    t.clear.isFull = false := by
  rw [clear_eq hlength, isFull]
  simpa [bare, size] using hblocks

end BlockTable

/-- What breaks a block is a word that cannot be read, or is no instruction. -/
theorem Bus.Breaks.unreadable {β : Type} [Bus β] {e : CompileError} {limit : Nat} {pc : UInt32}
    {bus : β} (h : Breaks e limit pc bus) :
    (∃ pc cause, e = .fetch pc cause) ∨ ∃ pc word, e = .invalidInstruction pc word := by
  have hread (pc : UInt32) (bus : β) (h : (instructionAt pc bus).1 = .error e) :
      (∃ pc cause, e = .fetch pc cause) ∨ ∃ pc word, e = .invalidInstruction pc word := by
    unfold instructionAt at h
    split at h
    · cases h
      exact .inl ⟨_, _, rfl⟩
    · split at h
      · cases h
      · cases h
        exact .inr ⟨_, _, rfl⟩
  induction h with
  | here h => exact hread _ _ h
  | later _ _ _ ih => exact ih
  | slot _ _ h =>
    rcases h with h | ⟨_, _, _, h⟩
    · exact hread _ _ h
    · exact hread _ _ h

/-! ## Sessions -/

namespace Session

variable {β : Type} [Bus β] {s : Session β}

omit [Bus β] in
/-- Making room reads nothing. -/
theorem bus_makeRoom (s : Session β) :
    s.makeRoom.env.bus = s.env.bus ∧ s.makeRoom.regions = s.regions := by
  rw [makeRoom]
  split <;> exact ⟨rfl, rfl⟩

omit [Bus β] in
/-- After making room there is some. -/
theorem isFull_makeRoom (hfits : s.table.Fits s.options) (hblocks : s.options.maxBlocks ≠ 0) :
    s.makeRoom.table.isFull = false := by
  rw [table_makeRoom]
  split
  · exact BlockTable.isFull_clear hfits.length_le (hfits.maxBlocks ▸ hblocks)
  · next h =>
    cases hfull : s.table.isFull with
    | false => rfl
    | true => exact absurd (.inl hfull) h

/-- What a compilation comes to, with a second attempt where the first did not fit. -/
theorem compileRetrying_answers (hfits : s.table.Fits s.options) (hnumbered : s.table.Numbered)
    (hblocks : s.options.maxBlocks ≠ 0) (hfull : s.table.isFull = false) (addr : UInt32) :
    (s.compileRetrying addr).2.table.Numbered ∧
      ((∃ n, (s.compileRetrying addr).1 = .ok n) ∨
        (s.compileRetrying addr).1 = .error (.compile .codeSpaceExhausted) ∨
        ∃ e bus, (s.compileRetrying addr).1 = .error (.compile e) ∧ Bus.ReadsTo s.env.bus bus ∧
          Bus.Breaks e s.options.maxBlockInstructions addr bus) := by
  obtain ⟨hnumbered', hfirst⟩ := hnumbered.compile hfits.toSound hfull s.env.bus s.options
    s.regions addr
  -- The second attempt starts from a table without blocks, and reads what the first one left.
  by_cases hexhausted : (s.compileBlock addr).1 = .error (.compile .codeSpaceExhausted)
  · have hfits' := hfits.compile s.env.bus s.options s.regions addr
    have hclear : (s.table.compile s.env.bus s.options s.regions addr).table.clear.Numbered := by
      rw [BlockTable.clear_eq hfits'.length_le]
      exact BlockTable.numbered_bare _ _
    have hreads : Bus.ReadsTo s.env.bus (s.compileBlock addr).2.env.bus := by
      rcases hfirst with ⟨n, hok⟩ | ⟨-, hreads⟩ | ⟨e, he, hbreaks⟩
      · rw [result_compileBlock, hok] at hexhausted
        cases hexhausted
      · exact hreads
      · rw [result_compileBlock, he] at hexhausted
        cases hexhausted
        rcases hbreaks.unreadable with ⟨_, _, h⟩ | ⟨_, _, h⟩ <;> cases h
    rw [compileRetrying_of_exhausted hexhausted]
    obtain ⟨hlast, hsecond⟩ := hclear.compile hfits'.clear.toSound
      (BlockTable.isFull_clear hfits'.length_le (hfits'.maxBlocks ▸ hblocks))
      (s.compileBlock addr).2.env.bus s.options s.regions addr
    refine ⟨hlast, ?_⟩
    rcases hsecond with hok | ⟨hexhausted, -⟩ | ⟨e, he, hbreaks⟩
    · exact .inl hok
    · exact .inr (.inl hexhausted)
    · exact .inr (.inr ⟨e, _, he, hreads, hbreaks⟩)
  · rw [compileRetrying_of_not_exhausted hexhausted]
    refine ⟨hnumbered', ?_⟩
    rcases hfirst with hok | ⟨hexhausted, -⟩ | ⟨e, he, hbreaks⟩
    · exact .inl hok
    · exact .inr (.inl hexhausted)
    · exact .inr (.inr ⟨e, _, he, .refl, hbreaks⟩)

/-- What a session needs for its compilations to come to an answer. -/
structure Ready (o : Options) (t : BlockTable) : Prop extends t.Fits o where
  numbered : t.Numbered
  blocks : o.maxBlocks ≠ 0

theorem Ready.clear {o : Options} {t : BlockTable} (h : Ready o t) : Ready o t.clear := by
  refine ⟨h.toFits.clear, ?_, h.blocks⟩
  rw [BlockTable.clear_eq h.length_le]
  exact BlockTable.numbered_bare _ _

omit [Bus β] in
theorem ready_makeRoom (h : Ready s.options s.table) :
    Ready s.makeRoom.options s.makeRoom.table := by
  rw [options_makeRoom, table_makeRoom]
  split
  · exact h.clear
  · exact h

/-- What a compilation comes to. -/
theorem Ready.compile (h : Ready s.options s.table) (addr : UInt32) :
    Ready s.options (s.compile addr).2.table ∧
      ((∃ n, (s.compile addr).1 = .ok n) ∨
        (s.compile addr).1 = .error (.compile .codeSpaceExhausted) ∨
        ∃ e bus, (s.compile addr).1 = .error (.compile e) ∧ Bus.ReadsTo s.env.bus bus ∧
          Bus.Breaks e s.options.maxBlockInstructions addr bus) := by
  cases hnumber : s.table.number? addr with
  | some n =>
    rw [compile_of_some hnumber]
    exact ⟨h, .inl ⟨n, rfl⟩⟩
  | none =>
    obtain ⟨hresult, htable, -⟩ := compile_of_none hnumber
    have hroom := ready_makeRoom h
    obtain ⟨hnumbered, hanswers⟩ := compileRetrying_answers hroom.toFits hroom.numbered hroom.blocks
      (isFull_makeRoom h.toFits h.blocks) addr
    refine ⟨⟨fits_compile h.toFits addr, htable ▸ hnumbered, h.blocks⟩, ?_⟩
    rw [hresult]
    rcases hanswers with ⟨n, hok⟩ | hexhausted | ⟨e, bus, he, hreads, hbreaks⟩
    · exact .inl ⟨n, by rw [hok]; rfl⟩
    · exact .inr (.inl (by rw [hexhausted]; rfl))
    · refine .inr (.inr ⟨e, bus, by rw [he]; rfl, (bus_makeRoom s).1 ▸ hreads, ?_⟩)
      rw [options_makeRoom] at hbreaks
      exact hbreaks

theorem Reachable.ready {allowed : SessionError → Prop} (hs : s.Reachable allowed) :
    Ready s.options s.table := by
  refine hs.table (fun bus options available s h => ?_) (fun s addr h _ => (h.compile addr).1)
    fun o t h => h.clear
  obtain ⟨hvalidate, hlength, hrun, rfl⟩ := create_eq_ok h
  exact ⟨BlockTable.fits_bare hlength (Nat.le_trans hrun (Nat.min_le_right _ _)) rfl rfl,
    BlockTable.numbered_bare _ _, (Options.accepted_of_validate hvalidate).blocks⟩

/-- Whatever a host did before, and whatever guest memory holds: compiling the block at an address
gives its number, or there is no space for its code, or a word of the straight run from the address,
the delay slot at its end included, cannot be read or is no instruction. No contract is broken, and
no other error comes up. -/
theorem Reachable.compile_answers {allowed : SessionError → Prop} (hs : s.Reachable allowed)
    (addr : UInt32) :
    (∃ n, (s.compile addr).1 = .ok n) ∨
      (s.compile addr).1 = .error (.compile .codeSpaceExhausted) ∨
      ∃ e bus, (s.compile addr).1 = .error (.compile e) ∧
        ((∃ pc cause, e = .fetch pc cause) ∨ ∃ pc word, e = .invalidInstruction pc word) ∧
        Bus.ReadsTo s.env.bus bus ∧ Bus.Breaks e s.options.maxBlockInstructions addr bus := by
  rcases (hs.ready.compile addr).2 with hok | hexhausted | ⟨e, bus, he, hreads, hbreaks⟩
  · exact .inl hok
  · exact .inr (.inl hexhausted)
  · exact .inr (.inr ⟨e, bus, he, hbreaks.unreadable, hreads, hbreaks⟩)

/-- A session that compiled a block before, asked for one outside its memory. -/
theorem compile_answers_of_compiled :
    let s : Session FlatMemory := ((unused (FlatMemory.zeros 0 64 0) Options.standard).compile 0).2
    s.Reachable (fun _ => True) ∧
      ((∃ n, (s.compile 0x1000).1 = .ok n) ∨
        (s.compile 0x1000).1 = .error (.compile .codeSpaceExhausted) ∨
        ∃ e bus, (s.compile 0x1000).1 = .error (.compile e) ∧
          ((∃ pc cause, e = .fetch pc cause) ∨ ∃ pc word, e = .invalidInstruction pc word) ∧
          Bus.ReadsTo s.env.bus bus ∧ Bus.Breaks e s.options.maxBlockInstructions 0x1000 bus) := by
  intro s
  have hnew : Reachable (fun _ => True) (unused (FlatMemory.zeros 0 64 0) Options.standard) :=
    .create (create_of_valid rfl (by decide) (by decide))
  have hs : s.Reachable (fun _ => True) := .compile hnew 0 fun _ _ => trivial
  exact ⟨hs, hs.compile_answers 0x1000⟩

end Session

end Recompiler
