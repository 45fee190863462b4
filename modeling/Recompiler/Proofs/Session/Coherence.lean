import Recompiler.Proofs.Block.Coherent
import Recompiler.Proofs.Memory.Rom
import Recompiler.Proofs.Session.Reachable

/-!
# Coherent sessions

As long as no block fails to compile, the table of a session is coherent: index, blocks, exits and
code agree.

* `Session.OnlyFaults`: the errors that are not about blocks.
* `Session.Reachable.coherent`: the invariant of reachable sessions.
* `Session.Reachable.blocks_and_links`: what it means for the bytes of the code.
-/

namespace Recompiler

/-- A table without blocks is coherent. -/
theorem BlockTable.coherent_bare (link : Bool) (capacity maxBlocks : Nat) :
    (bare capacity maxBlocks).Coherent link := by
  have hblock (n : Nat) (b : Block) : (bare capacity maxBlocks).blocks[n]? ≠ some b := by
    simp [bare]
  have hnumber (addr : UInt32) (n : Nat) : (bare capacity maxBlocks).number? addr ≠ some n := by
    simp [bare, number?]
  refine ⟨fun addr n => ⟨fun h => absurd h (hnumber addr n), ?_⟩, Nat.zero_le _,
    (size_code_bare capacity maxBlocks).symm, ?_, fun _ _ => rfl, ⟨?_, ?_, ?_⟩, ?_, ?_, ?_⟩
  · rintro ⟨b, hb, -⟩
    exact absurd hb (hblock n b)
  · rw [size_code_bare]
    rfl
  · exact fun n b hb => absurd hb (hblock n b)
  · exact fun n b hb => absurd hb (hblock n b)
  · exact fun n b hb => absurd hb (hblock n b)
  · exact fun n b hb => absurd hb (hblock n b)
  · exact fun _ n b hb => absurd hb (hblock n b)
  · simp [bare]

namespace Session

variable {β : Type} [Bus β] {s : Session β}

/-- The error is a refused instruction, and no failure on blocks. -/
def OnlyFaults (e : SessionError) : Prop :=
  ∃ pc word, e = .hardFault pc word

omit [Bus β] in
theorem not_onlyFaults_ofFailure (f : Failure) : ¬ OnlyFaults (.ofFailure f) := by
  rintro ⟨pc, word, h⟩
  cases f <;> cases h

/-- The guest memory that a block gets lowered from, if there is none at the address yet. If the block
does not fit at first, it is what the first attempt leaves. -/
def lowered (s : Session β) (addr : UInt32) : β :=
  match s.makeRoom.compileBlock addr with
  | (.error (.compile .codeSpaceExhausted), s') => s'.env.bus
  | _ => s.env.bus

theorem lowered_of_exhausted {addr : UInt32}
    (h : (s.makeRoom.compileBlock addr).1 = .error (.compile .codeSpaceExhausted)) :
    s.lowered addr = (s.makeRoom.compileBlock addr).2.env.bus := by
  unfold lowered
  split
  · next s' hcompile => rw [hcompile]
  · next hne => exact (hne _ (Prod.ext h rfl)).elim

theorem lowered_of_not_exhausted {addr : UInt32}
    (h : (s.makeRoom.compileBlock addr).1 ≠ .error (.compile .codeSpaceExhausted)) :
    s.lowered addr = s.env.bus := by
  unfold lowered
  split
  · next s' hcompile => exact absurd (congrArg Prod.fst hcompile) h
  · rfl

/-- A block that is not there gets compiled into the table as it is, or into a new one if room was made
before or the block did not fit. -/
theorem exists_attempt (hfits : s.table.Fits s.options) {addr : UInt32}
    (hnone : s.table.number? addr = none) :
    ∃ t : BlockTable, (t = s.table ∨ t = .bare s.options.codeSize s.options.maxBlocks) ∧
      t.Fits s.options ∧ t.number? addr = none ∧
      (s.compile addr).1 =
        (t.compile (s.lowered addr) s.options s.regions addr).result.mapError .ofFailure ∧
      (s.compile addr).2.table = (t.compile (s.lowered addr) s.options s.regions addr).table := by
  -- Dropping the blocks leaves a new table.
  have hclear (t : BlockTable) (ht : t.Fits s.options) :
      t.clear = .bare s.options.codeSize s.options.maxBlocks := by
    rw [BlockTable.clear_eq ht.length_le, ht.codeSize, ht.maxBlocks]
  have hbare : BlockTable.number? (.bare s.options.codeSize s.options.maxBlocks) addr = none := by
    simp [BlockTable.bare, BlockTable.number?]
  have hroom : s.makeRoom.table.Fits s.options ∧ (s.makeRoom.table = s.table ∨
      s.makeRoom.table = .bare s.options.codeSize s.options.maxBlocks) := by
    rw [table_makeRoom]
    split
    · exact ⟨hfits.clear, .inr (hclear _ hfits)⟩
    · exact ⟨hfits, .inl rfl⟩
  have hoptions : s.makeRoom.options = s.options := options_makeRoom s
  have hguest : s.makeRoom.env.bus = s.env.bus ∧ s.makeRoom.regions = s.regions := by
    rw [makeRoom]
    split <;> exact ⟨rfl, rfl⟩
  obtain ⟨hresult, htable, -⟩ := compile_of_none hnone
  rw [hresult, htable]
  -- The table of the last attempt is the one: a cleared one if the first did not fit.
  by_cases hexhausted : (s.makeRoom.compileBlock addr).1 = .error (.compile .codeSpaceExhausted)
  · have hfits' : (s.makeRoom.compileBlock addr).2.table.Fits s.options := hroom.1.compile _ _ _ _
    have hcleared := hclear _ hfits'
    rw [compileRetrying_of_exhausted hexhausted]
    refine ⟨_, .inr hcleared, hfits'.clear, hcleared ▸ hbare, ?_⟩
    rw [lowered_of_exhausted hexhausted, ← hoptions, ← hguest.2]
    exact ⟨rfl, rfl⟩
  · rw [compileRetrying_of_not_exhausted hexhausted]
    refine ⟨_, hroom.2, hroom.1, number?_makeRoom hnone, ?_⟩
    rw [lowered_of_not_exhausted hexhausted, ← hguest.1, ← hoptions, ← hguest.2]
    exact ⟨rfl, rfl⟩

omit [Bus β] in
/-- Where a block gets compiled, the attempt gave its number. -/
theorem result_of_attempt {c : Compilation β} {n : Nat}
    (h : c.result.mapError SessionError.ofFailure = .ok n) : c.result = .ok n := by
  cases hresult : c.result with
  | ok m =>
    rw [hresult] at h
    cases h
    rfl
  | error f =>
    rw [hresult] at h
    cases h

/-- Compiling a block keeps a table coherent, be it at once or after making room. -/
theorem coherent_compile (hfits : s.table.Fits s.options)
    (hc : s.table.Coherent s.options.enableBlockLink) {addr : UInt32} {n : Nat}
    (h : (s.compile addr).1 = .ok n) :
    (s.compile addr).2.table.Coherent s.options.enableBlockLink := by
  cases hnumber : s.table.number? addr with
  | some m =>
    rw [compile_of_some hnumber]
    exact hc
  | none =>
    obtain ⟨t, ht, hfits', hnone, hresult, htable⟩ := exists_attempt hfits hnumber
    have hcoherent : t.Coherent s.options.enableBlockLink := by
      rcases ht with rfl | rfl
      · exact hc
      · exact BlockTable.coherent_bare _ _ _
    rw [htable]
    exact hcoherent.compile hfits'.toSound hnone (result_of_attempt (hresult.symm.trans h))

/-- A block that can be lowered and for which there is room gets compiled. -/
theorem compile_of_lower (hfits : s.table.Fits s.options)
    (hc : s.table.Coherent s.options.enableBlockLink) {addr : UInt32}
    (hnumber : s.table.number? addr = none) (hfull : s.table.isFull = false)
    (hspace : s.options.reservedCodeMargin ≤ s.table.spaceLeft)
    (hok : (s.table.lower s.env.bus s.options s.regions addr).1 = .ok ())
    (hclean : (s.table.extended
      (s.table.lower s.env.bus s.options s.regions addr).2).code.overflowed = false) :
    (s.compile addr).1 = .ok s.table.size ∧
      (s.table.grown addr (s.table.lower s.env.bus s.options s.regions addr).2).Relinks
        (s.compile addr).2.table := by
  -- Nothing needs to be cleared: there is a free slot, and the margin is left.
  have hroom : s.makeRoom = s := by
    rw [makeRoom, if_neg]
    rintro (h | h)
    · rw [hfull] at h
      cases h
    · omega
  obtain ⟨u, events, hfinalize, -, _, hlinks⟩ :=
    hc.finalize hfits.toSound hnumber hfull hok hclean
  have hresult : (s.table.compile s.env.bus s.options s.regions addr).result =
      .ok s.table.size ∧
        (s.table.compile s.env.bus s.options s.regions addr).table = u := by
    rw [BlockTable.compile_of_not_full hfull]
    generalize s.table.lower s.env.bus s.options s.regions addr = l at hok hclean hfinalize ⊢
    obtain ⟨outcome, r⟩ := l
    dsimp only at hok hclean hfinalize ⊢
    rw [hok, hclean]
    dsimp only
    rw [hfinalize]
    exact ⟨rfl, rfl⟩
  obtain ⟨hcompile, htable, -⟩ := compile_of_none hnumber
  rw [hcompile, htable, hroom, compileRetrying_of_not_exhausted, result_compileBlock,
    table_compileBlock, hresult.1, hresult.2]
  · exact ⟨rfl, hlinks.toRelinks⟩
  · rw [result_compileBlock, hresult.1]
    exact fun h => by cases h

/-- What keeps a block from being compiled is a failure on blocks. -/
theorem exists_failure_of_compile {addr : UInt32} {e : SessionError}
    (h : (s.compile addr).1 = .error e) : ∃ f, e = .ofFailure f := by
  cases hnumber : s.table.number? addr with
  | some n =>
    rw [compile_of_some hnumber] at h
    cases h
  | none =>
    rw [(compile_of_none hnumber).1] at h
    cases hresult : (s.makeRoom.compileRetrying addr).1 with
    | ok n =>
      rw [hresult] at h
      cases h
    | error f =>
      rw [hresult] at h
      cases h
      exact ⟨f, rfl⟩

/-- While no block fails to compile, tables are coherent. -/
theorem Reachable.coherent (hs : s.Reachable OnlyFaults) :
    s.table.Coherent s.options.enableBlockLink := by
  refine (Reachable.table (I := fun o t => t.Fits o ∧ t.Coherent o.enableBlockLink)
    (fun bus options available s h => ?_) (fun s addr hs hresult => ?_) (fun o t ht => ?_) hs).2
  · obtain ⟨-, hlength, hrun, rfl⟩ := create_eq_ok h
    exact ⟨BlockTable.fits_bare hlength (Nat.le_trans hrun (Nat.min_le_right _ _)) rfl rfl,
      BlockTable.coherent_bare _ _ _⟩
  · refine ⟨fits_compile hs.1 addr, ?_⟩
    cases hcompile : (s.compile addr).1 with
    | ok n => exact coherent_compile hs.1 hs.2 hcompile
    | error e =>
      obtain ⟨f, rfl⟩ := exists_failure_of_compile hcompile
      exact absurd (hresult _ hcompile) (not_onlyFaults_ofFailure f)
  · refine ⟨ht.1.clear, ?_⟩
    rw [BlockTable.clear_eq ht.1.length_le]
    exact BlockTable.coherent_bare _ _ _

/-- In every state that is reached without a failed compilation, and in at most two gibibytes of
code: the index holds the starts of the blocks, each once; the code of the blocks follows the stubs
without gaps up to the end of the arena; each exit is a jump inside its block, to the entry of the
block at its target if it is marked and to the dispatcher if not; and the exits are marked whose
targets have blocks, if blocks are linked at all. -/
theorem Reachable.blocks_and_links (hs : s.Reachable OnlyFaults)
    (hsize : s.options.codeSize ≤ 0x80000000) :
    let t := s.table
    (∀ (addr : UInt32) (n : Nat), t.byStart[addr]? = some n ↔
        ∃ b : Block, t.blocks[n]? = some b ∧ b.start = addr) ∧
      t.blocks.size ≤ s.options.maxBlocks ∧
      (t.stubs = Stubs.standard ∧ ∀ i < Stubs.length, t.code.written[i]? = Stubs.code[i]?) ∧
      BlockTable.Tiles Stubs.length t.blocks.toList t.code.size ∧
      ∀ (n : Nat) (b : Block), t.blocks[n]? = some b → ∀ e ∈ b.exits,
        (b.checkedEntry ≤ e.offset ∧ e.offset + 5 ≤ b.checkedEntry + b.codeSize) ∧
        t.code.written[e.offset]? = some 0xE9 ∧
        (if e.linked then ∃ m b', t.byStart[e.target]? = some m ∧ t.blocks[m]? = some b' ∧
            b'.start = e.target ∧ t.code.destination? e.offset = some (b'.normalEntry : Int)
          else t.code.destination? e.offset = some (t.stubs.dispatcher : Int)) ∧
        e.linked = (s.options.enableBlockLink && t.byStart[e.target]?.isSome) := by
  intro t
  have hfits : t.Fits s.options := hs.fits
  have hc : t.Coherent s.options.enableBlockLink := hs.coherent
  have hroom : t.code.size ≤ 0x80000000 :=
    Nat.le_trans hfits.room (Nat.le_trans (Nat.le_of_eq hfits.codeSize) hsize)
  refine ⟨hc.indexed, Nat.le_trans hc.few (Nat.le_of_eq hfits.maxBlocks),
    ⟨hfits.standard, hc.stubs⟩, hc.tiles, fun n b hb e he => ?_⟩
  -- Where an exit leads is read off the bytes of its jump.
  obtain ⟨aim, haim, hleads⟩ := hc.wired.leads n b hb e he
  refine ⟨hc.wired.within n b hb e he, ?_, ?_, hc.linked n b hb e he⟩
  · exact (hasBytes_jump.1 hleads).1 0 (by simp)
  · rw [BlockTable.aim?] at haim
    split
    · next hlinked =>
      rw [if_pos hlinked] at haim
      obtain ⟨b', hb', rfl⟩ := Option.map_eq_some_iff.1 haim
      obtain ⟨m, hm, hmb⟩ := Option.bind_eq_some_iff.1 hb'
      obtain ⟨b'', hb'', hstart⟩ := (hc.indexed e.target m).1 hm
      obtain rfl : b' = b'' := Option.some.inj (hmb.symm.trans hb'')
      have hmem := hc.tiles.mem (List.mem_of_getElem? (Array.getElem?_toList ▸ hb''))
      exact ⟨m, b', hm, hb'', hstart, (Arena.destination?_of_leads hleads hroom (by omega)).2⟩
    · next hlinked =>
      rw [if_neg hlinked] at haim
      cases haim
      refine (Arena.destination?_of_leads hleads hroom ?_).2
      rw [hfits.standard]
      decide

/-- A guest that jumps on the spot. -/
def spinning : Rom :=
  ⟨fun addr => if addr = 0x1000 then 0x08000400 else 0⟩

/-- Options with an arena of one kibibyte. -/
def small : Options :=
  { Options.standard with codeSize := 1024, reservedCodeMargin := 0 }

/-- Its block, lowered while there is no other. -/
def spun : Except Failure Unit × Lowering Rom :=
  (Lower.block 0x1000).exec ⟨small, [], Stubs.standard, fun _ => none⟩ (.initial spinning 0x1000)

/-- The block gets compiled. -/
theorem compile_spinning :
    ((unused spinning small).compile 0x1000).1 = .ok 0 ∧
      ((unused spinning small).table.grown 0x1000 spun.2).Relinks
        ((unused spinning small).compile 0x1000).2.table ∧
      (((unused spinning small).table.extended spun.2).exits.map (·.target)) = #[0x1000] := by
  have hunused : Reachable OnlyFaults (unused spinning small) :=
    .create (create_of_valid rfl (by decide) (by decide))
  -- There is no block to link to yet.
  have hentry : ((unused spinning small).table.opened 0x1000).entryAt 0 = fun _ => none := by
    funext x
    simp [unused, BlockTable.entryAt, BlockTable.number?, BlockTable.opened, BlockTable.bare]
  have hlower : (unused spinning small).table.lower (unused spinning small).env.bus
      (unused spinning small).options (unused spinning small).regions 0x1000 = spun := by
    rw [spun, ← hentry]
    rfl
  have hcheck : spun.1.isOk = true ∧
      ((unused spinning small).table.extended spun.2).code.overflowed = false ∧
      ((unused spinning small).table.extended spun.2).exits.map (·.target) = #[0x1000] := by
    decide +kernel
  have hnumber : (unused spinning small).table.number? 0x1000 = none := by
    simp [unused, BlockTable.number?, BlockTable.bare]
  have hroom : (unused spinning small).table.isFull = false ∧
      (unused spinning small).options.reservedCodeMargin ≤
        (unused spinning small).table.spaceLeft ∧
      (unused spinning small).table.size = 0 := by decide +kernel
  clear hentry
  -- From here on nothing is computed.
  generalize unused spinning small = s at hunused hlower hcheck hnumber hroom ⊢
  generalize spun = l at hlower hcheck ⊢
  obtain ⟨hisOk, hclean, hexits⟩ := hcheck
  obtain ⟨hfull, hspace, hzero⟩ := hroom
  have hok : (s.table.lower s.env.bus s.options s.regions 0x1000).1 = .ok () := by
    rw [hlower]
    cases h : l.1 with
    | ok u => rfl
    | error e =>
      rw [h] at hisOk
      cases hisOk
  rw [← hlower] at hclean hexits
  obtain ⟨hresult, hrelinks⟩ :=
    compile_of_lower hunused.fits hunused.coherent hnumber hfull hspace hok hclean
  rw [hlower] at hrelinks hexits
  exact ⟨hzero ▸ hresult, hrelinks, hexits⟩

/-- The exit of a block that jumps on the spot leads to the entry of the block. -/
theorem blocks_and_links_of_spinning :
    ∃ s : Session Rom, s.Reachable OnlyFaults ∧
      ∃ b e, s.table.blocks[0]? = some b ∧ b.start = 0x1000 ∧ e ∈ b.exits ∧ e.target = 0x1000 ∧
        s.table.code.destination? e.offset = some (b.normalEntry : Int) := by
  have hunused : Reachable OnlyFaults (unused spinning small) :=
    .create (create_of_valid rfl (by decide) (by decide))
  obtain ⟨hresult, hrelinks, hexits⟩ := compile_spinning
  have hzero : (unused spinning small).table.size = 0 := by decide +kernel
  have hoptions : (unused spinning small).options.codeSize ≤ 0x80000000 ∧
      (unused spinning small).options.enableBlockLink = true := by decide
  -- From here on nothing is computed.
  generalize unused spinning small = s at hunused hresult hrelinks hexits hzero hoptions
  generalize spun = l at hrelinks hexits
  rw [← options_compile s 0x1000] at hoptions
  have hreachable := hunused.compile 0x1000 fun e he => by rw [hresult] at he; cases he
  obtain ⟨hindex, -, -, -, hlinks⟩ := hreachable.blocks_and_links hoptions.1
  have hmem : (0x1000 : UInt32) ∈ (s.table.newBlock 0x1000 l.2).exits.map (·.target) := by
    rw [show Array.map _ (s.table.newBlock 0x1000 _).exits = _ from hexits]
    exact Array.mem_singleton.2 rfl
  obtain ⟨e₀, he₀, htarget₀⟩ := Array.mem_map.1 hmem
  obtain ⟨b, hb, hblock, e, he, -, htarget⟩ :=
    hrelinks.exists_exit (n := s.table.size) Array.getElem?_push_size he₀
  rw [hzero] at hb
  have hstart : b.start = 0x1000 := congrArg (·.start) hblock
  have hindexed := (hindex 0x1000 0).2 ⟨b, hb, hstart⟩
  obtain ⟨-, -, hleads, hmark⟩ := hlinks 0 b hb e he
  rw [htarget, htarget₀, hindexed, hoptions.2] at hmark
  have hlinked : e.linked = true := hmark
  rw [if_pos hlinked, htarget, htarget₀, hindexed] at hleads
  obtain ⟨m, b', hm, hb', -, hdestination⟩ := hleads
  cases hm
  obtain rfl : b = b' := Option.some.inj (hb.symm.trans hb')
  exact ⟨_, hreachable, b, e, hb, hstart, he, htarget.trans htarget₀, hdestination⟩

end Session

end Recompiler
