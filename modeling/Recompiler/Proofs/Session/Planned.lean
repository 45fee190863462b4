import Recompiler.Proofs.Block.Relocation
import Recompiler.Proofs.Memory.Mirrored
import Recompiler.Proofs.Session.Sourced

/-!
# Compilations and the past

What comes of compiling a block is settled by its words, the options and the regions. Neither the
blocks that are there, nor where the arena ends, nor a failure before that makes a difference.

* `Bus.SameWords`: two guests with the same words.
* `Planned`: what is to come of a compilation, by the lowering and the room for it.
* `BlockTable.compile_planned`: what comes of it in a table.
* `Session.compile_planned`: what comes of it in a session, which makes room where there is too little.
* `Session.Reachable.compile_as_created`: the same comes of it in a new session.
-/

namespace Recompiler

variable {β : Type} [Bus β]

/-! ## Guests with the same words -/

/-- The words of the two guests are the same, whatever is read before. -/
def Bus.SameWords (bus bus' : β) : Prop :=
  ∀ b b', ReadsTo bus b → ReadsTo bus' b' → ∀ addr : UInt32,
    (Bus.read .word addr b').1 = (Bus.read .word addr b).1

namespace Bus.SameWords

variable {bus bus' bus'' : β}

theorem reads (h : SameWords bus bus') {b b' : β} (hb : ReadsTo bus b) (hb' : ReadsTo bus' b') :
    SameWords b b' :=
  fun c c' hc hc' => h c c' (hb.trans hc) (hb'.trans hc')

theorem symm (h : SameWords bus bus') : SameWords bus' bus :=
  fun b b' hb hb' addr => (h b' b hb' hb addr).symm

theorem trans (h : SameWords bus bus') (h' : SameWords bus' bus'') : SameWords bus bus'' :=
  fun b b'' hb hb'' addr => (h' bus' b'' .refl hb'' addr).trans (h b bus' hb .refl addr)

/-- A guest that reading leaves as it is. -/
theorem of_harmless (hharmless : Bus.Harmless β) (bus : β) : SameWords bus bus := by
  have heq {b : β} (h : ReadsTo bus b) : b = bus := by
    induction h with
    | refl => rfl
    | read _ width addr ih => rw [hharmless, ih]
  intro b b' hb hb' addr
  rw [heq hb, heq hb']

end Bus.SameWords

theorem Bus.matched_sameWords : Bus.Matched (SameWords : β → β → Prop) := fun bus bus' h addr =>
  ⟨h bus bus' .refl .refl addr, h.reads (.read .refl .word addr) (.read .refl .word addr)⟩

/-! ## Tables -/

omit [Bus β] in
/-- What is to come of a compilation, by the lowering of the block and the room there is for it: a
block of the shape of the lowering, no block for want of room, or the failure of the lowering. -/
def Planned (room : Nat) (lowered : Except Failure Unit × Lowering β) (result : Except Failure Nat)
    (t : BlockTable) : Prop :=
  match lowered.1 with
  | .error f => result = .error f
  | .ok () =>
    if lowered.2.length ≤ room then
      ∃ n b, result = .ok n ∧ t.block? n = some b ∧ b.shape = lowered.2.shape
    else result = .error (.compile .codeSpaceExhausted)

namespace BlockTable

variable {t : BlockTable} {bus bus' : β} {o : Options} {regions : List FastRegion}
  {start : UInt32}

omit [Bus β] in
/-- The table is ready for another block, which is to begin where the code ends. -/
structure Level (t : BlockTable) : Prop extends t.Sound where
  numbered : t.Numbered
  aligned : Lower.blockAlignment ∣ t.code.size

/-- There is room for a block exactly if none of its code is dropped. -/
theorem clean_extended (ht : t.Level) (hok : (t.lower bus o regions start).1 = .ok ()) :
    (t.extended (t.lower bus o regions start).2).code.overflowed = false ↔
      (t.lower bus o regions start).2.length ≤ t.spaceLeft := by
  have hroom := ht.size_add_spaceLeft
  have hassemble := Arena.overflowed_assemble (a := { t.code with limit := t.code.capacity })
    ht.clean ht.room (t.lower bus o regions start).2.code
  rw [extended, reserved_eq ht.room, hassemble]
  change Layout.stop t.code.size _ ≤ t.code.capacity ↔ _
  rw [stop_lower ht.aligned hok]
  omega

/-- Reading the block is all that a compilation does to the guest. -/
theorem bus_compile (hfull : t.isFull = false) :
    (t.compile bus o regions start).bus = (t.lower bus o regions start).2.bus := by
  rw [compile_of_not_full hfull]
  generalize t.lower bus o regions start = l
  obtain ⟨outcome, r⟩ := l
  dsimp only
  split <;> split <;> rfl

/-- What comes of a compilation in a table, and that the table stays level. -/
theorem compile_planned (ht : t.Level) (hfull : t.isFull = false) (bus : β) (o : Options)
    (regions : List FastRegion) (start : UInt32) :
    Planned t.spaceLeft (t.lower bus o regions start) (t.compile bus o regions start).result
        (t.compile bus o regions start).table ∧
      Lower.blockAlignment ∣ (t.compile bus o regions start).table.code.size := by
  have hlonger := size_entry_le_extended ht.toSound bus o regions start
  have hclean := @clean_extended β _ t bus o regions start ht
  have hshape := @shape_newBlock β _ t bus o regions start ht.toSound ht.aligned
  have hlaid := @laidOut_extended β t _ bus o regions start ht.toSound
  rw [Planned, compile_of_not_full hfull]
  generalize t.lower bus o regions start = l at hlonger hclean hshape hlaid ⊢
  obtain ⟨outcome, r⟩ := l
  -- A block that cannot be published is discarded, which leaves the size of the code as it was.
  obtain ⟨v, hdiscard, -⟩ := ht.numbered.discard_assembled ht.toSound start r
  have hdiscarded : v.code.size = t.code.size := by
    rw [discard_assembled] at hdiscard
    split at hdiscard
    · cases hdiscard
    · cases hdiscard
      have hgrown := size_extended ht.room r
      exact (Arena.size_truncate _ _).trans (Nat.min_eq_left hgrown.1)
  dsimp only at hlonger hclean hshape hlaid ⊢
  cases outcome with
  | error f =>
    dsimp only
    rw [hdiscard]
    exact ⟨rfl, hdiscarded ▸ ht.aligned⟩
  | ok a =>
    dsimp only
    -- Nothing was dropped exactly if the lowered code fits into the space that is left.
    by_cases hfits : r.length ≤ t.spaceLeft
    · have hclean' := (hclean rfl).2 hfits
      obtain ⟨hnew, henlisted⟩ := enlisted_assembled ht.toSound start r
      have hin : t.size < (t.assembled start r).size := by
        rw [show (t.assembled start r).size = t.size + 1 from Array.size_push _]
        exact Nat.lt_succ_self _
      obtain ⟨u, events, hfinalize, -⟩ := (ht.numbered.assembled start r
        (Nat.lt_of_lt_of_le (by omega) (hlonger rfl hclean'))).finalize hin o.enableBlockLink
      have hrelinks := relinks_finalize hnew hfinalize
      rw [henlisted] at hrelinks
      obtain ⟨b, hb, hunlinked⟩ := hrelinks.exists_block
        (show (t.grown start r).blocks[t.size]? = _ from Array.getElem?_push_size)
      rw [hclean']
      dsimp only
      rw [hfinalize, if_pos hfits]
      refine ⟨⟨t.size, b, rfl, hb, ?_⟩, ?_⟩
      · exact (Block.shape_eq_of_unlinked hunlinked).trans (hshape rfl hclean')
      · obtain ⟨more, hcode, -, hlaid⟩ := hlaid rfl hclean'
        dsimp only
        rw [hrelinks.code.size]
        change _ ∣ (t.extended r).code.size
        rw [hlaid.size]
        exact Nat.dvd_of_mod_eq_zero (Layout.stop_align _ _ _ (by decide))
    · have hdropped : (t.extended r).code.overflowed = true := by
        rw [← Bool.not_eq_false]
        exact fun h => hfits ((hclean rfl).1 h)
      rw [hdropped]
      dsimp only
      rw [hdiscard, if_neg hfits]
      exact ⟨rfl, hdiscarded ▸ ht.aligned⟩

end BlockTable

/-! ## Sessions -/

namespace Session

variable {s : Session β} {bus : β} {addr : UInt32}

/-- The lowering of a block, as a session would do it that has no blocks yet. -/
def plan (bus : β) (o : Options) (regions : List FastRegion) (addr : UInt32) :
    Except Failure Unit × Lowering β :=
  (BlockTable.bare o.codeSize o.maxBlocks).lower bus o regions addr

/-- Where a table is and what it is for. -/
structure Levelled (s : Session β) : Prop where
  ready : Ready s.options s.table
  aligned : Lower.blockAlignment ∣ s.table.code.size

omit [Bus β] in
theorem Levelled.level (h : s.Levelled) : s.table.Level :=
  ⟨h.ready.toSound, h.ready.numbered, h.aligned⟩

theorem Sourced.levelled {known : UInt32 → β → Prop} (h : s.Sourced known) : s.Levelled :=
  ⟨h.ready, Nat.dvd_of_mod_eq_zero h.coherent.aligned⟩

omit [Bus β] in
theorem Levelled.clear (h : s.Levelled) : Levelled { s with table := s.table.clear } := by
  refine ⟨h.ready.clear, ?_⟩
  rw [BlockTable.clear_eq h.ready.length_le, BlockTable.size_code_bare]
  decide

omit [Bus β] in
theorem levelled_makeRoom (h : s.Levelled) : s.makeRoom.Levelled := by
  unfold makeRoom
  split
  · exact ⟨h.clear.ready, h.clear.aligned⟩
  · exact h

/-- A table's lowering of a block is that of a table without blocks. -/
theorem lower_plan (h : s.Levelled) (addr : UInt32) {bus' : β}
    (hwords : Bus.SameWords bus bus') :
    (s.table.lower bus' s.options s.regions addr).1 = (plan bus s.options s.regions addr).1 ∧
      (plan bus s.options s.regions addr).2.Resembles
        (s.table.lower bus' s.options s.regions addr).2 := by
  have hlower := @BlockTable.lower_elsewhere β _ (.bare s.options.codeSize s.options.maxBlocks)
    s.table bus bus' s.options s.options s.regions addr (.refl _) h.ready.standard _
    Bus.matched_sameWords hwords
  exact ⟨hlower.1, hlower.2.1⟩

/-- Whatever comes of a compilation, the session stays level. -/
theorem levelled_compileBlock (h : s.Levelled) (hfull : s.table.isFull = false) (addr : UInt32) :
    (s.compileBlock addr).2.Levelled := by
  have hnumbered := (h.ready.numbered.compile h.ready.toSound hfull s.env.bus s.options s.regions
    addr).1
  exact ⟨⟨h.ready.toFits.compile _ _ _ _, hnumbered, h.ready.blocks⟩,
    (BlockTable.compile_planned h.level hfull _ _ _ addr).2⟩

/-- The session that a block is compiled in for the second time is level, and has room. -/
theorem levelled_retried (h : s.Levelled) (hfull : s.table.isFull = false) (addr : UInt32) :
    (s.retried addr).Levelled ∧ (s.retried addr).table.isFull = false ∧
      (s.retried addr).table.spaceLeft = s.options.codeSize - Stubs.length := by
  have hlevelled := levelled_compileBlock h hfull addr
  have hfits := hlevelled.ready.toFits
  exact ⟨⟨hlevelled.clear.ready, hlevelled.clear.aligned⟩,
    BlockTable.isFull_clear hfits.length_le (hfits.maxBlocks ▸ h.ready.blocks),
    hfits.spaceLeft_clear⟩

theorem levelled_compileRetrying (h : s.Levelled) (hfull : s.table.isFull = false)
    (addr : UInt32) : (s.compileRetrying addr).2.Levelled := by
  by_cases hexhausted : (s.compileBlock addr).1 = .error (.compile .codeSpaceExhausted)
  · obtain ⟨hretried, hfull', -⟩ := levelled_retried h hfull addr
    rw [compileRetrying_of_exhausted hexhausted]
    exact levelled_compileBlock hretried hfull' addr
  · rw [compileRetrying_of_not_exhausted hexhausted]
    exact levelled_compileBlock h hfull addr

theorem levelled_compile (h : s.Levelled) (addr : UInt32) : (s.compile addr).2.Levelled := by
  constructor
  · rw [options_compile]
    exact (h.ready.compile addr).1
  · cases hnumber : s.table.number? addr with
    | some n =>
      rw [compile_of_some hnumber]
      exact h.aligned
    | none =>
      rw [(compile_of_none hnumber).2.1]
      exact (levelled_compileRetrying (levelled_makeRoom h)
        (isFull_makeRoom h.ready.toFits h.ready.blocks) addr).aligned

theorem Reachable.levelled {allowed : SessionError → Prop} (hs : s.Reachable allowed) :
    s.Levelled := by
  refine hs.keeps (I := Levelled) (fun bus options available s h => ?_) (fun s env h => ⟨h.ready, h.aligned⟩)
    (fun s addr h _ => levelled_compile h addr) fun s h => h.clear
  have hnew : Reachable (fun _ => True) s := .create h
  refine ⟨hnew.ready, ?_⟩
  obtain ⟨-, -, -, rfl⟩ := create_eq_ok h
  rw [unused, BlockTable.size_code_bare]
  decide

/-- What a compilation without a second attempt comes to. -/
theorem compileBlock_planned (h : s.Levelled) (hfull : s.table.isFull = false) (addr : UInt32)
    (hwords : Bus.SameWords bus s.env.bus) :
    Planned s.table.spaceLeft (plan bus s.options s.regions addr) (s.compileBlock addr).1
      (s.compileBlock addr).2.table := by
  have hplanned := (BlockTable.compile_planned h.level hfull s.env.bus s.options s.regions addr).1
  obtain ⟨houtcome, hresembles⟩ := lower_plan h addr hwords
  rw [Planned, houtcome, hresembles.length_eq, hresembles.shape_eq] at hplanned
  exact hplanned

/-- What a compilation comes to, with a second attempt where the first did not fit. -/
theorem compileRetrying_planned (h : s.Levelled) (hfull : s.table.isFull = false) (addr : UInt32)
    (hwords : Bus.SameWords bus s.env.bus) :
    Planned (s.options.codeSize - Stubs.length) (plan bus s.options s.regions addr)
      (s.compileRetrying addr).1 (s.compileRetrying addr).2.table := by
  by_cases hexhausted : (s.compileBlock addr).1 = .error (.compile .codeSpaceExhausted)
  · have hreads := readsTo_of_exhausted h.ready hfull hexhausted
    obtain ⟨hretried, hfull', hspace⟩ := levelled_retried h hfull addr
    rw [compileRetrying_of_exhausted hexhausted, ← hspace]
    exact compileBlock_planned hretried hfull' addr (hwords.reads .refl hreads)
  · have hplanned := compileBlock_planned h hfull addr hwords
    rw [compileRetrying_of_not_exhausted hexhausted]
    -- The room in the table is no more than that of a table without blocks.
    have hroom : s.table.spaceLeft ≤ s.options.codeSize - Stubs.length := by
      have hleft := h.ready.size_add_spaceLeft
      have hstubs := h.ready.stubs
      have hcapacity := h.ready.codeSize
      omega
    unfold Planned at hplanned ⊢
    split at hplanned
    · exact hplanned
    · split at hplanned
      · next hfits =>
        rw [if_pos (Nat.le_trans hfits hroom)]
        exact hplanned
      · exact absurd hplanned hexhausted

/-- What comes of compiling a block that is not there, and that the session stays level. -/
theorem compile_planned (h : s.Levelled) (hnone : s.table.number? addr = none)
    (hwords : Bus.SameWords bus s.env.bus) :
    match (plan bus s.options s.regions addr).1 with
    | .error f => (s.compile addr).1 = .error (.ofFailure f)
    | .ok () =>
      if Stubs.length + (plan bus s.options s.regions addr).2.length ≤ s.options.codeSize then
        ∃ n b, (s.compile addr).1 = .ok n ∧ (s.compile addr).2.table.block? n = some b ∧
          b.shape = (plan bus s.options s.regions addr).2.shape
      else (s.compile addr).1 = .error (.compile .codeSpaceExhausted) := by
  obtain ⟨hresult, htable, -⟩ := compile_of_none hnone
  have hplanned := compileRetrying_planned (levelled_makeRoom h)
    (isFull_makeRoom h.ready.toFits h.ready.blocks) addr ((bus_makeRoom s).1.symm ▸ hwords)
  rw [options_makeRoom, (bus_makeRoom s).2] at hplanned
  have hlength := h.ready.length_le
  have hcapacity := h.ready.codeSize
  rw [hresult, htable]
  unfold Planned at hplanned
  split at hplanned
  · rw [hplanned]
    rfl
  · split at hplanned
    · next hfits =>
      obtain ⟨n, b, hn, hb, hshape⟩ := hplanned
      rw [if_pos (by omega), hn]
      exact ⟨n, b, rfl, hb, hshape⟩
    · next hfits =>
      rw [if_neg (by omega), hplanned]
      rfl

/-- A block that can be lowered, and has room behind the stubs, is compiled. -/
theorem exists_compile_of_plan (h : s.Levelled) (hwords : Bus.SameWords bus s.env.bus)
    (hok : (plan bus s.options s.regions addr).1 = .ok ())
    (hroom : Stubs.length + (plan bus s.options s.regions addr).2.length ≤ s.options.codeSize) :
    ∃ n, (s.compile addr).1 = .ok n := by
  cases hnumber : s.table.number? addr with
  | some n => exact ⟨n, by rw [compile_of_some hnumber]⟩
  | none =>
    have hplanned := compile_planned h hnumber hwords
    rw [hok] at hplanned
    dsimp only at hplanned
    rw [if_pos hroom] at hplanned
    obtain ⟨n, -, hn, -⟩ := hplanned
    exact ⟨n, hn⟩

/-- What is lowered for a table without blocks runs out of no space. -/
theorem plan_ne_exhausted (bus : β) (o : Options) (regions : List FastRegion) (addr : UInt32) :
    (plan bus o regions addr).1 ≠ .error (.compile .codeSpaceExhausted) := by
  intro h
  rcases BlockTable.lower_answers (.bare o.codeSize o.maxBlocks) bus o regions addr with
    ⟨hok, -⟩ | ⟨e, he, hbreaks⟩
  · cases h.symm.trans hok
  · cases h.symm.trans he
    rcases hbreaks.unreadable with ⟨_, _, h⟩ | ⟨_, _, h⟩ <;> cases h

/-- Whatever a host did before, compiling a block that is not there comes to what it comes to in a
new session with the same options, regions and words of the guest. The error is the same, and there
is only too little space if the code is too long to stand behind the stubs of an empty arena. Or else
the blocks are the same up to where they lie and where their exits lead. -/
theorem Reachable.compile_as_created {allowed : SessionError → Prop} (hs : s.Reachable allowed)
    (hnone : s.table.number? addr = none) (hregions : Bus.fastRegions bus = s.regions)
    (hwords : Bus.SameWords s.env.bus bus) :
    ∃ new, (∀ available, s.options.codeSize ≤ available →
        Session.create bus s.options available = .ok new) ∧
      (∀ e, (s.compile addr).1 = .error e ↔ (new.compile addr).1 = .error e) ∧
      ((s.compile addr).1 = .error (.compile .codeSpaceExhausted) →
        s.options.codeSize < Stubs.length + (plan bus s.options s.regions addr).2.length) ∧
      ∀ n, (s.compile addr).1 = .ok n → ∃ m b c, (new.compile addr).1 = .ok m ∧
        (s.compile addr).2.table.block? n = some b ∧
        (new.compile addr).2.table.block? m = some c ∧ b.shape = c.shape := by
  have hfits := hs.ready.toFits
  have hcreate (available : Nat) (havailable : s.options.codeSize ≤ available) :
      Session.create bus s.options available = .ok (unused bus s.options) := by
    refine create_of_available (hregions ▸ hs.validate) ?_ (Nat.le_min.2 ⟨havailable, ?_⟩)
    · exact hfits.codeSize ▸ hfits.length_le
    · exact hfits.codeSize ▸ hfits.capacity
  have hnew : Reachable (fun _ => True) (unused bus s.options) := .create (hcreate _ (Nat.le_refl _))
  have hbus : Bus.SameWords bus bus := hwords.symm.trans hwords
  have hempty : (unused bus s.options).table.number? addr = none := by
    change (∅ : Std.HashMap UInt32 Nat)[addr]? = none
    simp
  -- Both compilations come to what the plan says, which depends on neither table.
  have hplanned := compile_planned hs.levelled hnone hwords.symm
  have hplanned' := compile_planned hnew.levelled hempty hbus
  have hne := plan_ne_exhausted bus s.options s.regions addr
  rw [show (unused bus s.options).regions = s.regions from hregions,
    show (unused bus s.options).options = s.options from rfl] at hplanned'
  refine ⟨_, hcreate, ?_⟩
  cases houtcome : (plan bus s.options s.regions addr).1 with
  | error f =>
    rw [houtcome] at hplanned hplanned' hne
    rw [hplanned, hplanned']
    refine ⟨fun e => .rfl, fun h => absurd ?_ hne, fun n h => (by cases h)⟩
    cases f with
    | compile e =>
      cases h
      rfl
    | breach b => cases h
  | ok a =>
    rw [houtcome] at hplanned hplanned'
    dsimp only at hplanned hplanned'
    split at hplanned
    · next hroom =>
      rw [if_pos hroom] at hplanned'
      obtain ⟨n, b, hn, hb, hshape⟩ := hplanned
      obtain ⟨m, c, hm, hc, hshape'⟩ := hplanned'
      rw [hn, hm]
      refine ⟨fun e => ?_, fun h => ?_, fun n' h => ?_⟩
      · constructor <;> intro h <;> cases h
      · cases h
      · cases h
        exact ⟨m, b, c, rfl, hb, hc, hshape.trans hshape'.symm⟩
    · next hroom =>
      rw [if_neg hroom] at hplanned'
      rw [hplanned, hplanned']
      exact ⟨fun e => .rfl, fun _ => Nat.not_le.1 hroom, fun n h => (by cases h)⟩

/-- A session that was asked for a block before its code was dropped and its guest replaced. -/
theorem compile_as_created_of_cleared :
    let bus := FlatMemory.zeros 0 64 0
    let s : Session FlatMemory :=
      { ((unused bus Options.standard).compile 0).2.clear with env := .initial bus }
    s.Reachable (fun _ => True) ∧ s.table.number? 4 = none ∧ Bus.fastRegions bus = s.regions ∧
      Bus.SameWords s.env.bus bus ∧
      ∃ new, (∀ available, s.options.codeSize ≤ available →
          Session.create bus s.options available = .ok new) ∧
        (∀ e, (s.compile 4).1 = .error e ↔ (new.compile 4).1 = .error e) ∧
        ((s.compile 4).1 = .error (.compile .codeSpaceExhausted) →
          s.options.codeSize < Stubs.length + (plan bus s.options s.regions 4).2.length) ∧
        ∀ n, (s.compile 4).1 = .ok n → ∃ m b c, (new.compile 4).1 = .ok m ∧
          (s.compile 4).2.table.block? n = some b ∧
          (new.compile 4).2.table.block? m = some c ∧ b.shape = c.shape := by
  intro bus s
  have hnew : Reachable (fun _ => True) (unused bus Options.standard) :=
    .create (create_of_valid rfl (by decide) (by decide))
  have hs : s.Reachable (fun _ => True) :=
    .write (.clear (.compile hnew 0 fun _ _ => trivial)) _
  have hnone : s.table.number? 4 = none := by
    change (∅ : Std.HashMap UInt32 Nat)[4]? = none
    simp
  have hregions : Bus.fastRegions bus = s.regions :=
    ((unused bus Options.standard).regions_compile 0).symm
  have hwords : Bus.SameWords s.env.bus bus := .of_harmless FlatMemory.harmless bus
  exact ⟨hs, hnone, hregions, hwords, hs.compile_as_created hnone hregions hwords⟩

end Session

end Recompiler
