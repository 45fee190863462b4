import Recompiler.Proofs.Session.Blockwise
import Recompiler.Proofs.Session.Budget
import Recompiler.Proofs.Session.Planned

/-!
# Sessions with and without links

Two sessions for one guest, of which the one links its blocks and the other does not, have the same
blocks at the same places, and their blocks have the same code. They need not enter them in the same
rounds: over a link control stays in generated code. A run is therefore compared block by block.

* `Session.Parallel`: sessions with the same guest and the same blocks, the marks of exits apart.
* `Session.Twin`: parallel sessions whose blocks have the same code.
* `Session.Twin.loop`: runs of twins compile the same blocks and end in the same way.
* `Session.Twin.answers`: so do all requests, up to the first error.
* `Session.links_make_no_difference`: the guest cannot tell whether blocks are linked.
-/

namespace Recompiler

variable {β : Type} [Bus β]

/-! ## Tables -/

theorem Arena.Repaints.of_eq {a b : Arena} (hcapacity : b.capacity = a.capacity)
    (hlimit : b.limit = a.limit) (hoverflowed : b.overflowed = a.overflowed)
    (hsize : b.size = a.size) : a.Repaints b := by
  obtain ⟨capacity, written, limit, overflowed⟩ := a
  obtain ⟨_, _, _, _⟩ := b
  cases hcapacity
  cases hlimit
  cases hoverflowed
  exact ⟨rfl, hsize⟩

/-- Where the exits are and lead is all that there is to them but for the marks. -/
theorem Block.unlinked_eq_of_places {b b' : Block} (hplaces : b'.places = b.places)
    (hothers : { b' with exits := b.exits } = b) : b'.unlinked = b.unlinked := by
  have hexits : b'.exits.map (fun e => { e with linked := false }) =
      b.exits.map fun e => { e with linked := false } := by
    have hmarked (exits : Array Exit) : (exits.map fun e => { e with linked := false }).toList =
        (exits.toList.map Exit.place).map fun place => ⟨place.1, place.2, false⟩ := by
      rw [Array.toList_map, List.map_map]
      rfl
    apply Array.ext'
    rw [hmarked, hmarked]
    exact congrArg _ hplaces
  rw [unlinked, hexits, ← hothers]
  rfl

namespace BlockTable

variable {t u : BlockTable} {o o' : Options} {regions : List FastRegion} {bus : β}
  {start : UInt32} {n : Nat}

omit [Bus β] in
theorem Relinks.capacity_eq (h : t.Relinks u) : u.code.capacity = t.code.capacity :=
  Eq.trans (congrArg Arena.capacity h.code.others) rfl

omit [Bus β] in
theorem Relinks.spaceLeft_eq (h : t.Relinks u) : u.spaceLeft = t.spaceLeft := by
  rw [spaceLeft, Arena.spaceLeft, spaceLeft, Arena.spaceLeft, h.code.size, h.capacity_eq]

omit [Bus β] in
theorem Relinks.isFull_eq (h : t.Relinks u) : u.isFull = t.isFull := by
  rw [isFull, isFull, h.maxBlocks, h.size_eq]

/-- Tables that differ in links differ in links after the same block was added. -/
theorem Relinks.grown (h : t.Relinks u) (ht : t.Sound) (hu : u.Sound) (ho : o.Akin o')
    (hok : (t.lower bus o regions start).1 = .ok ())
    (hclean : (t.extended (t.lower bus o regions start).2).code.overflowed = false)
    (hok' : (u.lower bus o' regions start).1 = .ok ())
    (hclean' : (u.extended (u.lower bus o' regions start).2).code.overflowed = false) :
    (t.grown start (t.lower bus o regions start).2).Relinks
      (u.grown start (u.lower bus o' regions start).2) := by
  have hresembles : (t.lower bus o regions start).2.Resembles (u.lower bus o' regions start).2 :=
    (lower_elsewhere ho h.stubs Bus.matched_eq rfl).2.1
  have hfilled := filled_newBlock ht hok hclean
  have hfilled' := filled_newBlock hu hok' hclean'
  generalize (t.lower bus o regions start).2 = r at hresembles hfilled ⊢
  generalize (u.lower bus o' regions start).2 = r' at hresembles hfilled' ⊢
  have hsize : u.code.size = t.code.size := h.code.size
  have hcapacity := h.capacity_eq
  -- The symbolic codes differ in the aims of exits, which change neither sizes nor places.
  have hcodeSize : (u.newBlock start r').codeSize = (t.newBlock start r).codeSize := by
    have hstop := hfilled.stop
    have hstop' := hfilled'.stop
    rw [← Layout.stop_aimless] at hstop hstop'
    rw [hresembles.code] at hstop'
    change Layout.stop t.code.size _ = t.code.size + _ at hstop
    change Layout.stop u.code.size _ = u.code.size + _ at hstop'
    rw [hsize] at hstop'
    omega
  have hblock : (u.newBlock start r').unlinked = (t.newBlock start r).unlinked := by
    refine Block.unlinked_eq_of_places ?_ ?_
    · have hplaces := hfilled.places
      have hplaces' := hfilled'.places
      rw [← Layout.places_aimless] at hplaces hplaces'
      rw [hplaces', hresembles.code, hplaces]
      change (Layout.exits u.code.size u.code.size _).map _ = _
      rw [hsize]
      rfl
    · have hnormal := hfilled.normal
      have hnormal' := hfilled'.normal
      change _ = t.code.size + 30 at hnormal
      change _ = u.code.size + 30 at hnormal'
      rw [hsize, ← hnormal] at hnormal'
      rw [Block.mk.injEq]
      exact ⟨rfl, hresembles.instructions, hcodeSize, hsize, hnormal', rfl⟩
  have hextends := extends_extended ht.room r
  have hextends' := extends_extended hu.room r'
  have hgrown := size_extended ht.room r
  have hgrown' := size_extended hu.room r'
  refine ⟨.of_eq (hextends'.capacity.trans (hcapacity.trans hextends.capacity.symm))
    (hextends'.limit.trans (hcapacity.trans hextends.limit.symm)) rfl ?_, ?_, ?_, h.stubs,
    h.maxBlocks⟩
  · change (u.extended r').code.size = (t.extended r).code.size
    change (u.extended r').code.size - u.code.size = (t.extended r).code.size - t.code.size
      at hcodeSize
    omega
  · change (u.blocks.push _).map _ = (t.blocks.push _).map _
    rw [Array.map_push, Array.map_push, h.blocks, hblock]
  · change u.byStart.insert start u.size = t.byStart.insert start t.size
    rw [h.byStart, h.size_eq]

/-- What comes of a compilation, and what is read meanwhile, does not depend on links. -/
theorem Relinks.compile (h : t.Relinks u) (ht : t.Level) (hu : u.Level) (ho : o.Akin o')
    (hfull : t.isFull = false) (bus : β) (regions : List FastRegion) (start : UInt32) :
    (u.compile bus o' regions start).result = (t.compile bus o regions start).result ∧
      (u.compile bus o' regions start).bus = (t.compile bus o regions start).bus ∧
      ∀ n, (t.compile bus o regions start).result = .ok n →
        (t.compile bus o regions start).table.Relinks (u.compile bus o' regions start).table := by
  have hfull' : u.isFull = false := h.isFull_eq.trans hfull
  have hspace := h.spaceLeft_eq
  obtain ⟨houtcome, hresembles, hbus⟩ :
      (u.lower bus o' regions start).1 = (t.lower bus o regions start).1 ∧
        (t.lower bus o regions start).2.Resembles (u.lower bus o' regions start).2 ∧
        (t.lower bus o regions start).2.bus = (u.lower bus o' regions start).2.bus :=
    lower_elsewhere ho h.stubs Bus.matched_eq rfl
  have hplanned := (compile_planned ht hfull bus o regions start).1
  have hplanned' := (compile_planned hu hfull' bus o' regions start).1
  -- The outcome of the lowering and the length of the code decide what comes of a compilation.
  have hresult : (u.compile bus o' regions start).result =
      (t.compile bus o regions start).result := by
    unfold Planned at hplanned hplanned'
    rw [houtcome, hresembles.length_eq, hspace] at hplanned'
    cases hlowered : (t.lower bus o regions start).1 with
    | error f =>
      rw [hlowered] at hplanned hplanned'
      exact hplanned'.trans hplanned.symm
    | ok _ =>
      rw [hlowered] at hplanned hplanned'
      dsimp only at hplanned hplanned'
      by_cases hfits : (t.lower bus o regions start).2.length ≤ t.spaceLeft
      · rw [if_pos hfits] at hplanned hplanned'
        obtain ⟨n, -, hn, -⟩ := hplanned
        obtain ⟨n', -, hn', -⟩ := hplanned'
        obtain ⟨-, -, -, rfl, -⟩ := compile_eq_ok hn
        obtain ⟨-, -, -, rfl, -⟩ := compile_eq_ok hn'
        rw [hn, hn', h.size_eq]
      · rw [if_neg hfits] at hplanned hplanned'
        exact hplanned'.trans hplanned.symm
  refine ⟨hresult, ?_, fun n hn => ?_⟩
  · rw [bus_compile hfull, bus_compile hfull']
    exact hbus.symm
  · obtain ⟨-, hok, hclean, -, ⟨events, hfinalize⟩, -⟩ := compile_eq_ok hn
    obtain ⟨-, hok', hclean', -, ⟨events', hfinalize'⟩, -⟩ := compile_eq_ok (hresult.trans hn)
    -- Publishing adds links to both tables, which differed in links only.
    obtain ⟨hnew, henlisted⟩ := enlisted_assembled ht.toSound start (t.lower bus o regions start).2
    obtain ⟨hnew', henlisted'⟩ :=
      enlisted_assembled hu.toSound start (u.lower bus o' regions start).2
    have hlinks := relinks_finalize hnew hfinalize
    have hlinks' := relinks_finalize hnew' hfinalize'
    rw [henlisted] at hlinks
    rw [henlisted'] at hlinks'
    have hgrown := h.grown ht.toSound hu.toSound ho hok hclean hok' hclean'
    exact hlinks.symm.trans (hgrown.trans hlinks')

end BlockTable

namespace Session

open BlockTable

variable {s t : Session β} {addr : UInt32} {n : Nat}

/-! ## Compiling -/

omit [Bus β] in
theorem Levelled.clear_eq (h : s.Levelled) :
    s.table.clear = .bare s.options.codeSize s.options.maxBlocks := by
  rw [BlockTable.clear_eq h.ready.length_le, h.ready.codeSize, h.ready.maxBlocks]

/-- Two sessions with the same guest and the same blocks, of which one may link them and the other
not. -/
structure Parallel (s t : Session β) : Prop where
  silent : s.env.silent = t.env.silent
  options : t.options = { s.options with enableBlockLink := t.options.enableBlockLink }
  regions : t.regions = s.regions
  table : s.table.Relinks t.table
  levelled : s.Levelled
  levelled' : t.Levelled

namespace Parallel

omit [Bus β] in
theorem bus (h : s.Parallel t) : t.env.bus = s.env.bus := by
  obtain ⟨events, hevents⟩ := Environment.exists_events h.silent
  rw [hevents]

omit [Bus β] in
theorem state (h : s.Parallel t) : t.env.state = s.env.state :=
  (Environment.state_eq_of_silent h.silent).symm

omit [Bus β] in
theorem akin (h : s.Parallel t) : s.options.Akin t.options := by
  rw [h.options]
  exact ⟨rfl, rfl⟩

omit [Bus β] in
theorem number?_eq (h : s.Parallel t) (addr : UInt32) :
    t.table.number? addr = s.table.number? addr :=
  h.table.number?_eq addr

omit [Bus β] in
/-- Tables without blocks are the same. -/
theorem clear_eq (hs : s.Levelled) (ht : t.Levelled)
    (ho : t.options = { s.options with enableBlockLink := t.options.enableBlockLink }) :
    t.table.clear = s.table.clear := by
  rw [hs.clear_eq, ht.clear_eq, ho]

omit [Bus β] in
theorem clear (h : s.Parallel t) :
    Parallel { s with table := s.table.clear } { t with table := t.table.clear } := by
  have hclear : s.table.clear.Relinks t.table.clear := by
    rw [clear_eq h.levelled h.levelled' h.options]
    exact .refl _
  exact ⟨h.silent, h.options, h.regions, hclear, h.levelled.clear, h.levelled'.clear⟩

omit [Bus β] in
theorem makeRoom (h : s.Parallel t) : s.makeRoom.Parallel t.makeRoom := by
  have hmargin : t.options.reservedCodeMargin = s.options.reservedCodeMargin := by rw [h.options]
  unfold Session.makeRoom
  rw [h.table.isFull_eq, h.table.spaceLeft_eq, hmargin]
  split
  · have hclear := h.clear
    exact ⟨h.silent, h.options, h.regions, hclear.table,
      ⟨hclear.levelled.ready, hclear.levelled.aligned⟩,
      ⟨hclear.levelled'.ready, hclear.levelled'.aligned⟩⟩
  · exact h

end Parallel

/-- Two sessions gave the same answer, and are parallel if that is no error. -/
structure Matches {ε α : Type} (x y : Except ε α × Session β) : Prop where
  result : y.1 = x.1
  silent : x.2.env.silent = y.2.env.silent
  parallel : ∀ a, x.1 = .ok a → x.2.Parallel y.2

namespace Parallel

/-- A first attempt to compile a block comes to the same in both. -/
theorem compileBlock (h : s.Parallel t) (hfull : s.table.isFull = false) (addr : UInt32) :
    Matches (s.compileBlock addr) (t.compileBlock addr) := by
  have hfull' : t.table.isFull = false := h.table.isFull_eq.trans hfull
  obtain ⟨hresult, hbus, hlinks⟩ := h.table.compile h.levelled.level h.levelled'.level h.akin hfull
    s.env.bus s.regions addr
  have hsilent : (s.compileBlock addr).2.env.silent = (t.compileBlock addr).2.env.silent := by
    change (⟨s.env.state, _, #[]⟩ : Environment β) = ⟨t.env.state, _, #[]⟩
    rw [h.state, Environment.mk.injEq]
    refine ⟨rfl, ?_, rfl⟩
    change (s.table.compile s.env.bus s.options s.regions addr).bus =
      (t.table.compile t.env.bus t.options t.regions addr).bus
    rw [h.bus, h.regions, hbus]
  refine ⟨?_, hsilent, fun n hn => ⟨hsilent, h.options, h.regions, ?_,
    levelled_compileBlock h.levelled hfull addr, levelled_compileBlock h.levelled' hfull' addr⟩⟩
  · rw [result_compileBlock, result_compileBlock, h.bus, h.regions, hresult]
  · rw [table_compileBlock, table_compileBlock, h.bus, h.regions]
    exact hlinks n hn

theorem retried (h : s.Parallel t) (hfull : s.table.isFull = false) (addr : UInt32) :
    (s.retried addr).Parallel (t.retried addr) := by
  have hfull' : t.table.isFull = false := h.table.isFull_eq.trans hfull
  have hlevelled := (levelled_retried h.levelled hfull addr).1
  have hlevelled' := (levelled_retried h.levelled' hfull' addr).1
  refine ⟨(h.compileBlock hfull addr).silent, h.options, h.regions, ?_, hlevelled, hlevelled'⟩
  have hclear := clear_eq (levelled_compileBlock h.levelled hfull addr)
    (levelled_compileBlock h.levelled' hfull' addr) h.options
  change (s.compileBlock addr).2.table.clear.Relinks (t.compileBlock addr).2.table.clear
  rw [hclear]
  exact .refl _

theorem compileRetrying (h : s.Parallel t) (hfull : s.table.isFull = false) (addr : UInt32) :
    Matches (s.compileRetrying addr) (t.compileRetrying addr) := by
  have hblock := h.compileBlock hfull addr
  by_cases hexhausted : (s.compileBlock addr).1 = .error (.compile .codeSpaceExhausted)
  · rw [compileRetrying_of_exhausted hexhausted,
      compileRetrying_of_exhausted (hblock.result.trans hexhausted)]
    exact (h.retried hfull addr).compileBlock (levelled_retried h.levelled hfull addr).2.1 addr
  · rw [compileRetrying_of_not_exhausted hexhausted,
      compileRetrying_of_not_exhausted (hblock.result.symm ▸ hexhausted)]
    exact hblock

/-- Reporting on a block reads the same words in both. -/
theorem dumpBlock (h : s.Parallel t) (n : Nat) : (s.dumpBlock n).Parallel (t.dumpBlock n) := by
  have hblock := h.table.block?_eq n
  unfold Session.dumpBlock
  cases hb : s.table.block? n with
  | none =>
    rw [hb] at hblock
    rw [Option.map_eq_none_iff.1 hblock]
    exact h
  | some b =>
    rw [hb] at hblock
    obtain ⟨b', hb', hunlinked⟩ := Option.map_eq_some_iff.1 hblock
    rw [hb']
    have hstart : b'.start = b.start := congrArg (·.start) hunlinked
    have hcount : b'.instructions = b.instructions := congrArg (·.instructions) hunlinked
    refine ⟨?_, h.options, h.regions, h.table, ⟨h.levelled.ready, h.levelled.aligned⟩,
      ⟨h.levelled'.ready, h.levelled'.aligned⟩⟩
    change (⟨s.env.state, (dumpGuest b.start b.instructions.toNat s.env.bus).2, #[]⟩ :
      Environment β) = ⟨t.env.state, (dumpGuest b'.start b'.instructions.toNat t.env.bus).2, #[]⟩
    rw [h.state, h.bus, hstart, hcount]

/-- Compiling a block comes to the same in both. -/
theorem compile (h : s.Parallel t) (addr : UInt32) :
    Matches (s.compile addr) (t.compile addr) := by
  cases hnumber : s.table.number? addr with
  | some n =>
    rw [compile_of_some hnumber, compile_of_some ((h.number?_eq addr).trans hnumber)]
    exact ⟨rfl, h.silent, fun _ _ => h⟩
  | none =>
    have hretrying := h.makeRoom.compileRetrying
      (isFull_makeRoom h.levelled.ready.toFits h.levelled.ready.blocks) addr
    have hoptions := options_compileRetrying s.makeRoom addr
    have hoptions' := options_compileRetrying t.makeRoom addr
    rw [Session.compile, Session.compile, h.number?_eq, hnumber]
    dsimp only
    generalize s.makeRoom.compileRetrying addr = x at hretrying hoptions ⊢
    generalize t.makeRoom.compileRetrying addr = y at hretrying hoptions' ⊢
    obtain ⟨result, s'⟩ := x
    obtain ⟨result', t'⟩ := y
    obtain ⟨hresult, hsilent, hparallel⟩ := hretrying
    dsimp only at hresult hsilent hparallel
    subst hresult
    cases result' with
    | error f => exact ⟨rfl, hsilent, fun a ha => (by cases ha)⟩
    | ok n =>
      -- Both dump the new block, or neither does.
      have hdump : t'.options.dumpBlocks = s'.options.dumpBlocks := by
        rw [(hparallel n rfl).options]
      dsimp only
      rw [hdump]
      split
      · have hdumped := (hparallel n rfl).dumpBlock n
        exact ⟨rfl, hdumped.silent, fun _ _ => hdumped⟩
      · exact ⟨rfl, hsilent, fun _ _ => hparallel n rfl⟩

/-- Blocks are lowered from the same guest memory. -/
theorem lowered_eq (h : s.Parallel t) (addr : UInt32) : t.lowered addr = s.lowered addr := by
  have hblock := h.makeRoom.compileBlock
    (isFull_makeRoom h.levelled.ready.toFits h.levelled.ready.blocks) addr
  by_cases hexhausted : (s.makeRoom.compileBlock addr).1 = .error (.compile .codeSpaceExhausted)
  · rw [lowered_of_exhausted hexhausted,
      lowered_of_exhausted (hblock.result.trans hexhausted)]
    obtain ⟨events, hevents⟩ := Environment.exists_events hblock.silent
    rw [hevents]
  · rw [lowered_of_not_exhausted hexhausted,
      lowered_of_not_exhausted (hblock.result.symm ▸ hexhausted), h.bus]

end Parallel

/-! ## Running -/

/-- The sessions are parallel, and run with blocks that have the same code. -/
structure Twin (code : UInt32 → List Item) (s t : Session β) : Prop extends Parallel s t where
  left : s.Carries code
  right : t.Carries code

/-- Two sessions gave the same answer, and are twins if that is no error. -/
structure Concurs {ε α : Type} (x y : Except ε α × Session β) : Prop where
  result : y.1 = x.1
  silent : x.2.env.silent = y.2.env.silent
  twins : ∀ a, x.1 = .ok a → ∃ code, Twin code x.2 y.2

namespace Twin

variable {code : UInt32 → List Item} {s' t' : Session β} {b c : Block} {d d' : Departure β}

theorem goes_iff (h : Twin code s t) : t.Goes ↔ s.Goes := by
  rw [Goes, Goes, h.state]

/-- Twins with another guest. -/
theorem withEnv (h : Twin code s t) {e f : Environment β} (hsame : e.silent = f.silent)
    (hzero : e.state.get 0 = 0) (hbacked : Bus.Backed s.regions e.bus) :
    Twin code { s with env := e } { t with env := f } := by
  have hright : f.state.get 0 = 0 ∧ Bus.Backed t.regions f.bus := by
    rw [h.regions]
    obtain ⟨events, rfl⟩ := Environment.exists_events hsame
    exact ⟨hzero, hbacked⟩
  exact ⟨⟨hsame, h.options, h.regions, h.table, ⟨h.levelled.ready, h.levelled.aligned⟩,
    ⟨h.levelled'.ready, h.levelled'.aligned⟩⟩,
    ⟨⟨h.left.ready, h.left.coherent, h.left.sourced⟩, h.left.accepted, h.left.reach, hzero, hbacked⟩,
    ⟨⟨h.right.ready, h.right.coherent, h.right.sourced⟩, h.right.accepted, h.right.reach, hright.1,
      hright.2⟩⟩

/-- Twins that drop their code. -/
theorem clear (h : Twin code s t) :
    Twin code { s with table := s.table.clear } { t with table := t.table.clear } :=
  ⟨h.toParallel.clear,
    ⟨h.left.toSourced.clear, h.left.accepted, h.left.reach, h.left.zero, h.left.backed⟩,
    ⟨h.right.toSourced.clear, h.right.accepted, h.right.reach, h.right.zero, h.right.backed⟩⟩

/-- The same code is learned in both. -/
theorem learned_eq (h : Twin code s t) (addr : UInt32) :
    t.learned code addr = s.learned code addr := by
  rw [learned, learned, h.number?_eq, h.lowered_eq, h.regions,
    Lower.bodyCode_eq h.akin Bus.matched_eq rfl]

/-- Compiling a block leaves twins. -/
theorem compile (h : Twin code s t) (addr : UInt32) (hresult : (s.compile addr).1 = .ok n) :
    Twin (s.learned code addr) (s.compile addr).2 (t.compile addr).2 := by
  have hmatches := h.toParallel.compile addr
  refine ⟨hmatches.parallel n hresult, ?_, ?_⟩
  · have hlearn := h.left.learn hresult
    rw [Carries, options_compile, regions_compile]
    exact hlearn
  · have hlearn := h.right.learn (hmatches.result.trans hresult)
    rw [h.learned_eq] at hlearn
    rw [Carries, options_compile, regions_compile]
    exact hlearn

/-- The same block is added in both. -/
theorem published_eq (h : Twin code s t) (addr : UInt32) :
    t.published addr = s.published addr := by
  have hmatches := h.toParallel.compile addr
  rw [published, published, h.number?_eq]
  generalize s.compile addr = x at hmatches ⊢
  generalize t.compile addr = y at hmatches ⊢
  obtain ⟨result, s'⟩ := x
  obtain ⟨result', t'⟩ := y
  obtain ⟨hresult, -, hparallel⟩ := hmatches
  dsimp only at hresult hparallel
  subst hresult
  cases s.table.number? addr with
  | some n => rfl
  | none =>
    cases result' with
    | error e => rfl
    | ok n =>
      have hblock := (hparallel n rfl).table.block?_eq n
      exact congrArg Option.toList hblock

/-- A block does the same to the guest in both. -/
theorem does_eq (h : Twin code s' t') (hstart : b.start = c.start)
    (hdoes : Does s'.options s'.regions code b s'.env d)
    (hdoes' : Does t'.options t'.regions code c t'.env d') :
    d.env.silent = d'.env.silent ∧ d'.reason = d.reason := by
  rw [h.regions] at hdoes'
  obtain ⟨hway, hsilent⟩ := hdoes.echo h.silent hstart h.left.zero h.left.backed hdoes'
  refine ⟨hsilent, ?_⟩
  rw [Departure.reason, Departure.reason, hway, Environment.state_eq_of_silent hsilent]

/-- A run that is over before it begins. -/
theorem loop_of_not_goes (h : Twin code s t) (hgoes : ¬ s.Goes) {rounds : Nat}
    {x : Except SessionError RunExit × Session β} (hloop : s.loop (rounds + 1) = some x) :
    ∃ y, t.loop 1 = some y ∧ Concurs x y := by
  have htwin (es fs : List Event) : Twin code (s.report es) (t.report fs) := by
    refine h.withEnv ?_ h.left.zero h.left.backed
    exact h.silent
  rw [loop] at hloop ⊢
  dsimp only at hloop ⊢
  rw [h.state]
  split at hloop
  · next hstopped =>
    rw [if_pos hstopped]
    cases hloop
    exact ⟨_, rfl, rfl, (htwin _ _).silent, fun _ _ => ⟨code, htwin _ _⟩⟩
  · next hrunning =>
    rw [if_neg hrunning]
    split at hloop
    · next hspent =>
      rw [if_pos hspent]
      cases hloop
      exact ⟨_, rfl, rfl, h.silent, fun _ _ => ⟨code, h⟩⟩
    · next hleft => exact absurd ⟨not_not.1 hrunning, Int.not_lt.1 hleft⟩ hgoes

/-- An instruction is refused in both. -/
theorem refuse (h : Twin code s t) : Concurs s.refuse t.refuse := by
  have hsilent := h.silent
  obtain ⟨⟨state, bus, events⟩, table, options, regions⟩ := s
  obtain ⟨⟨_, _, events'⟩, table', options', regions'⟩ := t
  obtain ⟨rfl, rfl, -⟩ := Environment.mk.inj hsilent
  exact ⟨rfl, rfl, fun _ hok => (by cases hok)⟩

/-- A round begins with the same block in both, which does the same to the guest. -/
theorem exists_begins (h : Twin code s t) (hregister : Bus.Maintains β 0 (· = 0))
    (hresult : (s.compile s.env.state.pc).1 = .ok n) :
    ∃ code' b c s' t' d d', s.Begins code' n b s' d ∧ t.Begins code' n c t' d' ∧
      d'.reason = d.reason ∧ Twin code' { s' with env := d.env } { t' with env := d'.env } := by
  have hresult' := (h.toParallel.compile s.env.state.pc).result.trans hresult
  rw [← h.state] at hresult'
  obtain ⟨b, s', d, hbegins⟩ := h.left.exists_begins hresult
  obtain ⟨c, t', d', hbegins'⟩ := h.right.exists_begins hresult'
  rw [h.learned_eq, h.state] at hbegins'
  have htwin := h.compile s.env.state.pc hresult
  have hcompiled' := hbegins'.compiled
  rw [h.state] at hcompiled'
  rw [hbegins.compiled, hcompiled'] at htwin
  have hstart : b.start = c.start :=
    hbegins.start.trans (hbegins'.start.trans (congrArg State.pc h.state)).symm
  obtain ⟨hsilent, hreasons⟩ := htwin.does_eq hstart
    (by rw [hbegins.settings.1, hbegins.settings.2]; exact hbegins.does)
    (by rw [hbegins'.settings.1, hbegins'.settings.2]; exact hbegins'.does)
  have hcourses := hbegins.does.courses
  exact ⟨_, b, c, s', t', d, d', hbegins, hbegins', hreasons, htwin.withEnv hsilent
    (hcourses.zero (fun _ => hregister) htwin.left.zero)
    (htwin.left.backed.evolves hcourses.evolves)⟩

/-- A run ends in both if the next block does not compile. -/
theorem loop_of_error (h : Twin code s t) (hgoes : s.Goes) {e : SessionError}
    (hresult : (s.compile s.env.state.pc).1 = .error e) {rounds : Nat}
    {x : Except SessionError RunExit × Session β} (hloop : s.loop (rounds + 1) = some x) :
    ∃ y, t.loop 1 = some y ∧ Concurs x y ∧ t.built 1 = s.built (rounds + 1) := by
  have hgoes' := h.goes_iff.2 hgoes
  have hmatches := h.toParallel.compile s.env.state.pc
  have hresult' := hmatches.result.trans hresult
  have hsilent := hmatches.silent
  rw [← h.state] at hresult'
  rw [Session.loop_of_error hgoes hresult] at hloop
  cases hloop
  refine ⟨_, Session.loop_of_error hgoes' hresult' 0, ⟨rfl, ?_, fun _ hok => (by cases hok)⟩, ?_⟩
  · rw [h.state]
    exact hsilent
  · rw [built, built, stages_of_error hgoes hresult, stages_of_error hgoes' hresult',
      List.flatMap_singleton, List.flatMap_singleton, h.state, h.published_eq]

/-- A run that ends does so in both, in the same way and with the same guest, and both compile the
same blocks on the way. -/
theorem loop (h : Twin code s t) (hbound : 36 * (s.options.maxBlockInstructions + 1) < 2 ^ 31)
    (hregister : Bus.Maintains β 0 (· = 0)) {rounds : Nat}
    {x : Except SessionError RunExit × Session β} (hloop : s.loop rounds = some x) :
    ∃ rounds' y, t.loop rounds' = some y ∧ Concurs x y ∧ t.built rounds' = s.built rounds := by
  induction rounds generalizing code s t with
  | zero => cases hloop
  | succ rounds ih =>
    -- Within a round the budget gets less with every link.
    obtain ⟨budget, hbudget⟩ : ∃ budget, s.env.state.downcount.toNat < budget :=
      ⟨_, Nat.lt_succ_self _⟩
    induction budget generalizing code s t with
    | zero => exact absurd hbudget (Nat.not_lt_zero _)
    | succ budget ihbudget =>
      by_cases hgoes : s.Goes
      · cases hresult : (s.compile s.env.state.pc).1 with
        | error e =>
          obtain ⟨y, hends⟩ := h.loop_of_error hgoes hresult hloop
          exact ⟨1, y, hends⟩
        | ok n =>
          obtain ⟨code', b, c, s', t', d, d', hbegins, hbegins', hreasons, htwin⟩ :=
            h.exists_begins hregister hresult
          have hgoes' := h.goes_iff.2 hgoes
          have hbound' : 36 * (t.options.maxBlockInstructions + 1) < 2 ^ 31 := by
            rw [h.akin.maxBlockInstructions]
            exact hbound
          have hpublished : t.published t.env.state.pc = s.published s.env.state.pc := by
            rw [h.state, h.published_eq]
          by_cases hreason : d.reason = .hardFault
          · obtain ⟨heq, hbuilt⟩ := hbegins.loop_of_refused hbound hgoes hreason rounds
            obtain ⟨heq', hbuilt'⟩ :=
              hbegins'.loop_of_refused hbound' hgoes' (hreasons.trans hreason) 0
            cases heq.symm.trans hloop
            exact ⟨1, _, heq', htwin.refuse, by rw [hbuilt, hbuilt', hpublished]⟩
          · obtain ⟨left, hless, hrest, hbuilt⟩ := hbegins.loop_from hbound hgoes hreason hloop
            have hbound₁ : 36 * (s'.options.maxBlockInstructions + 1) < 2 ^ 31 := by
              rw [hbegins.settings.1]
              exact hbound
            obtain ⟨left', y, hrest', hconcurs, hsame⟩ : ∃ left' y,
                Session.loop left' { t' with env := d'.env } = some y ∧ Concurs x y ∧
                  Session.built { t' with env := d'.env } left' =
                    Session.built { s' with env := d.env } left := by
              -- Either a round is over, or a link was followed at the cost of some of the budget.
              rcases hless with rfl | ⟨rfl, hnonneg, hless⟩
              · exact ih htwin hbound₁ hrest
              · exact ihbudget htwin hbound₁ hrest (by dsimp only; omega)
            obtain ⟨rounds', hloop', hbuilt'⟩ :=
              hbegins'.loop_to hbound' hgoes' (hreasons ▸ hreason) hrest'
            exact ⟨rounds', y, hloop', hconcurs, by rw [hbuilt, hbuilt', hsame, hpublished]⟩
      · obtain ⟨y, hloop', hconcurs⟩ := h.loop_of_not_goes hgoes hloop
        have hgoes' := mt h.goes_iff.1 hgoes
        refine ⟨1, y, hloop', hconcurs, ?_⟩
        rw [built, built, stages, if_neg hgoes', stages, if_neg hgoes]

end Twin

end Session

/-! ## Requests -/

/-- What is asked for, where a run may take any number of rounds. -/
def Request.unbounded : Request β → Request β
  | run _ cycles => run 0 cycles
  | request => request

/-- A host that writes to the guest leaves register zero alone, and the regions in host memory. -/
def Request.Proper (regions : List FastRegion) : Request β → Prop
  | write f g => (∀ state : State, state.get 0 = 0 → (f state).get 0 = 0) ∧
      ∀ bus, Bus.Backed regions bus → Bus.Backed regions (g bus)
  | _ => True

/-- The answer is an error. -/
def Reply.Fails : Reply → Prop
  | compiled (.error _) | ran (.error _) => True
  | _ => False

namespace Session

variable {s t s' : Session β} {code : UInt32 → List Item} {request : Request β} {reply : Reply}

/-- The blocks that are added for a request, in this order. -/
def added (s : Session β) : Request β → List Block
  | .compile addr => s.published addr
  | .run rounds cycles => (s.setState (s.env.state.set Slot.downcount cycles)).built rounds
  | _ => []

/-- The blocks that are added for some requests, in this order. -/
def addedFor : List (Request β) → Session β → List Block
  | [], _ => []
  | request :: requests, s =>
    s.added request ++ ((s.answer request).map fun r => addedFor requests r.2).getD []

/-- A request changes neither the options nor the regions. -/
theorem settings_answer (h : s.answer request = some (reply, s')) :
    s'.options = s.options ∧ s'.regions = s.regions := by
  cases request with
  | compile addr =>
    cases h
    exact ⟨options_compile s addr, regions_compile s addr⟩
  | run rounds cycles =>
    obtain ⟨⟨result, s₁⟩, hrun, heq⟩ := Option.map_eq_some_iff.1 h
    cases heq
    exact settings_loop (s := s.setState (s.env.state.set Slot.downcount cycles)) hrun
  | clear | invalidate | write =>
    cases h
    exact ⟨rfl, rfl⟩

/-- Twins give the same answer to a request, and stay twins unless it is an error. -/
theorem Twin.answer (h : Twin code s t)
    (hbound : 36 * (s.options.maxBlockInstructions + 1) < 2 ^ 31)
    (hregister : Bus.Maintains β 0 (· = 0)) (hproper : request.Proper s.regions)
    (hanswer : s.answer request = some (reply, s')) :
    ∃ request' t', request'.unbounded = request.unbounded ∧
      t.answer request' = some (reply, t') ∧ s'.env.silent = t'.env.silent ∧
      (¬ reply.Fails → ∃ code', Twin code' s' t') ∧ t.added request' = s.added request := by
  cases request with
  | compile addr =>
    have hmatches := h.toParallel.compile addr
    cases hanswer
    refine ⟨.compile addr, _, rfl, congrArg some (Prod.ext (congrArg Reply.compiled hmatches.result)
      rfl), hmatches.silent, fun hfails => ?_, h.published_eq addr⟩
    cases hresult : (s.compile addr).1 with
    | error e =>
      rw [hresult] at hfails
      exact absurd trivial hfails
    | ok n => exact ⟨_, h.compile addr hresult⟩
  | run rounds cycles =>
    obtain ⟨⟨result, s₁⟩, hrun, heq⟩ := Option.map_eq_some_iff.1 hanswer
    cases heq
    -- The run begins with the new budget in both.
    have htwin : Twin code (s.setState (s.env.state.set Slot.downcount cycles))
        (t.setState (t.env.state.set Slot.downcount cycles)) := by
      refine h.withEnv ?_ ((State.get_set_of_ne _ (by decide) _).trans h.left.zero) h.left.backed
      rw [h.state]
      obtain ⟨events, hevents⟩ := Environment.exists_events h.silent
      rw [hevents]
      rfl
    obtain ⟨rounds', y, hrun', hconcurs, hbuilt⟩ := htwin.loop hbound hregister hrun
    obtain ⟨result', t₁⟩ := y
    obtain rfl : result' = result := hconcurs.result
    refine ⟨.run rounds' cycles, t₁, rfl, ?_, hconcurs.silent, fun hfails => ?_, hbuilt⟩
    · exact Option.map_eq_some_iff.2 ⟨_, hrun', rfl⟩
    · cases result' with
      | error e => exact absurd trivial hfails
      | ok exit => exact hconcurs.twins exit rfl
  | clear =>
    cases hanswer
    have hclear := h.clear.withEnv (e := (s.report [.clearing]).env)
      (f := (t.report [.clearing]).env) h.silent h.left.zero h.left.backed
    exact ⟨.clear, _, rfl, rfl, hclear.silent, fun _ => ⟨code, hclear⟩, rfl⟩
  | invalidate addr length =>
    cases hanswer
    have hclear := h.clear.withEnv (e := (s.invalidate addr length).env)
      (f := (t.invalidate addr length).env) h.silent h.left.zero h.left.backed
    exact ⟨.invalidate addr length, _, rfl, rfl, hclear.silent, fun _ => ⟨code, hclear⟩, rfl⟩
  | write f g =>
    cases hanswer
    have hsame : (s.overwrite f g).env.silent = (t.overwrite f g).env.silent := by
      obtain ⟨events, hevents⟩ := Environment.exists_events h.silent
      rw [overwrite, overwrite, hevents]
      rfl
    have hwritten := h.withEnv hsame (hproper.1 _ h.left.zero) (hproper.2 _ h.left.backed)
    exact ⟨.write f g, _, rfl, rfl, hwritten.silent, fun _ => ⟨code, hwritten⟩, rfl⟩

/-- Twins give the same answers up to the first error. -/
theorem Twin.answers (h : Twin code s t)
    (hbound : 36 * (s.options.maxBlockInstructions + 1) < 2 ^ 31)
    (hregister : Bus.Maintains β 0 (· = 0)) {requests : List (Request β)} {replies : List Reply}
    (hproper : ∀ request ∈ requests, request.Proper s.regions)
    (hanswers : s.answers requests = some (replies, s'))
    (hfirst : ∀ reply ∈ replies.dropLast, ¬ reply.Fails) :
    ∃ requests' t', requests'.map Request.unbounded = requests.map Request.unbounded ∧
      t.answers requests' = some (replies, t') ∧ s'.env.silent = t'.env.silent ∧
      t.addedFor requests' = s.addedFor requests := by
  induction requests generalizing code s t replies with
  | nil =>
    cases hanswers
    exact ⟨[], t, rfl, rfl, h.silent, rfl⟩
  | cons request requests ih =>
    obtain ⟨⟨reply, s₁⟩, hanswer, hrest⟩ := Option.bind_eq_some_iff.1 hanswers
    obtain ⟨⟨more, s₂⟩, hmore, heq⟩ := Option.map_eq_some_iff.1 hrest
    cases heq
    dsimp only at hmore hfirst
    obtain ⟨hoptions, hregions⟩ := settings_answer hanswer
    obtain ⟨request', t₁, hsame, hanswer', hsilent, htwins, hadded⟩ :=
      h.answer hbound hregister (hproper request List.mem_cons_self) hanswer
    have hcons {u u₁ : Session β} {r : Request β} (hr : u.answer r = some (reply, u₁))
        (rs : List (Request β)) : u.addedFor (r :: rs) = u.added r ++ u₁.addedFor rs := by
      rw [addedFor, hr]
      rfl
    have hjoin {rs : List (Request β)} {t₂ : Session β} (hrs : t₁.answers rs = some (more, t₂)) :
        t.answers (request' :: rs) = some (reply :: more, t₂) := by
      rw [Session.answers, hanswer', Option.bind_some, hrs]
      rfl
    cases requests with
    | nil =>
      -- The last answer may be an error.
      cases hmore
      refine ⟨[request'], t₁, congrArg (List.cons · []) hsame, hjoin rfl, hsilent, ?_⟩
      rw [hcons hanswer, hcons hanswer', hadded]
      rfl
    | cons next requests =>
      obtain ⟨⟨_, _⟩, -, hrest'⟩ := Option.bind_eq_some_iff.1 hmore
      obtain ⟨_, -, heq⟩ := Option.map_eq_some_iff.1 hrest'
      cases heq
      rw [List.dropLast_cons_cons] at hfirst
      obtain ⟨code', htwin⟩ := htwins (hfirst reply List.mem_cons_self)
      obtain ⟨requests', t', hsame', hanswers', hsilent', hadded'⟩ := ih htwin (hoptions ▸ hbound)
        (fun r hr => hregions ▸ hproper r (List.mem_cons_of_mem _ hr)) hmore
        fun r hr => hfirst r (List.mem_cons_of_mem _ hr)
      refine ⟨request' :: requests', t', ?_, hjoin hanswers', hsilent', ?_⟩
      · rw [List.map_cons, List.map_cons, hsame, hsame']
      · rw [hcons hanswer, hcons hanswer', hadded, hadded']

/-! ## New sessions -/

variable {bus : β} {o : Options} {available : Nat}

/-- New sessions for one guest are twins, whatever code the blocks are to have. -/
theorem twin_of_create (hcreate : create bus o available = .ok s) (hreach : o.codeSize ≤ 0x80000000)
    (hbacked : Bus.Backed (Bus.fastRegions bus) bus) (link : Bool) (code : UInt32 → List Item) :
    ∃ t, create bus { o with enableBlockLink := link } available = .ok t ∧ Twin code s t := by
  obtain ⟨hvalidate, hlength, hrun, rfl⟩ := create_eq_ok hcreate
  have hcreate' : create bus { o with enableBlockLink := link } available =
      .ok (unused bus { o with enableBlockLink := link }) :=
    create_of_available hvalidate hlength hrun
  have hnew {o : Options} (hcreate : create bus o available = .ok (unused bus o))
      (hreach : o.codeSize ≤ 0x80000000) :
      (unused bus o).Levelled ∧ (unused bus o).Carries code := by
    have hs : Reachable (fun _ => True) (unused bus o) := .create hcreate
    have hsourced : (unused bus o).Sourced (BlockTable.Coded o (Bus.fastRegions bus) code) :=
      sourced_of_create hcreate
    exact ⟨hs.levelled, hsourced, Options.accepted_of_validate hs.validate, hreach, rfl, hbacked⟩
  obtain ⟨hlevelled, hcarries⟩ := hnew hcreate hreach
  obtain ⟨hlevelled', hcarries'⟩ := hnew hcreate' hreach
  exact ⟨_, hcreate', ⟨rfl, rfl, rfl, .refl _, hlevelled, hlevelled'⟩, hcarries, hcarries'⟩

/-- The guest cannot tell whether blocks are linked. Take two new sessions for one guest, with options
that differ in this at most. Whatever the host asks of both, they give the same answers up to and with
the first error, they leave the same guest behind, and they compile the same blocks in the same order
and at the same offsets. Only the number of rounds that a run takes may differ.

Handlers of system calls and the host leave register zero alone, as the guest state has them do. -/
theorem links_make_no_difference (hcreate : create bus o available = .ok s)
    (hreach : o.codeSize ≤ 0x80000000) (hbound : 36 * (o.maxBlockInstructions + 1) < 2 ^ 31)
    (hbacked : Bus.Backed (Bus.fastRegions bus) bus) (hregister : Bus.Maintains β 0 (· = 0))
    {requests : List (Request β)} {replies : List Reply}
    (hproper : ∀ request ∈ requests, request.Proper (Bus.fastRegions bus))
    (hanswers : s.answers requests = some (replies, s'))
    (hfirst : ∀ reply ∈ replies.dropLast, ¬ reply.Fails) (link : Bool) :
    ∃ t, create bus { o with enableBlockLink := link } available = .ok t ∧
      ∃ requests' t', requests'.map Request.unbounded = requests.map Request.unbounded ∧
        t.answers requests' = some (replies, t') ∧
        t'.env.state = s'.env.state ∧ t'.env.bus = s'.env.bus ∧
        t.addedFor requests' = s.addedFor requests := by
  obtain ⟨t, hcreate', htwin⟩ := twin_of_create hcreate hreach hbacked link fun _ => []
  obtain ⟨-, -, -, rfl⟩ := create_eq_ok hcreate
  obtain ⟨requests', t', hsame, hanswers', hsilent, hadded⟩ :=
    htwin.answers hbound hregister hproper hanswers hfirst
  obtain ⟨events, hevents⟩ := Environment.exists_events hsilent
  refine ⟨t, hcreate', requests', t', hsame, hanswers', ?_, ?_, hadded⟩ <;> rw [hevents]

/-- A loop of one block runs for a hundred cycles without its link. -/
theorem links_make_no_difference_of_spinning :
    let requests : List (Request Rom) := [.write (·.set Slot.pc 0x1000) id, .run 102 100]
    ∃ replies s', (unused spinning small).answers requests = some (replies, s') ∧
      ∃ t, create spinning { small with enableBlockLink := false } = .ok t ∧
        ∃ requests' t', requests'.map Request.unbounded = requests.map Request.unbounded ∧
          t.answers requests' = some (replies, t') ∧
          t'.env.state = s'.env.state ∧ t'.env.bus = s'.env.bus ∧
          t.addedFor requests' = (unused spinning small).addedFor requests := by
  intro requests
  have hcreate : create spinning small = .ok (unused spinning small) :=
    create_of_valid rfl (by decide) (by decide)
  have hrespects (slot : Nat) : Bus.Respects Rom slot := fun _ _ _ _ _ h => by cases h
  have hbacked : Bus.Backed (Bus.fastRegions spinning) spinning := fun _ _ r hr => by cases hr
  -- The run ends within its budget.
  obtain ⟨result, s', hrun⟩ : ∃ result s',
      ((unused spinning small).overwrite (·.set Slot.pc 0x1000) id).run 102 100 =
        some (result, s') := by
    have hsourced : (unused spinning small).Sourced fun _ _ => True := sourced_of_create hcreate
    obtain ⟨s₁, hs₁⟩ : ∃ s₁, s₁ = (unused spinning small).setState
        ((State.initial.set Slot.pc 0x1000).set Slot.downcount 100) := ⟨_, rfl⟩
    have hstart : Runnable (fun _ _ => True) s₁ := by
      rw [hs₁]
      exact ⟨⟨hsourced.ready, hsourced.coherent, hsourced.sourced⟩,
        Options.accepted_of_validate rfl, by decide, rfl, hbacked⟩
    have hdown : s₁.env.state.downcount = 100 := by
      rw [hs₁]
      decide
    obtain ⟨es, result, s', hends, -⟩ := hstart.exists_ends (hs₁ ▸ by decide)
      ((hrespects 0).maintains _) (hrespects Slot.downcount) (by omega)
      (by omega : _ < ((101 : Nat) : Int))
    have hloop := hends.loop 102 (by decide)
    rw [hs₁] at hloop
    exact ⟨result, s', hloop⟩
  have hanswers : (unused spinning small).answers requests =
      some ([.done, .ran result], s') := by
    change (Option.bind (Option.map _ (Session.run _ _ _)) _).map _ = _
    rw [hrun]
    rfl
  have hproper : ∀ request ∈ requests, request.Proper (Bus.fastRegions spinning) := by
    intro request hrequest
    obtain rfl | rfl : request = .write (·.set Slot.pc 0x1000) id ∨ request = .run 102 100 := by
      simpa [requests] using hrequest
    · exact ⟨fun state hzero => (State.get_set_of_ne _ (by decide) _).trans hzero, fun _ h => h⟩
    · trivial
  have hfirst : ∀ reply ∈ [Reply.done, .ran result].dropLast, ¬ reply.Fails := by
    intro reply hreply
    obtain rfl : reply = .done := by simpa using hreply
    exact id
  exact ⟨_, s', hanswers, links_make_no_difference hcreate (by decide) (by decide) hbacked
    ((hrespects 0).maintains _) hproper hanswers hfirst false⟩

end Session

end Recompiler
