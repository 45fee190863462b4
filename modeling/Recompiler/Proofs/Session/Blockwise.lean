import Recompiler.Proofs.Session.Interpreting

/-!
# A run, block by block

What a block does is told by its code, and so a run goes from block to block in the same way whether
these are linked or not. A link saves the way back to the host, who would enter the same block with
the same guest.

* `BlockTable.Does`: what a block does that has some code.
* `Session.learned`: the code of the blocks of a session, after one was compiled.
* `Session.Begins`: a round, with what the block does that it begins with.
* `Session.Begins.loop_of_last`: a block that leads back to the host.
* `Session.Begins.loop_of_link`: a block that leads to another one.
-/

namespace Recompiler

variable {β : Type} [Bus β]

namespace BlockTable

variable {t : BlockTable} {link : Bool} {o o' : Options} {regions : List FastRegion}
  {code : UInt32 → List Item} {b b' : Block} {e e' : Environment β} {d d' : Departure β}

/-! ## What blocks do -/

/-- The block at the address has the code that is given for it, if it is lowered from the bus. -/
def Coded (o : Options) (regions : List FastRegion) (code : UInt32 → List Item) (start : UInt32)
    (bus : β) : Prop :=
  Lower.bodyCode o regions bus start = code start

/-- What a block does with a guest if it has the code that is given for its address. -/
structure Does (o : Options) (regions : List FastRegion) (code : UInt32 → List Item) (b : Block)
    (e : Environment β) (d : Departure β) : Prop where
  courses : Courses o regions (Coded o regions code) b e d
  follows : d.Follows regions (code b.start) e

/-- The blocks of a table do what their code tells. -/
theorem Coherent.traversed_does (haccepted : o.Accepted regions)
    (hc : t.Coherent o.enableBlockLink) (hstubs : t.stubs = Stubs.standard)
    (hsize : t.code.size ≤ 0x80000000)
    (hsourced : t.Sourced o regions (Coded (β := β) o regions code)) :
    t.Traversed o regions (Coded (β := β) o regions code) (Does o regions code) := by
  refine ⟨Does.courses, fun hb hzero hbacked => ?_⟩
  obtain ⟨number, hnumber⟩ := Array.mem_iff_getElem?.1 hb
  obtain ⟨bus, hcode, hholds⟩ := hsourced number _ hnumber
  obtain ⟨d, hcourse, hfollows, hcrosses⟩ :=
    hc.crosses_block haccepted hstubs hsize hb hholds hzero hbacked
  rw [show Lower.bodyCode o regions bus _ = _ from hcode] at hfollows
  exact ⟨d, ⟨⟨bus, hcode, hcourse⟩, hfollows⟩, hcrosses⟩

namespace Does

/-- A block does one thing to each guest. -/
theorem unique (hzero : e.state.get 0 = 0) (hbacked : Bus.Backed regions e.bus)
    (h : Does o regions code b e d) (h' : Does o regions code b e d') : d = d' :=
  h.follows.unique hzero hbacked h'.follows

/-- What it does does not depend on the events before, nor on where it lies. -/
theorem echo (hsame : e.silent = e'.silent) (hstart : b.start = b'.start)
    (hzero : e.state.get 0 = 0) (hbacked : Bus.Backed regions e.bus)
    (h : Does o regions code b e d) (h' : Does o' regions code b' e' d') :
    d.way = d'.way ∧ d.env.silent = d'.env.silent :=
  h.follows.echo hsame hzero hbacked (hstart ▸ h'.follows)

/-- A block that leads to another one changes neither register zero nor the core state. -/
theorem left_of_next? (hc : t.Coherent link) (h : Does o regions code b e d)
    (hnext : t.next? link d.way = some b') :
    (e.state.get 0 = 0 → d.env.state.get 0 = 0) ∧ d.env.state.coreState = e.state.coreState ∧
      d.env.state.pc = b'.start := by
  obtain ⟨target, hway, number, -, hstart⟩ := hc.mem_next? hnext
  have hunchecked : d.way ≠ .checked := by simp [hway]
  refine ⟨h.courses.zero fun hchecked => absurd hchecked hunchecked, ?_, ?_⟩
  · obtain ⟨bus, -, hcourse⟩ := h.courses
    exact hcourse.keeps
      (p := fun word => (CoreState.ofWord? word).getD .stopping = e.state.coreState)
      (fun _ _ hi => hi.finds.mem_table) (.inr (.inr rfl)) (by decide)
      (fun hchecked => absurd hchecked hunchecked) rfl
  · obtain ⟨bus, -, hcourse⟩ := h.courses
    exact (hcourse.pc_of_exit hway).trans hstart.symm

end Does

/-- From a block control comes to one way out that leads to no block. -/
theorem Voyage.unique (hc : t.Coherent link) {legs legs' : List (Leg β)}
    (h : Voyage t link (Does o regions code) b e legs d)
    (h' : Voyage t link (Does o regions code) b e legs' d') (hzero : e.state.get 0 = 0)
    (hbacked : Bus.Backed regions e.bus) : d = d' := by
  induction h generalizing legs' with
  | last hdoes hnext =>
    cases h' with
    | last hdoes' _ => exact hdoes.unique hzero hbacked hdoes'
    | link hdoes' hnext' _ =>
      rw [← hdoes.unique hzero hbacked hdoes', hnext] at hnext'
      cases hnext'
  | link hdoes hnext _ ih =>
    cases h' with
    | last hdoes' hnext' =>
      rw [← hdoes.unique hzero hbacked hdoes', hnext] at hnext'
      cases hnext'
    | link hdoes' hnext' hrest =>
      obtain rfl := hdoes.unique hzero hbacked hdoes'
      obtain rfl := Option.some.inj (hnext.symm.trans hnext')
      exact ih hrest ((hdoes.left_of_next? hc hnext).1 hzero)
        (hbacked.evolves hdoes.courses.evolves)

end BlockTable

namespace Session

open BlockTable

variable {s s' : Session β} {code : UInt32 → List Item} {addr : UInt32} {n : Nat} {b : Block}
  {d : Departure β}

/-! ## The code of a session -/

/-- The blocks of the session have the code that is given for their addresses, and run. -/
abbrev Carries (code : UInt32 → List Item) (s : Session β) : Prop :=
  s.Runnable (Coded s.options s.regions code)

/-- The code of the blocks after one was compiled at an address, unless there was one. -/
def learned (s : Session β) (code : UInt32 → List Item) (addr : UInt32) : UInt32 → List Item :=
  match s.table.number? addr with
  | some _ => code
  | none => fun start =>
    if start = addr then Lower.bodyCode s.options s.regions (s.lowered addr) addr else code start

theorem learned_of_some (h : s.table.number? addr = some n) : s.learned code addr = code := by
  rw [learned, h]

/-- Compiling a block makes its code known. -/
theorem Runnable.learn (h : s.Carries code) (hresult : (s.compile addr).1 = .ok n) :
    (s.compile addr).2.Runnable (Coded s.options s.regions (s.learned code addr)) := by
  cases hnumber : s.table.number? addr with
  | some m =>
    rw [learned_of_some hnumber, compile_of_some hnumber]
    exact h
  | none =>
    have hlearned : s.Sourced (Coded s.options s.regions (s.learned code addr)) := by
      refine h.toSourced.forget hnumber fun start bus hne hcode => ?_
      rw [Coded, learned, hnumber]
      exact Eq.trans hcode (if_neg hne).symm
    refine Runnable.compile_lowered ⟨hlearned, h.accepted, h.reach, h.zero, h.backed⟩ ?_ hresult
    intro _
    rw [Coded, learned, hnumber]
    exact (if_pos rfl).symm

/-- The block that compiling adds, but for the marks of its exits. -/
def published (s : Session β) (addr : UInt32) : List Block :=
  match s.table.number? addr, s.compile addr with
  | none, (.ok n, s') => ((s'.table.block? n).map Block.unlinked).toList
  | _, _ => []

theorem published_of_some (h : s.table.number? addr = some n) : s.published addr = [] := by
  rw [published, h]

/-- The blocks that a run adds, in this order. -/
def built (s : Session β) (rounds : Nat) : List Block :=
  (s.stages rounds).flatMap fun s => s.published s.env.state.pc

/-! ## Rounds -/

section Opens

variable {b' : Block} {k : Nat} {result : Except SessionError RunExit × Session β}

/-- The blocks do what their code tells. -/
theorem Opens.traversed_does (h : s.Opens (Coded s.options s.regions code) n b s') :
    s'.table.Traversed s'.options s'.regions (Coded (β := β) s.options s.regions code)
      (Does s.options s.regions code) := by
  obtain ⟨hoptions, hregions⟩ := h.settings
  have hrunnable := h.runnable
  have haccepted := hrunnable.accepted
  have hcoherent := hrunnable.coherent
  have hsourced := hrunnable.sourced
  rw [hoptions, hregions] at haccepted hsourced ⊢
  rw [hoptions] at hcoherent
  exact hcoherent.traversed_does haccepted hrunnable.ready.standard hrunnable.size_le hsourced

/-- The beginning of a round, with what the block does that is entered first. -/
structure Begins (code : UInt32 → List Item) (s : Session β) (n : Nat) (b : Block)
    (s' : Session β) (d : Departure β) : Prop
    extends s.Opens (Coded s.options s.regions code) n b s' where
  does : Does s.options s.regions code b s'.env d

/-- A round begins if the block compiles, and makes the code of the block known. -/
theorem Runnable.exists_begins (h : s.Carries code)
    (hresult : (s.compile s.env.state.pc).1 = .ok n) :
    ∃ b s' d, s.Begins (s.learned code s.env.state.pc) n b s' d := by
  obtain ⟨b, s', hopens⟩ := h.opens hresult (h.learn hresult).toSourced
  obtain ⟨d, hdoes, -⟩ := hopens.traversed_does.crosses (Array.mem_of_getElem? hopens.block)
    hopens.runnable.zero hopens.runnable.backed
  exact ⟨b, s', d, hopens, hdoes⟩

/-- A round leads over the linked blocks, as far as they go. -/
theorem Opens.exists_voyage (h : s.Opens (Coded s.options s.regions code) n b s') (hgoes : s.Goes)
    (hbound : 36 * (s.options.maxBlockInstructions + 1) < 2 ^ 31) :
    ∃ legs d, s'.table.Voyage s'.options.enableBlockLink (Does s.options s.regions code) b s'.env
        legs d ∧ s.Round (Coded s.options s.regions code) n b s' legs d := by
  obtain ⟨legs, d, k, r, hvoyage, hanswers, hr, hreturns, hfuel⟩ :=
    h.exists_return h.traversed_does hbound hgoes.2
  exact ⟨legs, d, hvoyage,
    h.round (hvoyage.mono h.traversed_does.courses) hanswers hr hreturns hfuel⟩

/-- The run goes on from where the round leads. -/
theorem Round.loop_and_built {legs : List (Leg β)} {known : UInt32 → β → Prop}
    (h : s.Round known n b s' legs d) (hgoes : s.Goes) (rounds : Nat) :
    (s.loop (rounds + 1) =
      if d.reason = .hardFault then some (refuse { s' with env := d.env })
      else loop rounds { s' with env := d.env }) ∧
    s.built (rounds + 1) = s.published s.env.state.pc ++
      if d.reason = .hardFault then [] else built { s' with env := d.env } rounds := by
  refine ⟨h.loop_eq hgoes.1 hgoes.2 rounds, ?_⟩
  rw [built, h.stages_eq hgoes, List.flatMap_cons]
  split <;> rfl

namespace Begins

variable (hbound : 36 * (s.options.maxBlockInstructions + 1) < 2 ^ 31)

include hbound

/-- After a block that leads to no other one the run goes on with the next round. -/
theorem loop_of_last (h : s.Begins code n b s' d) (hgoes : s.Goes)
    (hnext : s'.table.next? s'.options.enableBlockLink d.way = none) (rounds : Nat) :
    (s.loop (rounds + 1) =
      if d.reason = .hardFault then some (refuse { s' with env := d.env })
      else loop rounds { s' with env := d.env }) ∧
    s.built (rounds + 1) = s.published s.env.state.pc ++
      if d.reason = .hardFault then [] else built { s' with env := d.env } rounds := by
  have hrunnable := h.runnable
  obtain ⟨legs, d', hvoyage, hround⟩ := h.toOpens.exists_voyage hgoes hbound
  have hbacked := hrunnable.backed
  rw [h.settings.2] at hbacked
  obtain rfl := hvoyage.unique hrunnable.coherent (.last h.does hnext) hrunnable.zero hbacked
  exact hround.loop_and_built hgoes rounds

/-- A block that leads to another one is left with some budget. The host would find the other one, and
enter it with the same guest. -/
theorem exists_opens_of_link (h : s.Begins code n b s' d) (hgoes : s.Goes)
    (hnext : s'.table.next? s'.options.enableBlockLink d.way = some b') :
    d.reason = .dispatch ∧ Goes { s' with env := d.env } ∧
      d.env.state.downcount < s.env.state.downcount ∧
      ∃ m, s'.table.number? d.env.state.pc = some m ∧
        Opens (Coded s'.options s'.regions code) { s' with env := d.env } m b'
          { s' with env := d.env } := by
  obtain ⟨hoptions, hregions⟩ := h.settings
  have hrunnable := h.runnable
  have hc := hrunnable.coherent
  obtain ⟨hzero, hcore, hpc⟩ := h.does.left_of_next? hc hnext
  obtain ⟨target, hway, m, hb', hstart⟩ := hc.mem_next? hnext
  have hcourses := h.does.courses
  rw [← hoptions, ← hregions] at hcourses
  obtain ⟨-, hdown, hleft⟩ := hcourses.of_next? hrunnable.accepted (hoptions ▸ hbound) hc hnext
    (h.downcount hgoes.2)
  have hnumber : s'.table.number? d.env.state.pc = some m :=
    (hc.indexed _ m).2 ⟨b', hb', hpc.symm⟩
  refine ⟨?_, ⟨?_, hleft⟩, ?_, m, hnumber, compile_of_some hnumber, hb', hpc.symm, ?_, .refl _⟩
  · rw [Departure.reason, hway]
    rfl
  · exact hcore.trans ((congrArg State.coreState h.reads.state).trans hgoes.1)
  · rw [← h.reads.state]
    exact hdown
  · have hrunnable' := hrunnable.withEnv (hzero hrunnable.zero) h.does.courses.evolves
    rwa [← hoptions, ← hregions] at hrunnable'

/-- A run over a link ends as it would if the host entered the other block. -/
theorem loop_of_link (h : s.Begins code n b s' d) (hgoes : s.Goes)
    (hnext : s'.table.next? s'.options.enableBlockLink d.way = some b') (rounds : Nat) :
    s.loop (rounds + 1) = loop (rounds + 1) { s' with env := d.env } ∧
      s.built (rounds + 1) = s.published s.env.state.pc ++
        built { s' with env := d.env } (rounds + 1) := by
  obtain ⟨hoptions, hregions⟩ := h.settings
  have hrunnable := h.runnable
  obtain ⟨-, hgoes', -, m, hnumber, hopens⟩ := h.exists_opens_of_link hbound hgoes hnext
  obtain ⟨legs, d₁, hvoyage, hround⟩ := h.toOpens.exists_voyage hgoes hbound
  obtain ⟨legs', d₂, hvoyage', hround'⟩ := hopens.exists_voyage hgoes' (hoptions ▸ hbound)
  -- The voyage of the whole round is the one of the second block behind the first.
  rw [← hoptions, ← hregions] at hvoyage
  have hdoes := h.does
  rw [← hoptions, ← hregions] at hdoes
  obtain rfl : d₁ = d₂ := hvoyage.unique hrunnable.coherent (.link hdoes hnext hvoyage')
    hrunnable.zero hrunnable.backed
  obtain ⟨hloop, hbuilt⟩ := hround.loop_and_built hgoes rounds
  obtain ⟨hloop', hbuilt'⟩ := hround'.loop_and_built hgoes' rounds
  have hnothing : published { s' with env := d.env } d.env.state.pc = [] :=
    published_of_some hnumber
  refine ⟨hloop.trans hloop'.symm, hbuilt.trans (congrArg _ (Eq.symm ?_))⟩
  rw [hbuilt']
  dsimp only
  rw [hnothing, List.nil_append]

/-- A run ends with the first instruction that is refused. -/
theorem loop_of_refused (h : s.Begins code n b s' d) (hgoes : s.Goes)
    (hreason : d.reason = .hardFault) (rounds : Nat) :
    s.loop (rounds + 1) = some (refuse { s' with env := d.env }) ∧
      s.built (rounds + 1) = s.published s.env.state.pc := by
  cases hnext : s'.table.next? s'.options.enableBlockLink d.way with
  | none =>
    have hlast := h.loop_of_last hbound hgoes hnext rounds
    rwa [if_pos hreason, if_pos hreason, List.append_nil] at hlast
  | some b' =>
    have hdispatch := (h.exists_opens_of_link hbound hgoes hnext).1
    rw [hreason] at hdispatch
    cases hdispatch

/-- A run that ends does so after each of its blocks, be that with a round less or with less of the
budget. -/
theorem loop_from (h : s.Begins code n b s' d) (hgoes : s.Goes) (hreason : d.reason ≠ .hardFault)
    {rounds : Nat} (hloop : s.loop (rounds + 1) = some result) :
    ∃ left, (left = rounds ∨ left = rounds + 1 ∧ 0 ≤ d.env.state.downcount ∧
        d.env.state.downcount < s.env.state.downcount) ∧
      loop left { s' with env := d.env } = some result ∧
      s.built (rounds + 1) = s.published s.env.state.pc ++ built { s' with env := d.env } left := by
  cases hnext : s'.table.next? s'.options.enableBlockLink d.way with
  | none =>
    obtain ⟨heq, hbuilt⟩ := h.loop_of_last hbound hgoes hnext rounds
    rw [if_neg hreason] at heq hbuilt
    exact ⟨rounds, .inl rfl, heq ▸ hloop, hbuilt⟩
  | some b' =>
    obtain ⟨-, hgoes', hless, -⟩ := h.exists_opens_of_link hbound hgoes hnext
    obtain ⟨heq, hbuilt⟩ := h.loop_of_link hbound hgoes hnext rounds
    exact ⟨rounds + 1, .inr ⟨rfl, hgoes'.2, hless⟩, heq ▸ hloop, hbuilt⟩

/-- A run that ends from where a block leads does so from the block too. -/
theorem loop_to (h : s.Begins code n b s' d) (hgoes : s.Goes) (hreason : d.reason ≠ .hardFault)
    {left : Nat} (hloop : loop left { s' with env := d.env } = some result) :
    ∃ rounds, s.loop rounds = some result ∧
      s.built rounds = s.published s.env.state.pc ++ built { s' with env := d.env } left := by
  cases hnext : s'.table.next? s'.options.enableBlockLink d.way with
  | none =>
    obtain ⟨heq, hbuilt⟩ := h.loop_of_last hbound hgoes hnext left
    rw [if_neg hreason] at heq hbuilt
    exact ⟨left + 1, heq.trans hloop, hbuilt⟩
  | some b' =>
    cases left with
    | zero => cases hloop
    | succ rounds =>
      obtain ⟨heq, hbuilt⟩ := h.loop_of_link hbound hgoes hnext rounds
      exact ⟨rounds + 1, heq.trans hloop, hbuilt⟩

end Begins

end Opens

end Session

end Recompiler
