import Recompiler.Proofs.Session.Interpreting

/-!
# Blocks that do not compile

A block that does not compile is left out, and will not compile the next time either, as long as its
words stay what they are. Nothing happens to the guest meanwhile.

* `Session.number?_compile_of_error`: the block is left out.
* `Session.Stuck`: the block that comes next does not compile.
* `Session.Stuck.loop`: a session stays stuck, and its guest is left alone.
-/

namespace Recompiler

variable {β : Type} [Bus β]

namespace Session

variable {s s' : Session β} {addr : UInt32}

/-! ## Failed compilations -/

theorem number?_compileBlock_of_error (h : s.Levelled) (hfull : s.table.isFull = false)
    (hnone : s.table.number? addr = none) {f : Failure} (hresult : (s.compileBlock addr).1 = .error f) :
    (s.compileBlock addr).2.table.number? addr = none := by
  have hanswers :=
    (h.ready.numbered.compile h.ready.toSound hfull s.env.bus s.options s.regions addr).2
  rw [result_compileBlock] at hresult
  obtain ⟨e, he⟩ : ∃ e, (s.table.compile s.env.bus s.options s.regions addr).result =
      .error (.compile e) := by
    rcases hanswers with ⟨n, hok⟩ | ⟨hexhausted, -⟩ | ⟨e, he, -⟩
    · rw [hok] at hresult
      cases hresult
    · exact ⟨_, hexhausted⟩
    · exact ⟨e, he⟩
  rw [table_compileBlock, BlockTable.table_compile_error h.ready.toSound he]
  exact hnone

/-- A block that does not compile is left out. -/
theorem number?_compile_of_error (h : s.Levelled) {e : SessionError}
    (hresult : (s.compile addr).1 = .error e) : (s.compile addr).2.table.number? addr = none := by
  cases hnumber : s.table.number? addr with
  | some n =>
    rw [compile_of_some hnumber] at hresult
    cases hresult
  | none =>
    obtain ⟨hsame, htable, -⟩ := compile_of_none hnumber
    have hroom := levelled_makeRoom h
    have hfull := isFull_makeRoom h.ready.toFits h.ready.blocks
    obtain ⟨f, hf⟩ : ∃ f, (s.makeRoom.compileRetrying addr).1 = .error f := by
      rw [hsame] at hresult
      cases hretrying : (s.makeRoom.compileRetrying addr).1 with
      | ok n =>
        rw [hretrying] at hresult
        cases hresult
      | error f => exact ⟨f, rfl⟩
    rw [htable]
    by_cases hexhausted :
      (s.makeRoom.compileBlock addr).1 = .error (.compile .codeSpaceExhausted)
    · obtain ⟨hretried, hfull', -⟩ := levelled_retried hroom hfull addr
      rw [compileRetrying_of_exhausted hexhausted] at hf ⊢
      have hempty : (s.makeRoom.retried addr).table.number? addr = none := by
        simp [retried, BlockTable.clear, BlockTable.number?]
      exact number?_compileBlock_of_error hretried hfull' hempty hf
    · rw [compileRetrying_of_not_exhausted hexhausted] at hf ⊢
      exact number?_compileBlock_of_error hroom hfull (number?_makeRoom hnumber) hf

/-! ## Sessions that are stuck -/

/-- The block that comes next is not there, and does not compile. -/
structure Stuck (s : Session β) : Prop where
  levelled : s.Levelled
  absent : s.table.number? s.env.state.pc = none
  fails : (plan s.env.bus s.options s.regions s.env.state.pc).1 = .ok () →
    s.options.codeSize <
      Stubs.length + (plan s.env.bus s.options s.regions s.env.state.pc).2.length

/-- A session whose next block did not compile is stuck. -/
theorem stuck_of_error (hharmless : Bus.Harmless β) (h : s.Levelled) {e : SessionError}
    (hresult : (s.compile s.env.state.pc).1 = .error e) :
    (s.compile s.env.state.pc).2.Stuck := by
  have hreads := s.reads_compile s.env.state.pc
  have hbus := hharmless.eq_of_readsTo hreads.bus
  have hnone : s.table.number? s.env.state.pc = none := by
    cases hnumber : s.table.number? s.env.state.pc with
    | none => rfl
    | some n =>
      rw [compile_of_some hnumber] at hresult
      cases hresult
  have hplanned := compile_planned h hnone (.of_harmless hharmless _)
  refine ⟨levelled_compile h _, ?_, ?_⟩
  · rw [hreads.state]
    exact number?_compile_of_error h hresult
  · rw [hreads.state, hbus, options_compile, regions_compile]
    intro hok
    rw [hok] at hplanned
    dsimp only at hplanned
    split at hplanned
    · obtain ⟨n, -, hn, -⟩ := hplanned
      rw [hn] at hresult
      cases hresult
    · next hlong => exact Nat.not_le.1 hlong

namespace Stuck

theorem exists_error (hharmless : Bus.Harmless β) (h : s.Stuck) :
    ∃ f, (s.compile s.env.state.pc).1 = .error (.ofFailure f) := by
  have hplanned := compile_planned h.levelled h.absent
    (.of_harmless hharmless _)
  have hfails := h.fails
  generalize plan s.env.bus s.options s.regions s.env.state.pc = p at hplanned hfails
  obtain ⟨outcome, r⟩ := p
  cases outcome with
  | error f => exact ⟨f, hplanned⟩
  | ok a =>
    rw [if_neg (Nat.not_le.2 (hfails rfl))] at hplanned
    exact ⟨.compile .codeSpaceExhausted, hplanned⟩

/-- A session with the same memory that is at the same place is stuck too. -/
theorem withEnv (h : s.Stuck) {env : Environment β} (hpc : env.state.pc = s.env.state.pc)
    (hbus : env.bus = s.env.bus) : Stuck { s with env := env } := by
  refine ⟨⟨h.levelled.ready, h.levelled.aligned⟩, ?_, ?_⟩
  · rw [hpc]
    exact h.absent
  · rw [hpc, hbus]
    exact h.fails

/-- A session stays stuck. Its guest is left alone, and no instruction is refused. -/
theorem loop (hharmless : Bus.Harmless β) (h : s.Stuck) {rounds : Nat}
    {result : Except SessionError RunExit} (hloop : s.loop rounds = some (result, s')) :
    s'.Stuck ∧ s'.env.state = s.env.state ∧ s'.env.bus = s.env.bus ∧
      ∀ pc word, result ≠ .error (.hardFault pc word) := by
  cases rounds with
  | zero => cases hloop
  | succ rounds =>
    by_cases hgoes : s.Goes
    · obtain ⟨f, hresult⟩ := h.exists_error hharmless
      have hreads := s.reads_compile s.env.state.pc
      rw [loop_of_error hgoes hresult] at hloop
      cases hloop
      refine ⟨stuck_of_error hharmless h.levelled hresult, hreads.state,
        hharmless.eq_of_readsTo hreads.bus, fun pc word heq => ?_⟩
      cases f <;> cases heq
    · obtain ⟨exit, events, hreports⟩ := loop_of_not_goes hgoes rounds
      rw [hreports] at hloop
      cases hloop
      exact ⟨h.withEnv rfl rfl, rfl, rfl, fun _ _ heq => by cases heq⟩

end Stuck

end Session

end Recompiler
