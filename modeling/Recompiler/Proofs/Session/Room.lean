import Recompiler.Proofs.Session.Refining
import Recompiler.Proofs.Session.Uncached

/-!
# Sessions with more or less room

A session does what a machine does that keeps no blocks, unless it runs out of space, as long as the
words of its blocks stay what they are. So it makes no difference to the guest how much room there is
for blocks, and when they are dropped.

* `Session.Tracks`: the session has the guest of the machine, and only blocks that the machine would
  lower to the same code now.
* `Session.Tracks.compile`, `Session.Tracks.exists_begins`: one block, for the session and the machine.
* `Session.Tracks.loop`: a run, by induction on the blocks of the machine.
* `Session.Answers`: the answers to a sequence of requests, as far as there is room.
* `Session.room_makes_no_difference`: two sessions that differ in their room.
-/

namespace Recompiler

variable {β : Type} [Bus β]

namespace Lower

variable {o o' : Options} {regions : List FastRegion} {bus : β} {start : UInt32}

/-- The room for blocks makes no difference to lowering one. -/
theorem afresh_eq (ho : o.Akin o') :
    (afresh o' regions bus start).1 = (afresh o regions bus start).1 := by
  have hkin : (⟨o, regions, .standard, fun _ => none⟩ : Surroundings).Kin
      ⟨o', regions, .standard, fun _ => none⟩ := ⟨ho, rfl, rfl⟩
  exact (block_elsewhere hkin Bus.matched_eq (rfl : bus = bus) start).1

end Lower

namespace Session

variable {s s' t : Session β}

/-- The blocks of a new session are lowered as the machine lowers them. -/
theorem plan_eq (bus : β) (o : Options) (regions : List FastRegion) (addr : UInt32) :
    (plan bus o regions addr).1 = (Lower.afresh o regions bus addr).1 ∧
      (plan bus o regions addr).2.length = (Lower.afresh o regions bus addr).2.length := by
  have hkin : (⟨o, regions, .standard, fun _ => none⟩ : Surroundings).Kin
      ((BlockTable.bare o.codeSize o.maxBlocks).surroundings o regions addr) := ⟨.refl o, rfl, rfl⟩
  obtain ⟨hresult, hresembles, -⟩ :=
    Lower.block_elsewhere hkin Bus.matched_eq (rfl : bus = bus) addr
  exact ⟨hresult, hresembles.length_eq⟩

/-! ## Rounds -/

/-- A run that comes to an answer does so with any more rounds. -/
theorem loop_of_le {x : Except SessionError RunExit × Session β} {m n : Nat} (hmn : m ≤ n)
    (h : s.loop m = some x) : s.loop n = some x := by
  induction m generalizing s n with
  | zero => cases h
  | succ m ih =>
    obtain ⟨n, rfl⟩ : ∃ k, n = k + 1 := ⟨n - 1, by omega⟩
    rw [loop] at h ⊢
    dsimp only at h ⊢
    split at h
    · next hstopped => rwa [if_pos hstopped]
    · next hrunning =>
      rw [if_neg hrunning]
      split at h
      · next hspent => rwa [if_pos hspent]
      · next hleft =>
        rw [if_neg hleft]
        split at h
        · exact h
        · split at h
          · cases h
          · exact h
          · exact ih (by omega) h

/-- Runs of one session come to one answer. -/
theorem loop_unique {x y : Except SessionError RunExit × Session β} {m n : Nat}
    (h : s.loop m = some x) (h' : s.loop n = some y) : x = y := by
  have hx := loop_of_le (Nat.le_max_left m n) h
  have hy := loop_of_le (Nat.le_max_right m n) h'
  exact Option.some.inj (hx.symm.trans hy)

/-- A run that is over before it begins. -/
theorem loop_of_exit {exit : RunExit} (h : s.env.exit? = some exit) (rounds : Nat) :
    ∃ events, s.loop (rounds + 1) = some (.ok exit, s.report events) := by
  unfold Environment.exit? at h
  rw [loop]
  dsimp only
  split at h
  · next hstopped =>
    cases h
    exact ⟨_, if_pos hstopped⟩
  · next hrunning =>
    split at h
    · next hspent =>
      cases h
      refine ⟨[], ?_⟩
      rw [if_neg hrunning, if_pos hspent]
      rfl
    · cases h

/-- A run that ends with an instruction that is refused. -/
theorem refuse_eq (hharmless : Bus.Harmless β) (s : Session β) :
    s.refuse.1 = .error s.env.refusal ∧ s.refuse.2.env.silent = s.env.silent := by
  obtain ⟨⟨state, bus, events⟩, table, options, regions⟩ := s
  refine ⟨rfl, ?_⟩
  have hbus := hharmless .word state.pc bus
  exact congrArg (fun b => (⟨state, b, #[]⟩ : Environment β)) hbus

/-! ## Sessions and the machine -/

/-- The visits to blocks that can be lowered. -/
abbrev Lowered (o : Options) (regions : List FastRegion) (visits : UInt32 → β → Prop)
    (start : UInt32) (bus : β) : Prop :=
  visits start bus ∧ (Lower.afresh o regions bus start).1 = .ok ()

/-- The session has the guest of the machine, and its blocks were lowered when the machine visited
them. -/
structure Tracks (o : Options) (regions : List FastRegion) (visits : UInt32 → β → Prop)
    (e : Environment β) (s : Session β) : Prop where
  akin : o.Akin s.options
  regions_eq : s.regions = regions
  runnable : s.Runnable (Lowered o regions visits)
  silent : s.env.silent = e.silent

namespace Tracks

variable {o : Options} {regions : List FastRegion} {visits : UInt32 → β → Prop}
  {e e' : Environment β} {d : Departure β} {addr : UInt32} {n : Nat}

theorem bus (h : Tracks o regions visits e s) : s.env.bus = e.bus := by
  obtain ⟨events, rfl⟩ := Environment.exists_events h.silent
  rfl

theorem state (h : Tracks o regions visits e s) : s.env.state = e.state :=
  Environment.state_eq_of_silent h.silent

theorem goes (h : Tracks o regions visits e s) (hgoes : e.Goes) : s.Goes := by
  rw [Goes, h.state]
  exact hgoes

/-- With the same guest a session follows the machine as well. -/
theorem withEnv (h : Tracks o regions visits e s) {f g : Environment β} (hsame : f.silent = g.silent)
    (hzero : f.state.get 0 = 0) (hevolves : Bus.Evolves s.env.bus f.bus) :
    Tracks o regions visits g { s with env := f } :=
  ⟨h.akin, h.regions_eq, h.runnable.withEnv hzero hevolves, hsame⟩

variable (hharmless : Bus.Harmless β) (hbound : 36 * (o.maxBlockInstructions + 1) < 2 ^ 31)
  (hsteady : Uncached.Steady o regions visits)

include hharmless hbound hsteady

/-- Blocks come to the same whenever they are visited. -/
theorem afresh_of_lowered {bus bus' : β} (h : Lowered o regions visits addr bus)
    (hvisit : visits addr bus') :
    (Lower.afresh o regions bus' addr).1 = .ok () ∧
      Lower.bodyCode o regions bus' addr = Lower.bodyCode o regions bus addr := by
  have hlimit : o.maxBlockInstructions + 1 < UInt32.size := by
    change _ < 4294967296
    omega
  exact Lower.afresh_again hharmless hlimit h.2 (hsteady addr bus bus' h.1 hvisit h.2)

/-- What comes of compiling a block that the machine visits. -/
theorem compile (h : Tracks o regions visits e s) (hvisit : visits addr e.bus) :
    (∀ f, (Lower.afresh o regions e.bus addr).1 = .error f →
      (s.compile addr).1 = .error (.ofFailure f)) ∧
    ((Lower.afresh o regions e.bus addr).1 = .ok () →
      (s.compile addr).1 = .error (.compile .codeSpaceExhausted) ∨
        ∃ n, (s.compile addr).1 = .ok n ∧ Tracks o regions visits e (s.compile addr).2) := by
  cases hnumber : s.table.number? addr with
  | some n =>
    -- The block that is there was lowered from the same words.
    obtain ⟨b, hb, rfl⟩ := (h.runnable.coherent.indexed addr n).1 hnumber
    obtain ⟨bus, hlowered, -⟩ := h.runnable.sourced n b hb
    have hok := (afresh_of_lowered hharmless hbound hsteady hlowered hvisit).1
    rw [compile_of_some hnumber]
    exact ⟨fun f hf => (by cases hok.symm.trans hf), fun _ => .inr ⟨n, rfl, h⟩⟩
  | none =>
    have hwords : Bus.SameWords e.bus s.env.bus :=
      h.bus ▸ .of_harmless hharmless e.bus
    have hplanned := compile_planned h.runnable.levelled hnumber hwords
    rw [(plan_eq ..).1, Lower.afresh_eq h.akin, h.regions_eq] at hplanned
    have hlowered : s.lowered addr = e.bus :=
      (hharmless.eq_of_readsTo (h.runnable.toSourced.readsTo_lowered addr)).trans h.bus
    refine ⟨fun f hf => ?_, fun hok => ?_⟩
    · rw [hf] at hplanned
      exact hplanned
    · rw [hok] at hplanned
      dsimp only at hplanned
      split at hplanned
      · obtain ⟨n, -, hresult, -⟩ := hplanned
        have hreads := s.reads_compile addr
        refine .inr ⟨n, hresult, ?_, ?_, ?_, ?_⟩
        · rw [options_compile]
          exact h.akin
        · rw [regions_compile]
          exact h.regions_eq
        · exact h.runnable.compile_lowered (fun _ => hlowered ▸ ⟨hvisit, hok⟩) hresult
        · rw [← h.silent, Environment.silent, Environment.silent, hreads.state,
            hharmless.eq_of_readsTo hreads.bus]
      · exact .inl hplanned

/-- Each address has one code. -/
theorem exists_code : ∃ code : UInt32 → List Item, ∀ start bus, Lowered o regions visits start bus →
    Lower.bodyCode o regions bus start = code start := by
  have hone (start : UInt32) : ∃ code : List Item, ∀ bus, Lowered o regions visits start bus →
      Lower.bodyCode o regions bus start = code := by
    by_cases hany : ∃ bus, Lowered o regions visits start bus
    · obtain ⟨bus, hbus⟩ := hany
      exact ⟨_, fun bus' hbus' => (afresh_of_lowered hharmless hbound hsteady hbus hbus'.1).2⟩
    · exact ⟨[], fun bus hbus => absurd ⟨bus, hbus⟩ hany⟩
  exact Classical.skolem.1 hone

variable (hregister : Bus.Maintains β 0 (· = 0))

include hregister

/-- A round begins with the block that the machine lowers, which does the same to the guest, unless
there is no room for it. -/
theorem exists_begins (h : Tracks o regions visits e s) (hvisit : visits e.state.pc e.bus)
    (hstep : Uncached.Steps o regions e d) :
    (s.compile s.env.state.pc).1 = .error (.compile .codeSpaceExhausted) ∨
      ∃ code n b s' d', s.Begins code n b s' d' ∧ d'.reason = d.reason ∧
        Tracks o regions visits d.env { s' with env := d'.env } := by
  have hcompile := (h.compile hharmless hbound hsteady hvisit).2 hstep.lowers
  rw [← h.state] at hcompile
  refine hcompile.imp id fun ⟨n, hresult, htracks⟩ => ?_
  obtain ⟨code, hcode⟩ := exists_code hharmless hbound hsteady
  have hcoded {start : UInt32} {bus : β} (hlowered : Lowered o regions visits start bus) :
      BlockTable.Coded s.options s.regions code start bus := by
    rw [BlockTable.Coded, h.regions_eq, Lower.bodyCode_eq h.akin Bus.matched_eq rfl]
    exact hcode _ _ hlowered
  have hhere : Lowered o regions visits s.env.state.pc s.env.bus := by
    rw [h.state, h.bus]
    exact ⟨hvisit, hstep.lowers⟩
  have hcarries : s.Carries code := h.runnable.mono fun _ _ => hcoded
  obtain ⟨b, s', hopens⟩ := hcarries.exists_opens
    (fun bus hbus => hharmless.eq_of_readsTo hbus ▸ hcoded hhere) hresult
  obtain ⟨d', hdoes, -⟩ := hopens.traversed_does.crosses (Array.mem_of_getElem? hopens.block)
    hopens.runnable.zero hopens.runnable.backed
  have hbegins : s.Begins code n b s' d' := ⟨hopens, hdoes⟩
  have hsilent : s'.env.silent = e.silent := by
    rw [← h.silent, Environment.silent, Environment.silent, hopens.reads.state,
      hharmless.eq_of_readsTo hopens.reads.bus]
  -- The code of the block is that which the machine lowers.
  have hfollows := hdoes.follows
  rw [hopens.start, h.regions_eq, ← hcode _ _ hhere, h.state, h.bus] at hfollows
  have hbacked := hopens.runnable.backed
  rw [hopens.settings.2, h.regions_eq] at hbacked
  obtain ⟨hway, hsame⟩ := hfollows.echo hsilent hopens.runnable.zero hbacked hstep.follows
  refine ⟨code, n, b, s', d', hbegins, ?_, ?_⟩
  · rw [Departure.reason, Departure.reason, hway, Environment.state_eq_of_silent hsame]
  · rw [hopens.compiled] at htracks
    exact htracks.withEnv hsame (hdoes.courses.zero (fun _ => hregister) hopens.runnable.zero)
      hdoes.courses.evolves

/-- A run of the session comes to what the run of the machine comes to, or to a block that it has no
room for. -/
theorem loop {result : Except SessionError RunExit} (hruns : Uncached.Runs o regions e result e')
    (h : Tracks o regions visits e s)
    (hvisits : ∀ g, Uncached.Comes o regions e g → g.Goes → visits g.state.pc g.bus) :
    ∃ rounds x, s.loop rounds = some x ∧ (x.1 = .error (.compile .codeSpaceExhausted) ∨
      x.1 = result ∧ x.2.env.silent = e'.silent ∧
        ∀ exit, result = .ok exit → Tracks o regions visits e' x.2) := by
  have hbound' : 36 * (s.options.maxBlockInstructions + 1) < 2 ^ 31 :=
    h.akin.maxBlockInstructions ▸ hbound
  -- The session keeps up with the machine, round by round, until it has no room for a block.
  induction hruns generalizing s with
  | @ended e exit hexit =>
    have hexit' : s.env.exit? = some exit := by
      rw [Environment.exit?, h.state]
      exact hexit
    obtain ⟨events, hloop⟩ := loop_of_exit hexit' 0
    refine ⟨1, _, hloop, .inr ⟨rfl, h.silent, fun _ _ => ?_⟩⟩
    exact h.withEnv h.silent h.runnable.zero (.refl _)
  | @unreadable e f hgoes hlowers =>
    have hgoes' := h.goes hgoes
    have hresult := (h.compile hharmless hbound hsteady (hvisits e (.refl e) hgoes)).1 f hlowers
    rw [← h.state] at hresult
    have hreads := s.reads_compile s.env.state.pc
    refine ⟨1, _, loop_of_error hgoes' hresult 0, .inr ⟨rfl, ?_, fun exit hexit => by cases hexit⟩⟩
    rw [← h.silent, Environment.silent, Environment.silent, hreads.state,
      hharmless.eq_of_readsTo hreads.bus]
  | @refused e d hgoes hstep hreason =>
    have hgoes' := h.goes hgoes
    rcases h.exists_begins hharmless hbound hsteady hregister (hvisits e (.refl e) hgoes) hstep with
      hexhausted | ⟨code, n, b, s', d', hbegins, hreasons, htracks⟩
    · exact ⟨1, _, loop_of_error hgoes' hexhausted 0, .inl rfl⟩
    · obtain ⟨hloop, -⟩ := hbegins.loop_of_refused hbound' hgoes' (hreasons.trans hreason) 0
      obtain ⟨hresult, hsilent⟩ := refuse_eq hharmless { s' with env := d'.env }
      refine ⟨1, _, hloop, .inr ⟨?_, hsilent.trans htracks.silent, fun exit hexit => by cases hexit⟩⟩
      rw [hresult, Environment.refusal, htracks.state, htracks.bus]
      rfl
  | @block e e' d result hgoes hstep hreason hrest ih =>
    have hgoes' := h.goes hgoes
    rcases h.exists_begins hharmless hbound hsteady hregister (hvisits e (.refl e) hgoes) hstep with
      hexhausted | ⟨code, n, b, s', d', hbegins, hreasons, htracks⟩
    · exact ⟨1, _, loop_of_error hgoes' hexhausted 0, .inl rfl⟩
    · obtain ⟨left, x, hrun, hx⟩ := ih htracks
        (fun g hg => hvisits g (.block hgoes hstep hreason hg))
        (htracks.akin.maxBlockInstructions ▸ hbound)
      obtain ⟨rounds, hloop, -⟩ := hbegins.loop_to hbound' hgoes' (hreasons ▸ hreason) hrun
      exact ⟨rounds, x, hloop, hx⟩

end Tracks

end Session

/-! ## Requests -/

/-- The answer without the number of a block. -/
def Reply.unnumbered : Reply → Reply
  | compiled (.ok _) => compiled (.ok 0)
  | reply => reply

/-- The answer is that there is no room for a block. -/
def Reply.Exhausted (reply : Reply) : Prop :=
  reply = compiled (.error (.compile .codeSpaceExhausted)) ∨
    reply = ran (.error (.compile .codeSpaceExhausted))

theorem Reply.fails_unnumbered (reply : Reply) : reply.unnumbered.Fails ↔ reply.Fails := by
  rcases reply with (_ | _) | _ | _ <;> exact .rfl

namespace Session

variable {s s' t : Session β} {o : Options} {regions : List FastRegion}
  {visits : UInt32 → β → Prop} {e e' : Environment β} {request request' : Request β}
  {requests : List (Request β)} {reply reply' : Reply}

/-- With however many rounds, a session gives one answer to a request. -/
theorem answer_unique {x y : Reply × Session β} (hasks : request.Asks)
    (hsame : request'.unbounded = request.unbounded) (h : s.answer request = some x)
    (h' : s.answer request' = some y) : x = y := by
  cases request with
  | compile addr =>
    cases request' with
    | compile =>
      cases hsame
      exact Option.some.inj (h.symm.trans h')
    | _ => cases hsame
  | run rounds cycles =>
    cases request' with
    | run rounds' cycles' =>
      obtain rfl : cycles' = cycles := (Request.run.inj hsame).2
      obtain ⟨z, hz, rfl⟩ := Option.map_eq_some_iff.1 h
      obtain ⟨w, hw, rfl⟩ := Option.map_eq_some_iff.1 h'
      rw [loop_unique hz hw]
    | _ => cases hsame
  | _ => cases hasks

namespace Tracks

variable (hharmless : Bus.Harmless β) (hbound : 36 * (o.maxBlockInstructions + 1) < 2 ^ 31)
  (hsteady : Uncached.Steady o regions visits) (hregister : Bus.Maintains β 0 (· = 0))

include hharmless hbound hsteady hregister

/-- A session answers as the machine does, or that it has no room. -/
theorem answer (h : Tracks o regions visits e s)
    (hserves : Uncached.Serves o regions e request reply e')
    (hvisits : ∀ start bus, Uncached.Visits o regions e [request] start bus → visits start bus) :
    ∃ request' reply' s', request'.unbounded = request.unbounded ∧
      s.answer request' = some (reply', s') ∧ (reply'.Exhausted ∨
        reply'.unnumbered = reply ∧ s'.env.silent = e'.silent ∧
          (¬ reply.Fails → Tracks o regions visits e' s')) := by
  cases hserves with
  | @compiled addr hlowers =>
    have hvisit : visits addr e.bus := hvisits addr e.bus .compile
    refine ⟨.compile addr, _, _, rfl, rfl, ?_⟩
    rcases (h.compile hharmless hbound hsteady hvisit).2 hlowers with hresult | ⟨n, hresult, htracks⟩
    · exact .inl (.inl (congrArg Reply.compiled hresult))
    · rw [hresult]
      exact .inr ⟨rfl, htracks.silent, fun _ => htracks⟩
  | @failed addr f hlowers =>
    have hvisit : visits addr e.bus := hvisits addr e.bus .compile
    have hresult := (h.compile hharmless hbound hsteady hvisit).1 f hlowers
    have hreads := s.reads_compile addr
    refine ⟨.compile addr, _, _, rfl, rfl, .inr ⟨?_, ?_, fun hfails => absurd trivial hfails⟩⟩
    · rw [hresult]
      rfl
    · rw [← h.silent, Environment.silent, Environment.silent, hreads.state,
        hharmless.eq_of_readsTo hreads.bus]
  | @ran _ rounds cycles result hruns =>
    -- Setting the budget leaves the guests the same.
    have hstart : Tracks o regions visits (e.setWord Slot.downcount cycles)
        (s.setState (s.env.state.set Slot.downcount cycles)) :=
      h.withEnv (f := s.env.setWord Slot.downcount cycles)
        (Environment.silent_setWord h.silent _ _)
        ((State.get_set_of_ne _ (by decide) _).trans h.runnable.zero) (.refl _)
    obtain ⟨rounds', ⟨result', s'⟩, hloop, hx⟩ := hstart.loop hharmless hbound hsteady hregister hruns
      fun g hg hgoes => hvisits _ _ (.run hg hgoes)
    have hanswer : s.answer (.run rounds' cycles) = some (.ran result', s') :=
      Option.map_eq_some_iff.2 ⟨_, hloop, rfl⟩
    refine ⟨.run rounds' cycles, .ran result', s', rfl, hanswer, ?_⟩
    rcases hx with hexhausted | ⟨rfl, hsilent, htracks⟩
    · exact .inl (.inr (congrArg Reply.ran hexhausted))
    · refine .inr ⟨rfl, hsilent, fun hfails => ?_⟩
      cases result' with
      | error error => exact absurd trivial hfails
      | ok exit => exact htracks exit rfl

end Tracks

/-- The session answers the requests so, but for the numbers of blocks, and leaves the guest `e`. Or
else it answers some of them so, and has no room for the next. Runs may take any number of rounds. -/
def Answers (t : Session β) (requests : List (Request β)) (replies : List Reply)
    (e : Environment β) : Prop :=
  (∃ requests' replies' t', requests'.map Request.unbounded = requests.map Request.unbounded ∧
      t.answers requests' = some (replies', t') ∧
      replies'.map Reply.unnumbered = replies.map Reply.unnumbered ∧
      t'.env.state = e.state ∧ t'.env.bus = e.bus) ∨
    ∃ requests' replies' reply t', requests'.map Request.unbounded <+: requests.map Request.unbounded ∧
      t.answers requests' = some (replies' ++ [reply], t') ∧
      replies'.map Reply.unnumbered <+: replies.map Reply.unnumbered ∧ reply.Exhausted

theorem answers_cons {s₁ s₂ : Session β} {replies : List Reply}
    (h : s.answer request = some (reply, s₁)) (hrest : s₁.answers requests = some (replies, s₂)) :
    s.answers (request :: requests) = some (reply :: replies, s₂) := by
  rw [answers, h, Option.bind_some, hrest]
  rfl

/-- The answer to one more request, before the others. -/
theorem Answers.cons {t₁ : Session β} {replies : List Reply}
    (hsame : request'.unbounded = request.unbounded) (h : t.answer request' = some (reply', t₁))
    (hreply : reply'.unnumbered = reply.unnumbered) (hrest : t₁.Answers requests replies e) :
    t.Answers (request :: requests) (reply :: replies) e := by
  rcases hrest with ⟨requests', replies', t₂, hrequests, hanswers, hreplies, hguest⟩ |
    ⟨requests', replies', last, t₂, hrequests, hanswers, hreplies, hexhausted⟩
  · refine .inl ⟨request' :: requests', reply' :: replies', t₂, ?_, answers_cons h hanswers, ?_, hguest⟩
    · rw [List.map_cons, List.map_cons, hsame, hrequests]
    · rw [List.map_cons, List.map_cons, hreply, hreplies]
  · refine .inr ⟨request' :: requests', reply' :: replies', last, t₂, ?_, answers_cons h hanswers, ?_,
      hexhausted⟩
    · rw [List.map_cons, List.map_cons, hsame, List.prefix_cons_inj]
      exact hrequests
    · rw [List.map_cons, List.map_cons, hreply, List.prefix_cons_inj]
      exact hreplies

/-- Two sessions that follow the machine give the same answers, up to the first error. -/
theorem Tracks.answers (hharmless : Bus.Harmless β)
    (hbound : 36 * (o.maxBlockInstructions + 1) < 2 ^ 31)
    (hsteady : Uncached.Steady o regions visits) (hregister : Bus.Maintains β 0 (· = 0))
    (hdowncount : Bus.Respects β Slot.downcount) (haccepted : o.Accepted regions)
    (hs : Tracks o regions visits e s) (ht : Tracks o regions visits e t)
    (hzero : e.state.get 0 = 0) (hbacked : Bus.Backed regions e.bus)
    (hasks : ∀ request ∈ requests, request.Asks)
    (hvisits : ∀ start bus, Uncached.Visits o regions e requests start bus → visits start bus)
    {replies : List Reply} (hanswers : s.answers requests = some (replies, s'))
    (hfirst : ∀ reply ∈ replies.dropLast, ¬ reply.Fails)
    (hroom : ∀ reply ∈ replies, ¬ reply.Exhausted) : t.Answers requests replies s'.env := by
  -- Both sessions follow the machine from one request to the next. The second may run out of room,
  -- and then its answers so far are a prefix.
  induction requests generalizing e s t replies with
  | nil =>
    cases hanswers
    exact .inl ⟨[], [], t, rfl, rfl, rfl, ht.state.trans hs.state.symm, ht.bus.trans hs.bus.symm⟩
  | cons request requests ih =>
    obtain ⟨⟨reply, s₁⟩, hanswer, hrest⟩ := Option.bind_eq_some_iff.1 hanswers
    obtain ⟨⟨more, s₂⟩, hmore, heq⟩ := Option.map_eq_some_iff.1 hrest
    cases heq
    dsimp only at hmore hfirst hroom ⊢
    have hask := hasks request List.mem_cons_self
    obtain ⟨answer, e₁, hserves, hzero', hbacked'⟩ := Uncached.exists_serves haccepted hbound hregister
      hdowncount hzero hbacked hask
    have hfirstVisits (start : UInt32) (bus : β)
        (h : Uncached.Visits o regions e [request] start bus) : visits start bus := by
      refine hvisits start bus ?_
      cases h with
      | compile => exact .compile
      | run hcomes hgoes => exact .run hcomes hgoes
      | later _ _ hrest => cases hrest
    -- The first session answers as the machine does.
    obtain ⟨request₁, reply₁, s₁', hsame₁, hanswer₁, hx⟩ :=
      hs.answer hharmless hbound hsteady hregister hserves hfirstVisits
    cases answer_unique hask hsame₁ hanswer hanswer₁
    obtain ⟨hreply, hsilent, htracks⟩ := hx.resolve_left (hroom reply List.mem_cons_self)
    -- So does the second, if it has room.
    obtain ⟨request', reply', t₁, hsame, hanswer', hx'⟩ :=
      ht.answer hharmless hbound hsteady hregister hserves hfirstVisits
    rcases hx' with hexhausted | ⟨hreply', hsilent', htracks'⟩
    · refine .inr ⟨[request'], [], reply', t₁, ?_, answers_cons hanswer' rfl, List.nil_prefix,
        hexhausted⟩
      rw [List.map_cons, List.map_cons, hsame, List.prefix_cons_inj]
      exact List.nil_prefix
    · refine .cons hsame hanswer' (hreply'.trans hreply.symm) ?_
      cases requests with
      | nil =>
        -- The last answer may be an error.
        cases hmore
        obtain ⟨events, hevents⟩ := Environment.exists_events (hsilent.trans hsilent'.symm)
        exact .inl ⟨[], [], t₁, rfl, rfl, rfl, by rw [hevents], by rw [hevents]⟩
      | cons next requests =>
        obtain ⟨⟨_, _⟩, -, hrest'⟩ := Option.bind_eq_some_iff.1 hmore
        obtain ⟨_, -, heq⟩ := Option.map_eq_some_iff.1 hrest'
        cases heq
        rw [List.dropLast_cons_cons] at hfirst
        have hfails : ¬ answer.Fails := by
          rw [← hreply, Reply.fails_unnumbered]
          exact hfirst reply List.mem_cons_self
        exact ih (htracks hfails) (htracks' hfails) hzero' hbacked'
          (fun r hr => hasks r (List.mem_cons_of_mem _ hr))
          (fun start bus h => hvisits start bus (.later hserves hfails h)) hmore
          (fun r hr => hfirst r (List.mem_cons_of_mem _ hr))
          fun r hr => hroom r (List.mem_cons_of_mem _ hr)

/-! ## New sessions -/

section Flat

variable {m : FlatMemory} {o' : Options} {available available' : Nat}
  {requests : List (Request FlatMemory)}

/-- A new session follows the machine, whatever this is to visit. -/
theorem tracks_of_create {s : Session FlatMemory} (hcreate : create m o' available = .ok s)
    (hakin : o.Akin o') (hreach : o'.codeSize ≤ 0x80000000)
    (hhosted : m.size < UInt32.size → m.Hosted) {state : State} (hzero : state.get 0 = 0)
    (visits : UInt32 → FlatMemory → Prop) :
    Tracks o (Bus.fastRegions m) visits ⟨state, m, #[]⟩ (s.setState state) := by
  have hsourced : s.Sourced (Lowered o (Bus.fastRegions m) visits) := sourced_of_create hcreate
  obtain ⟨hvalidate, -, -, rfl⟩ := create_eq_ok hcreate
  exact ⟨hakin, rfl, ⟨⟨hsourced.ready, hsourced.coherent, hsourced.sourced⟩,
    Options.accepted_of_validate hvalidate, hreach, hzero, FlatMemory.backed_of_hosted hhosted⟩, rfl⟩

/-- The guest cannot tell how much room there is for blocks, when they are dropped, or whether they are
reported. Take two new sessions for one memory and one state, with options that agree on how memory is
accessed and on how long a block may be. Whatever blocks and runs the host asks for, up to the first
error, they give the same answers but for the numbers of blocks, and leave the same guest behind, unless
one of them has no room for a block.

This holds as long as the words of the blocks that the guest comes to stay what they are, and blocks
cost less than two to the thirty-first cycles. Where they cost more, the flags that a link tests do not
tell the sign that the host tests. -/
theorem room_makes_no_difference {s s' t : Session FlatMemory}
    (hcreate : create m o available = .ok s) (hcreate' : create m o' available' = .ok t)
    (hakin : o.Akin o') (hreach : o.codeSize ≤ 0x80000000) (hreach' : o'.codeSize ≤ 0x80000000)
    (hbound : 36 * (o.maxBlockInstructions + 1) < 2 ^ 31)
    (hhosted : m.size < UInt32.size → m.Hosted) {state : State} (hzero : state.get 0 = 0)
    (hasks : ∀ request ∈ requests, request.Asks)
    (hsteady : Uncached.Steady o (Bus.fastRegions m)
      (Uncached.Visits o (Bus.fastRegions m) ⟨state, m, #[]⟩ requests))
    {replies : List Reply} (hanswers : (s.setState state).answers requests = some (replies, s'))
    (hfirst : ∀ reply ∈ replies.dropLast, ¬ reply.Fails)
    (hroom : ∀ reply ∈ replies, ¬ reply.Exhausted) :
    (t.setState state).Answers requests replies s'.env := by
  have hrespects (slot : Nat) : Bus.Respects FlatMemory slot := fun _ _ _ _ _ h => by cases h
  have hvalidate := (create_eq_ok hcreate).1
  have hs := tracks_of_create hcreate (.refl o) hreach hhosted hzero
    (Uncached.Visits o (Bus.fastRegions m) ⟨state, m, #[]⟩ requests)
  have ht := tracks_of_create hcreate' hakin hreach' hhosted hzero
    (Uncached.Visits o (Bus.fastRegions m) ⟨state, m, #[]⟩ requests)
  exact hs.answers FlatMemory.harmless hbound hsteady ((hrespects 0).maintains _) (hrespects _)
    (Options.accepted_of_validate hvalidate) ht hzero (FlatMemory.backed_of_hosted hhosted) hasks
    (fun _ _ h => h) hanswers hfirst hroom

end Flat

/-- A guest whose memory is all zeros has nothing to do. -/
def idle : FlatMemory :=
  .zeros 0 0x1000 (Linkage.memoryBase 0)

theorem hosted_idle (_ : idle.size < UInt32.size) : idle.Hosted :=
  FlatMemory.hosted_of_pointer (by decide) rfl

theorem run_idle (start : Nat) : idle.run start Width.word.size = Word.bytes 0 := by
  simp [FlatMemory.run, FlatMemory.byte, idle, FlatMemory.zeros, Width.size, List.range,
    List.range.loop, Word.bytes]

/-- Options for blocks of one instruction. -/
def brief : Options :=
  { small with maxBlockInstructions := 1 }

/-- The first block of a guest whose memory is all zeros is short. -/
theorem afresh_idle :
    (Lower.afresh brief (Bus.fastRegions idle) idle 0).1 = .ok () ∧
      (Lower.afresh brief (Bus.fastRegions idle) idle 0).2.length ≤ 200 := by
  obtain ⟨nop, hnop⟩ : ∃ nop, nop = (Instruction.decode? 0).get (by decide) := ⟨_, rfl⟩
  have hoffset : idle.offset 0 Width.word.size = .ok 0 := by decide
  have hread : Bus.instructionAt 0 idle = (.ok nop, idle) :=
    Bus.instructionAt_of_read (FlatMemory.read_word hoffset (run_idle 0)) (by rw [hnop]; rfl)
  have hfirst (surroundings : Surroundings) :
      Lower.exec Lower.instruction surroundings (.entered idle Stubs.standard 0) =
        match Lower.exec (Lower.currentPc >>= fun _ => Lower.straight nop) surroundings
          ((Lowering.entered idle Stubs.standard 0).reading idle nop) with
        | (.ok (), u) => (.ok (), { u with registers := u.registers.release })
        | (.error f, u) => (.error f, u) := by
    subst hnop
    exact Lower.exec_instructionWith (t := .entered idle Stubs.standard 0) hread
  rw [Lower.afresh, Lower.exec_block]
  dsimp only
  rw [show brief.maxBlockInstructions = 0 + 1 from rfl, Lower.body, Lower.exec_bind, hfirst]
  subst hnop
  exact ⟨rfl, by decide +kernel⟩

/-- There is room for it. -/
theorem exists_compile_idle {s : Session FlatMemory} (h : s.Levelled) (hbus : s.env.bus = idle)
    (hoptions : s.options = brief) (hregions : s.regions = Bus.fastRegions idle) :
    ∃ n, (s.compile 0).1 = .ok n := by
  have hwords : Bus.SameWords idle s.env.bus := hbus ▸ .of_harmless FlatMemory.harmless idle
  obtain ⟨hresult, hlength⟩ := plan_eq idle brief (Bus.fastRegions idle) 0
  obtain ⟨hok, hshort⟩ := afresh_idle
  refine exists_compile_of_plan h hwords ?_ ?_
  · rw [hoptions, hregions, hresult, hok]
  · rw [hoptions, hregions, hlength]
    exact Nat.le_trans (Nat.add_le_add_left hshort _) (by decide)

section Idle

variable {e g : Environment FlatMemory} {requests : List (Request FlatMemory)}

/-- With no more than one cycle to go, the machine comes by one block. -/
theorem eq_of_comes_idle (hzero : e.state.get 0 = 0) (hbus : e.bus = idle)
    (hdown : e.state.downcount = 0) (hcomes : Uncached.Comes brief (Bus.fastRegions idle) e g)
    (hgoes : g.Goes) : g = e := by
  have hbacked : Bus.Backed (Bus.fastRegions idle) e.bus := by
    rw [hbus]
    exact FlatMemory.backed_of_hosted hosted_idle
  cases hcomes with
  | refl => rfl
  | block hfirst hstep hreason hrest =>
    have hless := hstep.downcount_lt (Options.accepted_of_validate (by decide)) hzero hbacked
      (by decide) (fun _ _ _ _ _ h => by cases h) hfirst hreason
    cases hrest with
    | refl => exact absurd hgoes.2 (by omega)
    | block hgoes' => exact absurd hgoes'.2 (by omega)

theorem steady_idle : Uncached.Steady brief (Bus.fastRegions idle)
    (Uncached.Visits brief (Bus.fastRegions idle) ⟨.initial, idle, #[]⟩ [.run 102 0]) := by
  have hvisits {start : UInt32} {bus : FlatMemory} (h : Uncached.Visits brief (Bus.fastRegions idle)
      ⟨.initial, idle, #[]⟩ [.run 102 0] start bus) : bus = idle := by
    cases h with
    | run hcomes hgoes =>
      exact congrArg (·.bus) (eq_of_comes_idle rfl rfl (by decide) hcomes hgoes)
    | later _ _ hrest => cases hrest
  intro start bus bus' h h' _
  rw [hvisits h, hvisits h']
  exact fun _ _ => rfl

/-- There is room for the block, and the budget is spent after it. -/
theorem exists_run_idle : ∃ result s', ((unused idle brief).setState .initial).run 102 0 =
    some (result, s') ∧ result ≠ .error (.compile .codeSpaceExhausted) := by
  have hsourced : (unused idle brief).Sourced fun _ _ => True :=
    sourced_of_create (create_of_valid (by decide) (by decide) (by decide))
  obtain ⟨s, hs⟩ : ∃ s, s = ((unused idle brief).setState .initial).setState
      (State.initial.set Slot.downcount 0) := ⟨_, rfl⟩
  have hstart : Runnable (fun _ _ => True) s := by
    rw [hs]
    exact ⟨⟨hsourced.ready, hsourced.coherent, hsourced.sourced⟩,
      Options.accepted_of_validate (by decide), by decide, rfl,
      FlatMemory.backed_of_hosted hosted_idle⟩
  have hgoes : s.Goes ∧ s.env.state.downcount = 0 := by
    rw [hs]
    exact ⟨⟨rfl, by decide⟩, by decide⟩
  obtain ⟨n, hn⟩ : ∃ n, (s.compile s.env.state.pc).1 = .ok n := by
    rw [hs]
    exact exists_compile_idle ⟨hsourced.ready, hsourced.levelled.aligned⟩ rfl rfl rfl
  obtain ⟨b, s', legs, d, hround⟩ := hstart.exists_round (hs ▸ by decide) hgoes.1.2
    (fun _ _ => trivial) hn
  have hloop := hround.loop_eq hgoes.1.1 hgoes.1.2 101
  rw [hs] at hloop
  by_cases hreason : d.reason = .hardFault
  · obtain ⟨pc, word, env, hrefuse, -⟩ := exists_refuse { s' with env := d.env }
    rw [if_pos hreason, hrefuse] at hloop
    exact ⟨_, _, hloop, by simp⟩
  · obtain ⟨-, -, hleft⟩ := hround.budget (hs ▸ by decide) (fun _ _ _ _ _ h => by cases h) hgoes.1.2
    have hlegs := hround.voyage.length_pos
    -- The block took a cycle off a budget of none.
    have hspent : ¬ Goes { s' with env := d.env } := fun h => by
      have hnonneg : 0 ≤ d.env.state.downcount := h.2
      have hcharged := (hleft hreason).1
      have hdown := hgoes.2
      omega
    obtain ⟨exit, events, hover⟩ := loop_of_not_goes hspent 100
    rw [if_neg hreason, hover] at hloop
    exact ⟨_, _, hloop, by simp⟩

end Idle

/-- It runs for a cycle, with room for a single block. -/
theorem room_makes_no_difference_of_idle :
    ∃ s t replies s', create idle brief = .ok s ∧
      create idle { brief with codeSize := 4096, maxBlocks := 1, dumpBlocks := true } = .ok t ∧
      (s.setState .initial).answers [.run 102 0] = some (replies, s') ∧
      (t.setState .initial).Answers [.run 102 0] replies s'.env := by
  have hcreate : create idle brief = .ok (unused idle brief) :=
    create_of_valid (by decide) (by decide) (by decide)
  have hcreate' : create idle { brief with codeSize := 4096, maxBlocks := 1, dumpBlocks := true } =
      .ok (unused idle { brief with codeSize := 4096, maxBlocks := 1, dumpBlocks := true }) :=
    create_of_valid (by decide) (by decide) (by decide)
  obtain ⟨result, s', hrun, hresult⟩ := exists_run_idle
  have hanswers : ((unused idle brief).setState .initial).answers [.run 102 0] =
      some ([.ran result], s') := by
    change (Option.bind (Option.map _ (Session.run _ _ _)) _) = _
    rw [hrun]
    rfl
  refine ⟨_, _, _, s', hcreate, hcreate', hanswers, ?_⟩
  refine room_makes_no_difference hcreate hcreate' ⟨rfl, rfl⟩ (by decide) (by decide) (by decide)
    hosted_idle rfl ?_ steady_idle hanswers (by simp) ?_
  · simp [Request.Asks]
  · simp [Reply.Exhausted, hresult]

end Session

end Recompiler
