import Recompiler.Proofs.Session.Events

/-!
# Clearing a session

A session whose code was dropped goes on as a new session over the same guest would, whatever came
before. Only the events of the past tell the two apart.

* `Request`, `Session.answers`: what a host asks of a session, one request after the other.
* `Session.Reachable.validate`: reachable sessions keep to their valid options and their regions.
* `Session.Reachable.cleared_as_created`: a cleared session is as good as a new one.
-/

namespace Recompiler

variable {β : Type}

/-- What a host asks of a session. -/
inductive Request (β : Type) where
  | compile (addr : UInt32)
  | run (rounds : Nat) (cycles : UInt32)
  | clear
  | invalidate (addr length : UInt32)
  /-- The host writes to the guest state or the guest memory. -/
  | write (f : State → State) (g : β → β)

/-- What a session answers. -/
inductive Reply where
  | compiled (result : Except SessionError Nat)
  | ran (result : Except SessionError RunExit)
  | done

namespace Session

/-! ## Requests -/

/-- The host writes to the guest state and the guest memory. -/
def overwrite (s : Session β) (f : State → State) (g : β → β) : Session β :=
  { s with env := { s.env with state := f s.env.state, bus := g s.env.bus } }

theorem silent_overwrite {s t : Session β} (h : s.silent = t.silent) (f : State → State)
    (g : β → β) : (s.overwrite f g).silent = (t.overwrite f g).silent := by
  obtain ⟨e, rfl, henv⟩ := exists_env h
  obtain ⟨events, rfl⟩ := Environment.exists_events henv
  rfl

theorem silent_clear {s t : Session β} (h : s.silent = t.silent) :
    s.clear.silent = t.clear.silent := by
  obtain ⟨e, rfl, henv⟩ := exists_env h
  obtain ⟨events, rfl⟩ := Environment.exists_events henv
  rfl

/-- Invalidating a range drops all code, whatever the range. -/
theorem silent_invalidate (s : Session β) (addr length : UInt32) :
    (s.invalidate addr length).silent = s.clear.silent := rfl

variable [Bus β]

/-- The answer to a request, and the session afterwards. -/
def answer (s : Session β) : Request β → Option (Reply × Session β)
  | .compile addr => some (.compiled (s.compile addr).1, (s.compile addr).2)
  | .run rounds cycles => (s.run rounds cycles).map fun r => (.ran r.1, r.2)
  | .clear => some (.done, s.clear)
  | .invalidate addr length => some (.done, s.invalidate addr length)
  | .write f g => some (.done, s.overwrite f g)

/-- The answers to some requests, and the session afterwards. -/
def answers : List (Request β) → Session β → Option (List Reply × Session β)
  | [], s => some ([], s)
  | request :: requests, s =>
    (s.answer request).bind fun r => (answers requests r.2).map fun rs => (r.1 :: rs.1, rs.2)

/-- What a request leads to does not depend on the events. -/
theorem quietly_answer {s t : Session β} (h : s.silent = t.silent) (request : Request β) :
    (s.answer request).map quietly = (t.answer request).map quietly := by
  cases request with
  | compile addr =>
    obtain ⟨hresult, hsilent⟩ := Prod.mk.inj (quietly_compile h addr)
    exact congrArg some (Prod.ext (congrArg Reply.compiled hresult) hsilent)
  | run rounds cycles =>
    have hrun := congrArg (Option.map fun r : Except SessionError RunExit × Session β =>
      (Reply.ran r.1, r.2)) (quietly_run rounds h cycles)
    rw [Option.map_map, Option.map_map] at hrun
    rw [answer, answer, Option.map_map, Option.map_map]
    exact hrun
  | clear => exact congrArg some (Prod.ext rfl (silent_clear h))
  | invalidate addr length =>
    refine congrArg some (Prod.ext rfl ?_)
    exact (s.silent_invalidate addr length).trans
      ((silent_clear h).trans (t.silent_invalidate addr length).symm)
  | write f g => exact congrArg some (Prod.ext rfl (silent_overwrite h f g))

/-- What a sequence of requests leads to does not depend on the events. -/
theorem quietly_answers (requests : List (Request β)) {s t : Session β}
    (h : s.silent = t.silent) :
    (answers requests s).map quietly = (answers requests t).map quietly := by
  induction requests generalizing s t with
  | nil => exact congrArg some (Prod.ext rfl h)
  | cons request requests ih =>
    have hanswer := quietly_answer h request
    rw [answers, answers]
    generalize s.answer request = x at hanswer ⊢
    generalize t.answer request = y at hanswer ⊢
    rcases x with _ | ⟨reply, s'⟩ <;> rcases y with _ | ⟨reply', t'⟩ <;>
      first | rfl | cases hanswer | skip
    obtain ⟨hreply, hsilent⟩ := Prod.mk.inj (Option.some.inj hanswer)
    dsimp only at hreply hsilent
    subst hreply
    have hrest := congrArg (Option.map fun rs : List Reply × Session β => (reply :: rs.1, rs.2))
      (ih hsilent)
    rw [Option.map_map, Option.map_map] at hrest
    rw [Option.bind_some, Option.bind_some, Option.map_map, Option.map_map]
    exact hrest

/-! ## Options and regions -/

variable (s : Session β)

omit [Bus β] in
@[simp] theorem regions_makeRoom : s.makeRoom.regions = s.regions := by
  unfold makeRoom
  split <;> rfl

@[simp] theorem regions_dumpBlock (n : Nat) : (s.dumpBlock n).regions = s.regions := by
  unfold dumpBlock
  split <;> rfl

@[simp] theorem regions_compileRetrying (addr : UInt32) :
    (s.compileRetrying addr).2.regions = s.regions := by
  by_cases h : (s.compileBlock addr).1 = .error (.compile .codeSpaceExhausted)
  · rw [compileRetrying_of_exhausted h]
    rfl
  · rw [compileRetrying_of_not_exhausted h]
    rfl

@[simp] theorem regions_compile (addr : UInt32) : (s.compile addr).2.regions = s.regions := by
  cases h : s.table.number? addr with
  | some n => rw [compile_of_some h]
  | none =>
    have hregions := s.makeRoom.regions_compileRetrying addr
    rw [regions_makeRoom] at hregions
    rw [compile, h]
    rcases hc : s.makeRoom.compileRetrying addr with ⟨_ | n, s'⟩ <;> rw [hc] at hregions
    · exact hregions
    · dsimp only at hregions ⊢
      split
      · exact (s'.regions_dumpBlock n).trans hregions
      · exact hregions

variable {s}

/-- A run leaves the options and the regions alone. -/
theorem settings_loop {rounds : Nat} {s' : Session β} {result : Except SessionError RunExit}
    (h : s.loop rounds = some (result, s')) :
    s'.options = s.options ∧ s'.regions = s.regions := by
  induction rounds generalizing s with
  | zero => cases h
  | succ rounds ih =>
    rw [loop] at h
    dsimp only at h
    split at h
    · cases h
      exact ⟨rfl, rfl⟩
    · split at h
      · cases h
        exact ⟨rfl, rfl⟩
      -- A round compiles and enters, and neither changes the settings.
      · have hoptions := options_compile s s.env.state.pc
        have hregions := regions_compile s s.env.state.pc
        rcases hc : s.compile s.env.state.pc with ⟨e | n, s₁⟩ <;>
          rw [hc] at h hoptions hregions <;> dsimp only at h hoptions hregions
        · cases h
          exact ⟨hoptions, hregions⟩
        · split at h
          · cases h
          · next s₂ henter =>
            cases h
            have hsame := enter_eq henter
            exact ⟨(congrArg Session.options hsame).trans hoptions,
              (congrArg Session.regions hsame).trans hregions⟩
          · next s₂ _ henter =>
            have hsame := enter_eq henter
            obtain ⟨hoptions', hregions'⟩ := ih h
            exact ⟨hoptions'.trans ((congrArg Session.options hsame).trans hoptions),
              hregions'.trans ((congrArg Session.regions hsame).trans hregions)⟩

/-- The options of a reachable session fit its regions. -/
theorem Reachable.validate {allowed : SessionError → Prop} (hs : s.Reachable allowed) :
    s.options.validate s.regions = .ok () := by
  induction hs with
  | create h =>
    obtain ⟨hvalidate, -, -, rfl⟩ := create_eq_ok h
    exact hvalidate
  | write _ _ ih => exact ih
  | @compile s _ addr _ ih => rwa [options_compile, regions_compile]
  | @run s s' rounds cycles _ _ hrun _ ih =>
    obtain ⟨hoptions, hregions⟩ :=
      settings_loop (s := s.setState (s.env.state.set Slot.downcount cycles)) hrun
    rw [hoptions, hregions]
    exact ih
  | clear _ ih => exact ih
  | invalidate _ _ _ ih => exact ih

/-! ## Dropping all code -/

/-- A reachable session that dropped its code is a new session for the guest, the events apart. -/
private theorem Reachable.silent_clear_eq {allowed : SessionError → Prop}
    (hs : s.Reachable allowed) (hregions : Bus.fastRegions s.env.bus = s.regions) :
    (∀ available, s.options.codeSize ≤ available →
      Session.create s.env.bus s.options available = .ok (unused s.env.bus s.options)) ∧
      s.clear.silent = ((unused s.env.bus s.options).setState s.env.state).silent := by
  have hfits := hs.fits
  have hvalidate := hs.validate
  have hlength : Stubs.length ≤ s.options.codeSize := hfits.codeSize ▸ hfits.length_le
  have hspace : s.options.codeSize ≤ Arena.addressSpace := hfits.codeSize ▸ hfits.capacity
  refine ⟨fun available havailable => create_of_available (hregions ▸ hvalidate) hlength
    (Nat.le_min.2 ⟨havailable, hspace⟩), ?_⟩
  have htable : s.table.clear = .bare s.options.codeSize s.options.maxBlocks := by
    rw [BlockTable.clear_eq hfits.length_le, hfits.codeSize, hfits.maxBlocks]
  change (⟨s.env.silent, s.table.clear, s.options, s.regions⟩ : Session β) =
    ⟨s.env.silent, .bare s.options.codeSize s.options.maxBlocks, s.options,
      Bus.fastRegions s.env.bus⟩
  rw [htable, hregions]

/-- A session whose code was dropped is as good as a new one. Whatever the past of the session, no
address has a block any more, and all requests lead to what they lead to in a session that was just
created with the same options for the same guest: the same answers, guest, blocks and bytes of code.
The regions of the bus still have to be those that the session was created with. -/
theorem Reachable.cleared_as_created {allowed : SessionError → Prop} (hs : s.Reachable allowed)
    (hregions : Bus.fastRegions s.env.bus = s.regions) {t : Session β}
    (ht : t = s.clear ∨ ∃ addr length, t = s.invalidate addr length) :
    ∃ new, (∀ available, s.options.codeSize ≤ available →
        Session.create s.env.bus s.options available = .ok new) ∧
      (∀ addr, t.table.number? addr = none) ∧
      ∀ requests, (answers requests t).map quietly =
        (answers requests (new.setState s.env.state)).map quietly := by
  obtain ⟨hcreate, hclear⟩ := hs.silent_clear_eq hregions
  have hsilent : t.silent = ((unused s.env.bus s.options).setState s.env.state).silent := by
    rcases ht with rfl | ⟨addr, length, rfl⟩
    · exact hclear
    · exact (s.silent_invalidate addr length).trans hclear
  refine ⟨_, hcreate, fun addr => ?_, fun requests => quietly_answers requests hsilent⟩
  rw [table_eq_of_silent hsilent]
  change (∅ : Std.HashMap UInt32 Nat)[addr]? = none
  simp

/-- A session that compiled a block, whose guest was then replaced. -/
theorem cleared_as_created_of_compiled :
    let bus := FlatMemory.zeros 0 64 0
    let s : Session FlatMemory :=
      { ((unused bus Options.standard).compile 0).2 with env := .initial bus }
    s.Reachable (fun _ => True) ∧ Bus.fastRegions s.env.bus = s.regions ∧
      ∃ new, (∀ available, s.options.codeSize ≤ available →
          Session.create s.env.bus s.options available = .ok new) ∧
        (∀ addr, s.clear.table.number? addr = none) ∧
        ∀ requests, (answers requests s.clear).map quietly =
          (answers requests (new.setState s.env.state)).map quietly := by
  intro bus s
  have hvalidate : Options.standard.validate (Bus.fastRegions bus) = .ok () := by rfl
  have hnew : Reachable (fun _ => True) (unused bus Options.standard) :=
    .create (create_of_valid hvalidate (by decide) (by decide))
  have hs : s.Reachable (fun _ => True) := .write (.compile hnew 0 fun _ _ => trivial) _
  have hregions : Bus.fastRegions s.env.bus = s.regions :=
    ((unused bus Options.standard).regions_compile 0).symm
  exact ⟨hs, hregions, hs.cleared_as_created hregions (.inl rfl)⟩

end Session

end Recompiler
