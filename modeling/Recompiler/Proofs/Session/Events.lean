import Recompiler.Proofs.Host.Sequence
import Recompiler.Proofs.Session.Reachable

/-!
# Events are only reported

What happens to a guest, to generated code and to a session does not depend on the events that were
reported before. Two of them that differ in their events at most go on in the same way.

* `Environment.silent`, `HostMachine.silent`, `Session.silent`: without the events.
* `Instruction.silent_interpret`, `HostMachine.silent_execute`, `HostMachine.silent_run`: the guest
  and the machine.
* `Session.silent_compile`, `Session.silent_loop`: sessions.
-/

namespace Recompiler

variable {β : Type}

/-! ## The guest -/

namespace Environment

/-- The guest without the events so far. -/
def silent (e : Environment β) : Environment β :=
  { e with events := #[] }

variable {e f : Environment β}

theorem exists_events (h : e.silent = f.silent) : ∃ events, f = { e with events := events } := by
  obtain ⟨state, bus, events⟩ := e
  obtain ⟨state', bus', events'⟩ := f
  obtain ⟨rfl, rfl, -⟩ := Environment.mk.inj h
  exact ⟨events', rfl⟩

theorem state_eq_of_silent (h : e.silent = f.silent) : e.state = f.state := by
  obtain ⟨events, rfl⟩ := exists_events h
  rfl

theorem silent_setRegister (h : e.silent = f.silent) (r : Nat) (value : UInt32) :
    (e.setRegister r value).silent = (f.setRegister r value).silent := by
  obtain ⟨events, rfl⟩ := exists_events h
  rfl

theorem silent_setWord (h : e.silent = f.silent) (slot : Nat) (value : UInt32) :
    (e.setWord slot value).silent = (f.setWord slot value).silent := by
  obtain ⟨events, rfl⟩ := exists_events h
  rfl

variable [Bus β]

theorem silent_load (h : e.silent = f.silent) (kind : LoadKind) (addr : UInt32) :
    (e.load kind addr).1 = (f.load kind addr).1 ∧
      (e.load kind addr).2.silent = (f.load kind addr).2.silent := by
  obtain ⟨events, rfl⟩ := exists_events h
  rw [load, read, load, read]
  dsimp only
  generalize Bus.read kind.width addr e.bus = answer
  obtain ⟨cause | value, bus⟩ := answer <;> exact ⟨rfl, rfl⟩

theorem silent_write (h : e.silent = f.silent) (width : Width) (addr value : UInt32) :
    (e.write width addr value).silent = (f.write width addr value).silent := by
  obtain ⟨events, rfl⟩ := exists_events h
  rw [write, write]
  generalize Bus.write width addr (width.truncate value) e.bus = answer
  obtain ⟨cause | value, bus⟩ := answer <;> rfl

theorem silent_syscall (h : e.silent = f.silent) (code : UInt32) :
    (e.syscall code).silent = (f.syscall code).silent := by
  obtain ⟨events, rfl⟩ := exists_events h
  rw [syscall, syscall]
  generalize Bus.syscall code e.state e.bus = answer
  obtain ⟨state | -, bus⟩ := answer <;> rfl

end Environment

namespace Instruction

variable [Bus β] {e f : Environment β}

theorem silent_loadTarget (i : Instruction) (h : e.silent = f.silent) (kind : LoadKind) :
    (i.loadTarget e kind).silent = (i.loadTarget f kind).silent := by
  obtain ⟨hvalue, hload⟩ := Environment.silent_load h kind (i.effectiveAddress e)
  obtain ⟨events, rfl⟩ := Environment.exists_events h
  let loaded : UInt32 × Environment β :=
    Environment.load { e with events := events } kind (i.effectiveAddress e)
  change ((e.load kind (i.effectiveAddress e)).2.setRegister _ (e.load kind _).1).silent =
    (loaded.2.setRegister _ loaded.1).silent
  rw [hvalue]
  exact Environment.silent_setRegister hload _ _

theorem silent_storeTarget (i : Instruction) (h : e.silent = f.silent) (width : Width) :
    (i.storeTarget e width).silent = (i.storeTarget f width).silent := by
  have hwrite := Environment.silent_write h width (i.effectiveAddress e)
    (e.register (i.registerOf .target))
  obtain ⟨events, rfl⟩ := Environment.exists_events h
  exact hwrite

/-- What an instruction does to the guest does not depend on the events. -/
theorem silent_interpret (i : Instruction) (h : e.silent = f.silent) :
    (i.interpret e).silent = (i.interpret f).silent := by
  have hload := silent_loadTarget i h
  have hstore := silent_storeTarget i h
  have hsyscall := Environment.silent_syscall h
  obtain ⟨events, rfl⟩ := Environment.exists_events h
  unfold interpret
  split
  all_goals first | exact hload _ | exact hstore _ | exact hsyscall _ | rfl | skip
  -- The conditional moves are left.
  all_goals
    by_cases hzero : e.register (i.registerOf .target) = 0
    · have hzero' : Environment.register { e with events := events } (i.registerOf .target) = 0 :=
        hzero
      rw [if_pos hzero, if_pos hzero']
      rfl
    · have hzero' : Environment.register { e with events := events } (i.registerOf .target) ≠ 0 :=
        hzero
      rw [if_neg hzero, if_neg hzero']
      rfl

end Instruction

/-! ## Generated code -/

namespace HostMachine

/-- The machine without the events so far. -/
def silent (m : HostMachine β) : HostMachine β :=
  { m with env := m.env.silent }

variable {m n : HostMachine β}

theorem exists_env (h : m.silent = n.silent) :
    ∃ e, n = { m with env := e } ∧ m.env.silent = e.silent := by
  obtain ⟨registers, flags, stack, ip, e⟩ := m
  obtain ⟨registers', flags', stack', ip', f⟩ := n
  obtain ⟨rfl, rfl, rfl, rfl, henv⟩ := HostMachine.mk.inj h
  exact ⟨f, rfl, henv⟩

theorem silent_congr {e f : Environment β} (h : e.silent = f.silent) (m : HostMachine β) :
    silent { m with env := e } = silent { m with env := f } := by
  rw [silent, silent, h]

theorem silent_set (h : m.silent = n.silent) (r : HostRegister) (value : UInt64) :
    (m.set r value).silent = (n.set r value).silent := by
  change m.silent.set r value = n.silent.set r value
  rw [h]

theorem silent_setWord (h : m.silent = n.silent) (r : HostRegister) (value : UInt32) :
    (m.setWord r value).silent = (n.setWord r value).silent :=
  silent_set h r _

theorem silent_loseVolatile (h : m.silent = n.silent) :
    m.loseVolatile.silent = n.loseVolatile.silent := by
  have hfold (rs : List HostRegister) (m n : HostMachine β) (h : m.silent = n.silent) :
      (rs.foldl (fun m r => m.set r lost) m).silent =
        (rs.foldl (fun m r => m.set r lost) n).silent := by
    induction rs generalizing m n with
    | nil => exact h
    | cons r rs ih => exact ih _ _ (silent_set h r lost)
  exact hfold _ m n h

theorem silent_pushValue (h : m.silent = n.silent) (value : UInt64) :
    (m.pushValue value).map silent = (n.pushValue value).map silent := by
  obtain ⟨e, rfl, henv⟩ := exists_env h
  obtain ⟨events, rfl⟩ := Environment.exists_events henv
  change Option.map silent (Option.bind (stackSlot? (m.get .rsp - 8)) _) =
    Option.map silent (Option.bind (stackSlot? (m.get .rsp - 8)) _)
  cases stackSlot? (m.get .rsp - 8) <;> rfl

theorem silent_popValue (h : m.silent = n.silent) :
    m.popValue.map (fun r => (r.1, r.2.silent)) = n.popValue.map (fun r => (r.1, r.2.silent)) := by
  obtain ⟨e, rfl, henv⟩ := exists_env h
  obtain ⟨events, rfl⟩ := Environment.exists_events henv
  change Option.map _ (Option.bind (stackSlot? (m.get .rsp)) _) =
    Option.map _ (Option.bind (stackSlot? (m.get .rsp)) _)
  cases stackSlot? (m.get .rsp) <;> rfl

variable [Bus β]

theorem silent_readMemory (h : m.silent = n.silent) (width : Width) (addr : UInt64) :
    m.readMemory width addr = n.readMemory width addr := by
  obtain ⟨e, rfl, henv⟩ := exists_env h
  obtain ⟨events, rfl⟩ := Environment.exists_events henv
  rfl

theorem silent_writeMemory (h : m.silent = n.silent) (width : Width) (addr : UInt64)
    (value : UInt32) :
    (m.writeMemory width addr value).map silent = (n.writeMemory width addr value).map silent := by
  obtain ⟨e, rfl, henv⟩ := exists_env h
  obtain ⟨events, rfl⟩ := Environment.exists_events henv
  rw [writeMemory, writeMemory]
  split <;> (dsimp only; split <;> rfl)

private theorem callHelper_of_ne {helper : Helper} (h : m.get .rdi ≠ Linkage.contextBase) :
    m.callHelper helper = none := by
  rw [callHelper, if_pos h]
  rfl

theorem silent_callHelper (h : m.silent = n.silent) (helper : Helper) :
    (m.callHelper helper).map silent = (n.callHelper helper).map silent := by
  obtain ⟨e, rfl, henv⟩ := exists_env h
  by_cases hcontext : m.get .rdi = Linkage.contextBase
  · have hcontext' : get { m with env := e } .rdi = Linkage.contextBase := hcontext
    cases helper with
    | load kind =>
      rw [callHelper_load hcontext, callHelper_load hcontext']
      obtain ⟨hvalue, hload⟩ := Environment.silent_load henv kind (m.getWord .rsi)
      have hlost := silent_loseVolatile (silent_congr hload m)
      exact congrArg some ((silent_setWord hlost .rax _).trans
        (congrArg (fun value => (HostMachine.setWord _ .rax value).silent) hvalue))
    | store width =>
      rw [callHelper_store hcontext, callHelper_store hcontext']
      exact congrArg some (silent_loseVolatile (silent_congr
        (Environment.silent_write henv width (m.getWord .rsi) (m.getWord .rdx)) m))
    | interpret =>
      -- The helper gets stuck at a word that it does not know, and at a routine of another word.
      cases hword : Instruction.interpreted? (m.getWord .rsi) with
      | none =>
        have hstuck (f : Environment β) : callHelper { m with env := f } .interpret = none := by
          change (if m.get .rdi ≠ Linkage.contextBase then none else
            Option.bind (Instruction.interpreted? (m.getWord .rsi)) _) = none
          rw [if_neg (not_not_intro hcontext), hword]
          rfl
        exact congrArg (Option.map silent) ((hstuck m.env).trans (hstuck e).symm)
      | some i =>
        by_cases hroutine : m.get .rdx = i.mnemonic.routineAddress
        · rw [callHelper_interpret hcontext hword hroutine,
            callHelper_interpret (m := { m with env := e }) hcontext hword hroutine]
          exact congrArg some
            (silent_loseVolatile (silent_congr (i.silent_interpret henv) m))
        · have hstuck (f : Environment β) : callHelper { m with env := f } .interpret = none := by
            change (if m.get .rdi ≠ Linkage.contextBase then none else
              Option.bind (Instruction.interpreted? (m.getWord .rsi)) _) = none
            rw [if_neg (not_not_intro hcontext), hword]
            exact if_pos (Ne.symm hroutine)
          exact congrArg (Option.map silent) ((hstuck m.env).trans (hstuck e).symm)
  · have hcontext' : get { m with env := e } .rdi ≠ Linkage.contextBase := hcontext
    rw [callHelper_of_ne hcontext, callHelper_of_ne hcontext']

private theorem executeStraight_call (m : HostMachine β) (target : HostRegister) :
    m.executeStraight (.call target) = (Helper.ofAddress? (m.get target)).bind m.callHelper := by
  simp only [executeStraight, bind]

theorem silent_executeStraight (h : m.silent = n.silent) (i : HostInstruction) :
    (m.executeStraight i).map silent = (n.executeStraight i).map silent := by
  have hpush := silent_pushValue h
  have hpop := silent_popValue h
  have hread := silent_readMemory h
  have hwrite := silent_writeMemory h
  have hcall := silent_callHelper h
  -- The machines differ in the events of their guests only, which no instruction reads.
  obtain ⟨e, rfl, henv⟩ := exists_env h
  obtain ⟨events, rfl⟩ := Environment.exists_events henv
  cases i with
  | load kind dst src =>
    have hvalue := hread kind.width (m.address src)
    change Option.map silent (Option.bind (m.readMemory kind.width (m.address src)) _) =
      Option.map silent (Option.bind (readMemory _ kind.width (m.address src)) _)
    rw [← hvalue]
    cases m.readMemory kind.width (m.address src) <;> rfl
  | store width dst src => exact hwrite width (m.address dst) (m.getWord src)
  | storeImmediate dst value => exact hwrite .word (m.address dst) value
  | groupImmediate op dst value =>
    cases dst with
    | register r => cases op <;> rfl
    | memory a =>
      have hvalue := hread .word (m.address a)
      change Option.map silent (Option.bind (m.readMemory .word (m.address a)) _) =
        Option.map silent (Option.bind (readMemory _ .word (m.address a)) _)
      rw [← hvalue]
      cases m.readMemory .word (m.address a) with
      | none => rfl
      | some old =>
        by_cases hop : op = .compare
        · subst hop
          rfl
        · have hset := silent_writeMemory (β := β)
            (m := m.setFlags (op.apply old value).2)
            (n := setFlags { m with env := { m.env with events := events } }
              (op.apply old value).2)
            rfl .word (m.address a) (op.apply old value).1
          cases op <;> first | exact absurd rfl hop | exact hset
  | call target =>
    have hget : get { m with env := { m.env with events := events } } target = m.get target := rfl
    rw [executeStraight_call, executeStraight_call, hget]
    cases Helper.ofAddress? (m.get target) with
    | none => rw [Option.bind_none, Option.bind_none]
    | some helper => exact hcall helper
  | push src => exact hpush (m.get src)
  | pop dst =>
    change Option.map silent (Option.bind (Option.bind (stackSlot? (m.get .rsp)) _) _) =
      Option.map silent (Option.bind (Option.bind (stackSlot? (m.get .rsp)) _) _)
    cases stackSlot? (m.get .rsp) <;> rfl
  | group op dst src => cases op <;> rfl
  | _ => rfl

/-- Where a step leads, without the events. -/
def Outcome.silent : Outcome β → Outcome β
  | running m => .running m.silent
  | returned m => .returned m.silent

theorem silent_execute (h : m.silent = n.silent) (i : HostInstruction) :
    (m.execute i).map Outcome.silent = (n.execute i).map Outcome.silent := by
  have hstraight := silent_executeStraight h i
  obtain ⟨e, rfl, henv⟩ := exists_env h
  obtain ⟨events, rfl⟩ := Environment.exists_events henv
  have hmap (x : Option (HostMachine β)) :
      (Outcome.running <$> x).map Outcome.silent = (x.map HostMachine.silent).map .running := by
    cases x <;> rfl
  cases i with
  | jumpIf c distance =>
    change some (Outcome.silent (.running (if m.flags.holds c then _ else _))) =
      some (Outcome.silent (.running (if m.flags.holds c then _ else _)))
    cases m.flags.holds c <;> rfl
  | ret =>
    change Option.map Outcome.silent (Option.bind (Option.bind (stackSlot? (m.get .rsp)) _) _) =
      Option.map Outcome.silent (Option.bind (Option.bind (stackSlot? (m.get .rsp)) _) _)
    cases stackSlot? (m.get .rsp) with
    | none => rfl
    | some slot =>
      change Option.map Outcome.silent (if m.stack[slot] = _ then _ else _) =
        Option.map Outcome.silent (if m.stack[slot] = _ then _ else _)
      split <;> rfl
  | jump _ | jumpRegister _ => rfl
  | _ => exact (hmap _).trans ((congrArg _ hstraight).trans (hmap _).symm)

theorem silent_step (h : m.silent = n.silent) (code : Arena) :
    (m.step code).map Outcome.silent = (n.step code).map Outcome.silent := by
  obtain ⟨e, rfl, henv⟩ := exists_env h
  change Option.map _ (Option.bind (HostInstruction.decode? (code.window m.ip _)) _) =
    Option.map _ (Option.bind (HostInstruction.decode? (code.window m.ip _)) _)
  cases HostInstruction.decode? (code.window m.ip HostInstruction.maxLength) with
  | none => rfl
  | some r =>
    let ip := m.ip + ((code.window m.ip HostInstruction.maxLength).length - r.2.length)
    exact silent_execute (silent_congr henv { m with ip := ip }) r.1

omit [Bus β] in
theorem silent_start {e f : Environment β} (h : e.silent = f.silent) (memoryBase : UInt64)
    (enter entry : Nat) :
    (start e memoryBase enter entry).silent = (start f memoryBase enter entry).silent := by
  obtain ⟨events, rfl⟩ := Environment.exists_events h
  rfl

/-- What generated code does to the guest does not depend on the events. -/
theorem silent_run (code : Arena) (fuel : Nat) (h : m.silent = n.silent) :
    (m.run code fuel).map silent = (n.run code fuel).map silent := by
  induction fuel generalizing m n with
  | zero => rfl
  | succ fuel ih =>
    have hstep := silent_step h code
    rw [run, run]
    generalize m.step code = x at hstep ⊢
    generalize n.step code = y at hstep ⊢
    rcases x with _ | m' | m' <;> rcases y with _ | n' | n' <;> first | rfl | cases hstep | skip
    · exact ih (Outcome.running.inj (Option.some.inj hstep))
    · exact congrArg some (Outcome.returned.inj (Option.some.inj hstep))

end HostMachine

/-! ## Sessions -/

namespace Session

/-- The session without the events so far. -/
def silent (s : Session β) : Session β :=
  { s with env := s.env.silent }

/-- An answer of a session, without the events so far. -/
def quietly {α : Type} (r : α × Session β) : α × Session β :=
  (r.1, r.2.silent)

variable {s t : Session β}

theorem exists_env (h : s.silent = t.silent) :
    ∃ e, t = { s with env := e } ∧ s.env.silent = e.silent := by
  obtain ⟨env, table, options, regions⟩ := s
  obtain ⟨e, table', options', regions'⟩ := t
  obtain ⟨henv, rfl, rfl, rfl⟩ := Session.mk.inj h
  exact ⟨e, rfl, henv⟩

theorem table_eq_of_silent (h : s.silent = t.silent) : s.table = t.table := by
  obtain ⟨e, rfl, -⟩ := exists_env h
  rfl

theorem options_eq_of_silent (h : s.silent = t.silent) : s.options = t.options := by
  obtain ⟨e, rfl, -⟩ := exists_env h
  rfl

theorem silent_congr {e f : Environment β} (h : e.silent = f.silent) (s : Session β) :
    silent { s with env := e } = silent { s with env := f } := by
  rw [silent, silent, h]

theorem silent_report (h : s.silent = t.silent) (es fs : List Event) :
    (s.report es).silent = (t.report fs).silent := by
  obtain ⟨e, rfl, henv⟩ := exists_env h
  obtain ⟨events, rfl⟩ := Environment.exists_events henv
  rfl

@[simp] theorem silent_report_self (s : Session β) (es : List Event) :
    (s.report es).silent = s.silent := rfl

theorem silent_withTable (h : s.silent = t.silent) (table : BlockTable) :
    silent { s with table := table } = silent { t with table := table } :=
  congrArg (fun u : Session β => { u with table := table }) h

theorem silent_setState (h : s.silent = t.silent) (state : State) :
    (s.setState state).silent = (t.setState state).silent := by
  obtain ⟨e, rfl, henv⟩ := exists_env h
  obtain ⟨events, rfl⟩ := Environment.exists_events henv
  rfl

theorem silent_makeRoom (h : s.silent = t.silent) : s.makeRoom.silent = t.makeRoom.silent := by
  obtain ⟨e, rfl, henv⟩ := exists_env h
  obtain ⟨events, rfl⟩ := Environment.exists_events henv
  unfold makeRoom
  split <;> rfl

variable [Bus β]

theorem quietly_compileBlock (h : s.silent = t.silent) (addr : UInt32) :
    quietly (s.compileBlock addr) = quietly (t.compileBlock addr) := by
  obtain ⟨e, rfl, henv⟩ := exists_env h
  obtain ⟨events, rfl⟩ := Environment.exists_events henv
  rfl

theorem silent_dumpBlock (h : s.silent = t.silent) (n : Nat) :
    (s.dumpBlock n).silent = (t.dumpBlock n).silent := by
  obtain ⟨e, rfl, henv⟩ := exists_env h
  obtain ⟨events, rfl⟩ := Environment.exists_events henv
  unfold dumpBlock
  dsimp only
  split <;> rfl

theorem quietly_compileRetrying (h : s.silent = t.silent) (addr : UInt32) :
    quietly (s.compileRetrying addr) = quietly (t.compileRetrying addr) := by
  have hblock := quietly_compileBlock h addr
  obtain ⟨hresult, hsilent⟩ := Prod.mk.inj hblock
  by_cases hexhausted : (s.compileBlock addr).1 = .error (.compile .codeSpaceExhausted)
  · rw [compileRetrying_of_exhausted hexhausted, compileRetrying_of_exhausted (hresult ▸ hexhausted)]
    refine quietly_compileBlock ?_ addr
    rw [retried, retried, ← table_eq_of_silent hsilent]
    exact silent_withTable (silent_report hsilent _ _) _
  · rw [compileRetrying_of_not_exhausted hexhausted,
      compileRetrying_of_not_exhausted (hresult ▸ hexhausted)]
    exact hblock

/-- What compiling a block leads to does not depend on the events. -/
theorem quietly_compile (h : s.silent = t.silent) (addr : UInt32) :
    quietly (s.compile addr) = quietly (t.compile addr) := by
  have hretrying := quietly_compileRetrying (silent_makeRoom h) addr
  have htable : s.table = t.table := table_eq_of_silent h
  cases hnumber : s.table.number? addr with
  | some n =>
    rw [compile_of_some hnumber, compile_of_some (htable ▸ hnumber)]
    exact Prod.ext rfl h
  | none =>
    rw [compile, hnumber, compile, ← htable, hnumber]
    dsimp only
    generalize s.makeRoom.compileRetrying addr = x at hretrying ⊢
    generalize t.makeRoom.compileRetrying addr = y at hretrying ⊢
    obtain ⟨result, s'⟩ := x
    obtain ⟨result', t'⟩ := y
    obtain ⟨hresult, hsilent⟩ := Prod.mk.inj hretrying
    dsimp only at hresult hsilent
    subst hresult
    have hoptions : s'.options = t'.options := options_eq_of_silent hsilent
    cases result with
    | error f => exact Prod.ext rfl hsilent
    | ok n =>
      refine Prod.ext rfl ?_
      change (if s'.options.dumpBlocks then s'.dumpBlock n else s').silent =
        (if t'.options.dumpBlocks then t'.dumpBlock n else t').silent
      rw [← hoptions]
      split
      · exact silent_dumpBlock hsilent n
      · exact hsilent

/-- What a block does does not depend on the events. -/
theorem quietly_enter (h : s.silent = t.silent) (entry : Nat) :
    (s.enter entry).map quietly = (t.enter entry).map quietly := by
  obtain ⟨e, rfl, henv⟩ := exists_env h
  have hstate : s.env.state = e.state := Environment.state_eq_of_silent henv
  have hbound : stepBound { s with env := e } = s.stepBound := by
    rw [stepBound, stepBound, hstate]
  have hrun := HostMachine.silent_run s.table.code s.stepBound
    (HostMachine.silent_start henv s.memoryBase s.table.stubs.enter entry)
  rw [enter, enter, hbound]
  change Option.map quietly (Option.bind (HostMachine.run s.table.code s.stepBound
      (.start s.env s.memoryBase s.table.stubs.enter entry)) _) =
    Option.map quietly (Option.bind (HostMachine.run s.table.code s.stepBound
      (.start e s.memoryBase s.table.stubs.enter entry)) _)
  generalize HostMachine.run s.table.code s.stepBound
    (.start s.env s.memoryBase s.table.stubs.enter entry) = x at hrun ⊢
  generalize HostMachine.run s.table.code s.stepBound
    (.start e s.memoryBase s.table.stubs.enter entry) = y at hrun ⊢
  rcases x with _ | m <;> rcases y with _ | n <;> first | rfl | cases hrun | skip
  obtain ⟨f, rfl, henv'⟩ := HostMachine.exists_env (Option.some.inj hrun)
  change Option.map quietly (Option.bind (ExitReason.ofWord? (m.getWord .scratch)) _) =
    Option.map quietly (Option.bind (ExitReason.ofWord? (m.getWord .scratch)) _)
  cases ExitReason.ofWord? (m.getWord .scratch) with
  | none => rfl
  | some reason => exact congrArg (fun u => some (reason, u)) (silent_congr henv' s)

theorem quietly_refuse (h : s.silent = t.silent) : quietly s.refuse = quietly t.refuse := by
  obtain ⟨e, rfl, henv⟩ := exists_env h
  obtain ⟨events, rfl⟩ := Environment.exists_events henv
  rfl

/-- What a run leads to does not depend on the events. -/
theorem quietly_loop (rounds : Nat) (h : s.silent = t.silent) :
    (s.loop rounds).map quietly = (t.loop rounds).map quietly := by
  induction rounds generalizing s t with
  | zero => rfl
  | succ rounds ih =>
    -- Both sessions look up, compile and enter the same block, whatever they reported before.
    have hcompile := quietly_compile h s.env.state.pc
    have hreport (state : CoreState) (pc : UInt32) :=
      silent_report h [.coreStateChanged state pc] [.coreStateChanged state pc]
    obtain ⟨e, rfl, henv⟩ := exists_env h
    have hstate : s.env.state = e.state := Environment.state_eq_of_silent henv
    rw [loop, loop]
    dsimp only
    rw [← hstate]
    split
    · exact congrArg some (Prod.ext rfl (hreport _ _))
    · split
      · exact congrArg some (Prod.ext rfl h)
      · generalize s.compile s.env.state.pc = x at hcompile ⊢
        generalize compile { s with env := e } s.env.state.pc = y at hcompile ⊢
        obtain ⟨result, s'⟩ := x
        obtain ⟨result', t'⟩ := y
        obtain ⟨hresult, hsilent⟩ := Prod.mk.inj hcompile
        dsimp only at hresult hsilent
        subst hresult
        cases result with
        | error e => exact congrArg some (Prod.ext rfl hsilent)
        | ok n =>
          dsimp only
          rw [← table_eq_of_silent hsilent]
          have henter := quietly_enter hsilent
            (((s'.table.block? n).map (·.checkedEntry)).getD 0)
          generalize s'.enter _ = x at henter ⊢
          generalize t'.enter _ = y at henter ⊢
          rcases x with _ | ⟨reason, s₁⟩ <;> rcases y with _ | ⟨reason', t₁⟩ <;>
            first | rfl | cases henter | skip
          obtain ⟨hreason, hsilent₁⟩ := Prod.mk.inj (Option.some.inj henter)
          dsimp only at hreason hsilent₁
          subst hreason
          cases reason with
          | hardFault => exact congrArg some (quietly_refuse hsilent₁)
          | _ => exact ih hsilent₁

theorem quietly_run (rounds : Nat) (h : s.silent = t.silent) (cycles : UInt32) :
    (s.run rounds cycles).map quietly = (t.run rounds cycles).map quietly := by
  have hstate : s.env.state = t.env.state := by
    obtain ⟨e, rfl, henv⟩ := exists_env h
    exact Environment.state_eq_of_silent henv
  rw [run, run, ← hstate]
  exact quietly_loop rounds (silent_setState h _)

end Session

end Recompiler
