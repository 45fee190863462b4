import Recompiler.Proofs.Code.Calls

/-!
# Crossing code

The machines that a run comes by, and what they have in common while the run crosses a piece of code:
they run forward within it and keep the frame.

* `HostMachine.visits`: the machines that a run comes by.
* `HostMachine.call?`: the call for interpretation that a machine is about to make.
* `HostMachine.frame_executeStraight`: what generated code leaves alone.
* `Crosses`: a run across a piece of code, with its calls.
* `Point.Leads.crosses`: where symbolic code leads, its bytes cross to.
-/

namespace Recompiler

variable {β : Type}

/-! ## What a run comes by -/

namespace HostMachine

/-- The call for interpretation that the machine is about to make. -/
def call? (code : Arena) (m : HostMachine β) : Option (Call β) :=
  (HostInstruction.decode? (code.window m.ip HostInstruction.maxLength)).bind (·.1.call? m)

/-- The instruction that the machine is about to run. -/
def instruction? (code : Arena) (m : HostMachine β) : Option HostInstruction :=
  (HostInstruction.decode? (code.window m.ip HostInstruction.maxLength)).map Prod.fst

theorem call?_eq (code : Arena) (m : HostMachine β) :
    m.call? code = (m.instruction? code).bind (·.call? m) := by
  rw [call?, instruction?, Option.bind_map]
  rfl

variable [Bus β] {code : Arena} {m n v : HostMachine β}

/-- The machines that a run comes by, at most `fuel` of them, up to where control returns to the
host. -/
def visits (code : Arena) : (fuel : Nat) → HostMachine β → List (HostMachine β)
  | 0, _ => []
  | fuel + 1, m =>
    m :: match m.step code with
      | some (.running n) => visits code fuel n
      | _ => []

theorem visits_succ {j : Nat} (h : m.step code = some (.running n)) :
    visits code (j + 1) m = m :: visits code j n := by
  rw [visits, h]

/-- What a run comes by first, and then. -/
theorem Steps.visits {k : Nat} (h : Steps code k m n) (j : Nat) :
    visits code (k + j) m = visits code k m ++ visits code j n := by
  induction k generalizing m with
  | zero =>
    obtain rfl : n = m := h
    rw [Nat.zero_add]
    rfl
  | succ k ih =>
    obtain ⟨p, hstep, hrest⟩ := h
    rw [Nat.succ_add, visits_succ hstep, visits_succ hstep, ih hrest, List.cons_append]

/-- A run comes by what some steps lead to. -/
theorem mem_visits {k : Nat} : v ∈ visits code k m ↔ ∃ j < k, Steps code j m v := by
  induction k generalizing m with
  | zero => simp [HostMachine.visits]
  | succ k ih =>
    rw [HostMachine.visits, List.mem_cons]
    constructor
    · rintro (rfl | h)
      · exact ⟨0, Nat.succ_pos k, rfl⟩
      · split at h
        · next n hstep =>
          obtain ⟨j, hj, hsteps⟩ := ih.1 h
          exact ⟨j + 1, Nat.succ_lt_succ hj, n, hstep, hsteps⟩
        · cases h
    · rintro ⟨j, hj, hsteps⟩
      cases j with
      | zero => exact .inl hsteps
      | succ j =>
        obtain ⟨n, hstep, hsteps⟩ := hsteps
        right
        rw [hstep]
        exact ih.2 ⟨j, Nat.lt_of_succ_lt_succ hj, hsteps⟩

/-! ## What stays -/

theorem stack_writeMemory {width : Width} {addr : UInt64} {value : UInt32}
    (h : m.writeMemory width addr value = some n) : n.stack = m.stack := by
  rw [writeMemory] at h
  split at h <;> split at h <;> cases h <;> rfl

theorem stack_callHelper {helper : Helper} (h : m.callHelper helper = some n) :
    n.stack = m.stack := by
  have hlost (m : HostMachine β) : m.loseVolatile.stack = m.stack := (Keeps.loseVolatile m).stack
  have hresult (m : HostMachine β) (value : UInt32) : (m.setWord .rax value).stack = m.stack := rfl
  by_cases hcontext : m.get .rdi = Linkage.contextBase
  · cases helper with
    | load kind =>
      rw [callHelper_load hcontext] at h
      rw [← Option.some.inj h, hresult, hlost]
      rfl
    | store width =>
      rw [callHelper_store hcontext] at h
      rw [← Option.some.inj h, hlost]
      rfl
    | interpret =>
      rw [callHelper, if_neg (not_not_intro hcontext)] at h
      obtain ⟨i, -, hrest⟩ := Option.bind_eq_some_iff.1 h
      split at hrest
      · cases hrest
      · rw [← Option.some.inj hrest, hlost]
  · rw [callHelper, if_pos hcontext] at h
    cases h

/-- Only pushing writes to the stack. -/
theorem stack_executeStraight {i : HostInstruction} (h : m.executeStraight i = some n)
    (hi : ∀ src, i ≠ .push src) : n.stack = m.stack := by
  cases i with
  | store width dst src => exact stack_writeMemory h
  | storeImmediate dst value => exact stack_writeMemory h
  | call target =>
    obtain ⟨helper, -, hcall⟩ := Option.bind_eq_some_iff.1 h
    exact stack_callHelper hcall
  | load kind dst src =>
    obtain ⟨v, -, hload⟩ := Option.bind_eq_some_iff.1 h
    cases hload
    rfl
  | group op dst src => cases op <;> cases h <;> rfl
  | groupImmediate op dst value =>
    obtain ⟨old, -, hwrite⟩ := Option.bind_eq_some_iff.1 h
    dsimp only at hwrite
    split at hwrite
    · cases hwrite
      rfl
    · cases dst with
      | register dst =>
        cases hwrite
        rfl
      | memory a => exact stack_writeMemory (m := m.setFlags (op.apply old value).2) hwrite
  | push src => exact absurd rfl (hi src)
  -- A pop moves the stack pointer but leaves the bytes.
  | pop dst =>
    obtain ⟨⟨v, m₁⟩, hpop, hwrite⟩ := Option.bind_eq_some_iff.1 h
    obtain ⟨slot, -, hslot⟩ := Option.bind_eq_some_iff.1 hpop
    cases hslot
    cases hwrite
    rfl
  | jump | jumpIf | jumpRegister | ret | trap => cases h
  | _ =>
    cases h
    rfl

/-- Instructions that write spare registers only keep the frame. -/
theorem frame_executeStraight {i : HostInstruction} (h : m.executeStraight i = some n)
    (hi : i.Valid) (hwritten : ∀ r ∈ i.written, r.Spare) : n.frame = m.frame := by
  have hget {r : HostRegister} (hr : r.Valid) (hspare : ¬ r.Spare) : n.get r = m.get r :=
    get_executeStraight h hi hr fun hmem => hspare (hwritten r hmem)
  have hstack : n.stack = m.stack := by
    refine stack_executeStraight h ?_
    rintro src rfl
    exact (hwritten .rsp (List.mem_singleton_self _)).stack rfl
  rw [frame, frame, hget (by decide) (by decide), hget (by decide) (by decide),
    hget (by decide) (by decide), hstack]

end HostMachine

/-! ## Crossings -/

open HostMachine

variable [Bus β] {code : Arena} {stop stop' j k : Nat} {cs cs' : List (Call β)}
  {m n p : HostMachine β}

/-- A run of `k` steps across code that ends at `stop`: it runs forward, keeps the frame, and makes
these calls. -/
structure Crosses (code : Arena) (stop k : Nat) (cs : List (Call β)) (m n : HostMachine β) :
    Prop where
  steps : Steps code k m n
  calls : (visits code k m).filterMap (call? code) = cs
  frame : n.frame = m.frame
  frames : ∀ v ∈ visits code k m, v.frame = m.frame
  within : ∀ v ∈ visits code k m, m.ip ≤ v.ip ∧ v.ip < stop
  onward : (visits code k m).Pairwise fun v w => v.ip < w.ip
  length : m.ip + k ≤ stop

namespace Crosses

theorem refl (h : m.ip ≤ stop) : Crosses code stop 0 [] m m :=
  ⟨rfl, rfl, rfl, by simp [visits], by simp [visits], .nil, h⟩

/-- A single step. -/
theorem one (h : m.step code = some (.running n)) (hcall : (m.call? code).toList = cs)
    (hframe : n.frame = m.frame) (hstop : m.ip < stop) : Crosses code stop 1 cs m n := by
  have hvisits : visits code 1 m = [m] := visits_succ h
  refine ⟨.one h, ?_, hframe, ?_, ?_, ?_, hstop⟩
  · rw [hvisits, ← hcall]
    cases hcall? : m.call? code <;> simp [hcall?]
  · simp [hvisits]
  · simpa [hvisits] using hstop
  · simp [hvisits]

theorem mono (h : Crosses code stop k cs m n) (hle : stop ≤ stop') :
    Crosses code stop' k cs m n :=
  { h with
    within := fun v hv => ⟨(h.within v hv).1, Nat.lt_of_lt_of_le (h.within v hv).2 hle⟩
    length := Nat.le_trans h.length hle }

theorem trans (h : Crosses code p.ip j cs m p) (h' : Crosses code stop k cs' p n) :
    Crosses code stop (j + k) (cs ++ cs') m n := by
  have hvisits := h.steps.visits k
  have hfirst := h.length
  have hthen := h'.length
  refine ⟨h.steps.trans h'.steps, ?_, h'.frame.trans h.frame, ?_, ?_, ?_, by omega⟩
  · rw [hvisits, List.filterMap_append, h.calls, h'.calls]
  · intro v hv
    rw [hvisits, List.mem_append] at hv
    rcases hv with hv | hv
    · exact h.frames v hv
    · exact (h'.frames v hv).trans h.frame
  · intro v hv
    rw [hvisits, List.mem_append] at hv
    rcases hv with hv | hv
    · have hwithin := h.within v hv
      omega
    · have hwithin := h'.within v hv
      omega
  · rw [hvisits, List.pairwise_append]
    refine ⟨h.onward, h'.onward, fun v hv w hw => ?_⟩
    exact Nat.lt_of_lt_of_le (h.within v hv).2 (h'.within w hw).1

/-- Behind its first step the run has left the place where it began. -/
theorem behind (h : Crosses code stop (k + 1) cs m n) :
    ∃ vs, visits code (k + 1) m = m :: vs ∧ ∀ v ∈ vs, m.ip < v.ip := by
  have honward := h.onward
  rw [visits] at honward ⊢
  exact ⟨_, rfl, (List.pairwise_cons.1 honward).1⟩

end Crosses

/-! ## Symbolic code and its bytes -/

namespace Point

variable {offset ip : Nat} {p q : Point β} {regions : List FastRegion} {post : Outlook β}
  {ds : List Dealing}

omit [Bus β] in
theorem instruction?_of_hasBytes {i : HostInstruction} (h : HasBytes code.written ip i.encode)
    (hi : i.Valid) (m : HostMachine β) : (m.goto ip).instruction? code = some i := by
  obtain ⟨rest, hwindow⟩ := window_of_hasBytes h (HostInstruction.length_encode_le i).2
  rw [HostMachine.instruction?, ip_goto, hwindow, HostInstruction.decode?_encode hi]
  rfl

omit [Bus β] in
theorem call?_of_hasBytes {i : HostInstruction} (h : HasBytes code.written ip i.encode)
    (hi : i.Valid) (m : HostMachine β) : (m.goto ip).call? code = i.call? (m.goto ip) := by
  rw [call?_eq, instruction?_of_hasBytes h hi, Option.bind_some]

/-- A jump is a single step. -/
theorem crosses_jump {target : Nat} {i : HostInstruction} {m : HostMachine β}
    (hbytes : HasBytes code.written ip i.encode) (hi : i.Valid)
    (hcall : ∀ m : HostMachine β, i.call? m = none)
    (hstep : (m.goto ip).step code = some (.running (m.goto target))) (hlt : ip < stop) :
    Crosses code stop 1 [] (m.goto ip) (m.goto target) := by
  refine .one hstep ?_ rfl hlt
  rw [call?_of_hasBytes hbytes hi, hcall]
  rfl

/-- The machine of the bytes makes the call of the symbolic code. -/
theorem At.call? (hp : p.At code offset ip) (hvalid : p.Valid) (h : p.next? = some q)
    (hpace : p.pace = 1) : (p.machine.goto ip).call? code = p.call? := by
  obtain ⟨label?, items, m⟩ := p
  cases label? with
  | some label => cases items <;> cases hpace
  | none =>
    cases items with
    | nil => cases hpace
    | cons item rest =>
      obtain rfl : ip = offset := hp.ip
      obtain ⟨⟨hplaced, -⟩, -, ⟨hbound, -⟩, -⟩ := hp
      cases item with
      | instruction i =>
        rw [call?_of_hasBytes hplaced hvalid]
        cases i <;> rfl
      | jump label =>
        obtain ⟨target, htarget⟩ := Layout.exists_labelOffset? (hbound label rfl) (ip + 5)
        exact call?_of_hasBytes (hplaced target htarget) trivial m
      | jumpIf c label =>
        obtain ⟨target, htarget⟩ := Layout.exists_labelOffset? (hbound label rfl) (ip + 6)
        exact call?_of_hasBytes (hplaced target htarget) trivial m
      | jumpIfTo c target => exact call?_of_hasBytes hplaced trivial m
      | _ => cases hpace

/-- A step in bounds keeps the frame. -/
theorem frame_next? (hp : p.Bounded regions) (h : p.next? = some q) :
    q.machine.frame = p.machine.frame := by
  obtain ⟨label?, items, m⟩ := p
  cases items with
  | nil => cases label? <;> cases h
  | cons item rest =>
    cases label? with
    | some label =>
      cases h
      rfl
    | none =>
      cases item with
      | instruction i =>
        obtain ⟨n, hexecute, rfl⟩ := Option.map_eq_some_iff.1 h
        obtain ⟨hvalid, -, hwritten, -⟩ := hp _ rfl
        exact frame_executeStraight hexecute hvalid hwritten
      | jumpIfTo c target =>
        change (if m.flags.holds c then none else _) = _ at h
        split at h <;> cases h
        rfl
      | jump | jumpIf | bind | entry =>
        cases h
        rfl
      | jumpTo | leave | align => cases h

/-- A symbolic step takes the machine of the bytes forward. -/
theorem At.crosses (hp : p.At code offset ip)
    (hguarded : Guarded regions post p.items p.label? p.machine ds) (h : p.next? = some q) :
    ∃ item ip', p.items = item :: q.items ∧ q.At code (offset + item.size offset) ip' ∧
      Crosses code ip' p.pace p.call?.toList (p.machine.goto ip) (q.machine.goto ip') := by
  obtain ⟨item, ip', hitems, hq, hle, hsteps⟩ := hp.step hguarded.valid h
  refine ⟨item, ip', hitems, hq, ?_⟩
  rcases Nat.le_one_iff_eq_zero_or_eq_one.1 p.pace_le_one with hpace | hpace
  · have hcall : p.call? = none := by
      obtain ⟨label?, items, m⟩ := p
      cases label? <;> cases items <;> try rfl
      next item' _ => cases item' <;> first | rfl | cases hpace
    rw [hpace] at hsteps hle ⊢
    have hsame : q.machine.goto ip' = p.machine.goto ip := hsteps
    rw [hcall, hsame]
    exact .refl hle
  · rw [hpace] at hsteps hle ⊢
    obtain ⟨_, hstep, rfl⟩ := hsteps
    refine .one hstep ?_ (frame_next? hguarded.bounded h) hle
    rw [hp.call? hguarded.valid h hpace]

/-- The bytes of laid out code cross to where the symbolic code leads. -/
theorem Leads.crosses (h : p.Leads cs q) (hp : p.At code offset ip)
    (hguarded : Guarded regions post p.items p.label? p.machine ds) :
    ∃ before ip' k, p.items = before ++ q.items ∧ q.At code (Layout.stop offset before) ip' ∧
      Crosses code ip' k cs (p.machine.goto ip) (q.machine.goto ip') := by
  induction h generalizing offset ip ds with
  | refl p => exact ⟨[], ip, 0, rfl, hp, .refl (Nat.le_refl _)⟩
  | step hvalid hnext _ ih =>
    obtain ⟨item, ip₁, hitems, hq, hcross⟩ := hp.crosses hguarded hnext
    obtain ⟨before, ip₂, k, hrest, hr, hcross'⟩ := ih hq (hguarded.of_next? hnext)
    exact ⟨item :: before, ip₂, _, by rw [hitems, hrest]; rfl, hr, hcross.trans hcross'⟩

end Point

end Recompiler
