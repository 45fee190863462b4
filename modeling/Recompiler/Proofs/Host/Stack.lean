import Recompiler.Proofs.Host.Contained

/-!
# The stack

Generated code is called like a function. The way in saves what the host expects back, and the way out
restores it from the stack, whatever became of the registers meanwhile.

* `HostMachine.runs_pushes`: what is pushed can be popped again.
* `HostMachine.Called`: a machine that calls generated code.
* `HostMachine.runs_enter`: the way in, and with its frame the way out.
-/

namespace Recompiler

variable {β : Type}

namespace HostMachine

/-- The host address of a stack slot. -/
def slotAddress (k : Nat) : UInt64 :=
  Linkage.stackBase + 8 * k.toUInt64

theorem stackSlot?_slotAddress (k : Fin Linkage.stackSlots) :
    stackSlot? (slotAddress k) = some k := by
  revert k
  decide

theorem slotAddress_succ (k : Fin Linkage.stackSlots) :
    slotAddress (k + 1) - 8 = slotAddress k ∧ slotAddress k + 8 = slotAddress (k + 1) := by
  revert k
  decide

variable {m : HostMachine β} {k : Nat}

theorem pushValue_eq (hk : k < Linkage.stackSlots) (h : m.get .rsp = slotAddress (k + 1))
    (value : UInt64) :
    m.pushValue value =
      some { m.set .rsp (slotAddress k) with stack := m.stack.set k value } := by
  have htop := (slotAddress_succ ⟨k, hk⟩).1
  have hslot := stackSlot?_slotAddress ⟨k, hk⟩
  dsimp only at htop hslot
  rw [pushValue, h, htop, hslot]
  rfl

theorem popValue_eq (hk : k < Linkage.stackSlots) (h : m.get .rsp = slotAddress k) :
    m.popValue = some (m.stack[k], m.set .rsp (slotAddress (k + 1))) := by
  have htop := (slotAddress_succ ⟨k, hk⟩).2
  have hslot := stackSlot?_slotAddress ⟨k, hk⟩
  dsimp only at htop hslot
  rw [popValue, h, hslot, htop]
  rfl

/-! ## Saving and restoring -/

/-- The registers `rs`, which `m` had saved below slot `k + rs.length`, were restored in `p`. -/
structure Restores (rs : List HostRegister) (k : Nat) (m p q : HostMachine β) : Prop where
  env : q.env = p.env
  stack : q.stack = p.stack
  top : q.get .rsp = slotAddress (k + rs.length)
  saved : ∀ r ∈ rs, q.get r = m.get r
  others : ∀ r : HostRegister, r.Valid → r ≠ .rsp → r ∉ rs → q.get r = p.get r

variable [Bus β]

/-- The registers `rs` were saved in the slots from `k` on, from which they can be restored. -/
structure Saves (rs : List HostRegister) (k : Nat) (m n : HostMachine β) : Prop where
  env : n.env = m.env
  top : n.get .rsp = slotAddress k
  registers : ∀ r : HostRegister, r.Valid → r ≠ .rsp → n.get r = m.get r
  above : ∀ j, k + rs.length ≤ j → n.stack[j]? = m.stack[j]?
  restores : ∀ p : HostMachine β, p.stack = n.stack → p.get .rsp = slotAddress k →
    ∃ q, Runs (rs.reverse.map .pop) p q ∧ Restores rs k m p q

/-- Registers are saved while there is room on the stack. -/
theorem runs_pushes (rs : List HostRegister) (hrs : ∀ r ∈ rs, r.Valid ∧ r ≠ .rsp)
    (hroom : k + rs.length ≤ Linkage.stackSlots)
    (hrsp : m.get .rsp = slotAddress (k + rs.length)) :
    ∃ n, Runs (rs.map .push) m n ∧ Saves rs k m n := by
  -- The stack grows down, so the first register is pushed to the highest slot, and the others by
  -- induction to the slots below.
  induction rs generalizing m with
  | nil =>
    refine ⟨m, rfl, rfl, hrsp, fun _ _ _ => rfl, fun _ _ => rfl, fun p _ htop => ⟨p, rfl, ?_⟩⟩
    exact ⟨rfl, rfl, htop, fun _ h => absurd h List.not_mem_nil, fun _ _ _ _ => rfl⟩
  | cons r rs ih =>
    have hk : k + rs.length < Linkage.stackSlots := hroom
    obtain ⟨hvalid, hne⟩ := hrs r List.mem_cons_self
    obtain ⟨m₁, hm₁⟩ : ∃ m₁ : HostMachine β, m₁ = { m.set .rsp (slotAddress (k + rs.length)) with
      stack := m.stack.set (k + rs.length) (m.get r) } := ⟨_, rfl⟩
    have hpush : m.executeStraight (.push r) = some m₁ := hm₁ ▸ pushValue_eq hk hrsp _
    have hget (q : HostRegister) : m₁.get q = (m.set .rsp (slotAddress (k + rs.length))).get q := by
      rw [hm₁]
      rfl
    have hothers (q : HostRegister) (hq : q.Valid) (hne : q ≠ .rsp) : m₁.get q = m.get q := by
      rw [hget, get_set_of_ne _ (by decide) hq (Ne.symm hne)]
    have hslot : m₁.stack[k + rs.length]? = some (m.get r) := by
      simp [hm₁, hk]
    obtain ⟨n, hruns, hn⟩ := ih (m := m₁) (fun q hq => hrs q (List.mem_cons_of_mem _ hq))
      (Nat.le_of_lt hk) (by rw [hget, get_set_self])
    refine ⟨n, .cons hvalid hpush hruns, ?_, hn.top, fun q hq hne => ?_, fun j hj => ?_,
      fun p hstack htop => ?_⟩
    · rw [hn.env, hm₁]
      rfl
    · rw [hn.registers q hq hne, hothers q hq hne]
    · rw [List.length_cons] at hj
      rw [hn.above j (by omega), hm₁]
      simp [show k + rs.length ≠ j by omega]
    · -- The last register to be popped lies where the first one was pushed.
      obtain ⟨q, hpops, hq⟩ := hn.restores p hstack htop
      have hvalue : q.stack[k + rs.length] = m.get r := by
        have hfound : q.stack[k + rs.length]? = some (m.get r) := by
          rw [hq.stack, hstack, hn.above _ (Nat.le_refl _), hslot]
        rwa [Vector.getElem?_eq_getElem hk, Option.some.injEq] at hfound
      obtain ⟨q₁, hq₁⟩ : ∃ q₁ : HostMachine β,
        q₁ = (q.set .rsp (slotAddress (k + rs.length + 1))).set r (m.get r) := ⟨_, rfl⟩
      have hpop : q.executeStraight (.pop r) = some q₁ := by
        rw [executeStraight, popValue_eq hk hq.top, hvalue, hq₁]
        rfl
      have hkept (x : HostRegister) (hx : x.Valid) (hrsp : x ≠ .rsp) (hxr : x ≠ r) :
          q₁.get x = q.get x := by
        rw [hq₁, get_set_of_ne _ hvalid hx (Ne.symm hxr),
          get_set_of_ne _ (by decide) hx (Ne.symm hrsp)]
      refine ⟨q₁, ?_, ?_, ?_, ?_, fun x hx => ?_, fun x hx hrsp hnot => ?_⟩
      · rw [List.reverse_cons, List.map_append]
        exact hpops.append (.one hvalid hpop)
      · rw [hq₁]
        exact hq.env
      · rw [hq₁]
        exact hq.stack
      · rw [hq₁, get_set_of_ne _ hvalid (by decide) hne, get_set_self]
        rfl
      · by_cases hxr : x = r
        · rw [hxr, hq₁, get_set_self]
        · have hmem := (List.mem_cons.1 hx).resolve_left hxr
          obtain ⟨hx, hrsp⟩ := hrs x (List.mem_cons_of_mem _ hmem)
          rw [hkept x hx hrsp hxr, hq.saved x hmem, hothers x hx hrsp]
      · rw [List.mem_cons, not_or] at hnot
        rw [hkept x hx hrsp hnot.1, hq.others x hx hrsp hnot.2]

end HostMachine

/-! ## The way in and the way out -/

namespace Sequence

/-- The way in up to its jump. -/
def saving : List HostInstruction :=
  HostRegister.preserved.map .push ++
    [.growStack 8, .moveWide .context .rdi, .moveWide .memoryBase .rsi]

/-- The way out up to its return. -/
def restoring : List HostInstruction :=
  [.shrinkStack 8] ++ HostRegister.preserved.reverse.map .pop

theorem enter_eq : enter = saving ++ [.jumpRegister .rdx] := rfl

theorem leave_eq : leave = restoring ++ [.ret] := rfl

end Sequence

namespace HostMachine

/-- The slot that holds the return address when generated code is called. -/
def returnSlot : Nat :=
  Linkage.stackSlots - 1

/-- The machine calls generated code with its three arguments: the address of the guest state, that of
the main region, and that of the code at offset `entry`. -/
structure Called (regions : List FastRegion) (entry : Nat) (m : HostMachine β) : Prop where
  context : m.get .rdi = Linkage.contextBase
  main : ∀ r, regions[0]? = some r → m.get .rsi = r.pointer
  entry : m.get .rdx = Linkage.codeBase + entry.toUInt64
  top : m.get .rsp = slotAddress returnSlot
  back : m.stack[returnSlot]? = some Linkage.returnAddress

/-- The host calls generated code. -/
theorem called_start {regions : List FastRegion} {base : UInt64}
    (hbase : ∀ r, regions[0]? = some r → base = r.pointer) (env : Environment β)
    (enter entry : Nat) : (start env base enter entry).Called regions entry where
  context := by simp (disch := decide) only [start, get_set_of_ne, get_set_self]
  main r hr := by simp (disch := decide) only [start, get_set_of_ne, get_set_self, hbase r hr]
  entry := get_set_self _ _ _
  top := by
    simp (disch := decide) only [start, get_set_of_ne, get_set_self]
    rfl
  back := by
    have hslot : returnSlot < Linkage.stackSlots := by decide
    change ((Vector.replicate Linkage.stackSlots 0).set returnSlot _ hslot)[returnSlot]? = _
    rw [Vector.getElem?_set_self]

variable [Bus β] {m n : HostMachine β} {regions : List FastRegion} {entry : Nat}

/-- The frame that generated code works in after `m` called it: the arguments of the call, a stack
pointer at a boundary of sixteen bytes, and what is needed to go back. -/
structure Hosts (m : HostMachine β) (f : Frame) : Prop where
  context : f.context = m.get .rdi
  memoryBase : f.memoryBase = m.get .rsi
  top : f.top = m.get .rsp - 56
  aligned : f.top % 16 = 0
  restores : ∀ p : HostMachine β, p.frame = f → ∃ q, Runs Sequence.restoring p q ∧
    q.env = p.env ∧ q.get .rax = p.get .rax ∧ q.get .rsp = m.get .rsp ∧
    (∀ r ∈ HostRegister.preserved, q.get r = m.get r) ∧
    q.stack[returnSlot]? = some Linkage.returnAddress

/-- The way in gives the registers their roles, and then jumps to the entry. -/
theorem runs_enter (h : m.Called regions entry) :
    ∃ n, Runs Sequence.saving m n ∧ n.Roles regions ∧ n.env = m.env ∧
      n.get .rdx = Linkage.codeBase + entry.toUInt64 ∧ m.Hosts n.frame := by
  have hrsp : m.get .rsp = slotAddress (9 + HostRegister.preserved.length) := h.top
  obtain ⟨n, hruns, hn⟩ := runs_pushes HostRegister.preserved (by decide) (by decide) hrsp
  obtain ⟨n₁, hn₁⟩ : ∃ n₁ : HostMachine β,
    n₁ = ((n.set .rsp (n.get .rsp - (8 : UInt8).toUInt64)).set .context (n.get .rdi)).set
      .memoryBase (n.get .rsi) := ⟨_, rfl⟩
  have hmove {r q : HostRegister} (hr : r.Valid) (hq : q.Valid) :
      (HostInstruction.moveWide r q).Valid := ⟨hr, hq⟩
  -- Behind the saved registers the stack is aligned, and two arguments are put into their roles.
  have hrest : Runs [.growStack 8, .moveWide .context .rdi, .moveWide .memoryBase .rsi] n n₁ := by
    refine .cons trivial rfl (.cons (hmove (by decide) (by decide)) rfl
      (.one (hmove (by decide) (by decide)) ?_))
    simp (disch := decide) only [executeStraight, hn₁, get_set_of_ne]
  have hcontext : n₁.get .context = m.get .rdi := by
    simp (disch := decide) only [hn₁, get_set_of_ne, get_set_self, hn.registers]
  have hmain : n₁.get .memoryBase = m.get .rsi := by
    simp (disch := decide) only [hn₁, get_set_self, hn.registers]
  have htop : n₁.get .rsp = slotAddress 8 := by
    simp (disch := decide) only [hn₁, get_set_of_ne, get_set_self, hn.top]
    rfl
  have hstack : n₁.stack = n.stack := by
    rw [hn₁]
    rfl
  refine ⟨n₁, hruns.append hrest, ⟨hcontext.trans h.context, fun r hr => hmain.trans (h.main r hr)⟩,
    ?_, ?_, hcontext, hmain, ?_, ?_, fun p hp => ?_⟩
  · rw [hn₁]
    exact hn.env
  · simp (disch := decide) only [hn₁, get_set_of_ne, hn.registers, h.entry]
  · rw [frame, htop, h.top]
    rfl
  · change n₁.get .rsp % 16 = 0
    rw [htop]
    rfl
  -- The way back undoes that, whatever generated code did to the other registers.
  · obtain ⟨p₁, hp₁⟩ : ∃ p₁ : HostMachine β,
      p₁ = p.set .rsp (p.get .rsp + (8 : UInt8).toUInt64) := ⟨_, rfl⟩
    have hptop : p.get .rsp = slotAddress 8 := (congrArg Frame.top hp).trans htop
    have hpstack : p.stack = n.stack := (congrArg Frame.stack hp).trans hstack
    obtain ⟨q, hpops, hq⟩ := hn.restores p₁ (by rw [hp₁]; exact hpstack) (by
      rw [hp₁, get_set_self, hptop]
      rfl)
    refine ⟨q, .cons trivial (by rw [hp₁]; rfl) hpops, ?_, ?_, ?_, hq.saved, ?_⟩
    · rw [hq.env, hp₁]
      rfl
    · rw [hq.others .rax (by decide) (by decide) (by decide), hp₁,
        get_set_of_ne _ (by decide) (by decide) (by decide)]
    · rw [hq.top, hrsp]
    · rw [hq.stack, hp₁]
      change p.stack[returnSlot]? = _
      rw [hpstack, hn.above _ (by decide), h.back]

end HostMachine

end Recompiler
