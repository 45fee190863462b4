import Recompiler.Proofs.Block.Voyage
import Recompiler.Proofs.Code.Returning

/-!
# Calls from the host

The host calls generated code with the entry of a block. Control comes in through a stub, passes from
block to block, and goes back through other stubs.

* `Departure.reason`: the reason with which control returns after a way out.
* `BlockTable.Tours`: a run over stubs and blocks.
* `BlockTable.Coherent.exists_return_or_stretch`: a call returns to the host, or goes on.
* `BlockTable.Coherent.exists_return`: it returns, if blocks cannot overspend by too much.
-/

namespace Recompiler

open HostMachine

variable {β : Type}

/-- The reason with which control returns to the host after a way out that leads to a stub. -/
def Departure.reason (d : Departure β) : ExitReason :=
  match d.way with
  | .exit _ spent => if spent then .downcountExpired else .dispatch
  | .dispatch => .dispatch
  | .checked => if d.env.state.get Slot.coreState = 0 then .dispatch else .coreState
  | .refused => .hardFault

/-- Only a refused instruction is reported as such. -/
theorem Departure.reason_eq_hardFault {d : Departure β} :
    d.reason = .hardFault ↔ d.way = .refused := by
  unfold reason
  generalize d.way = way
  cases way with
  | exit _ spent => cases spent <;> simp
  | dispatch => simp
  | checked =>
    dsimp only
    split <;> simp
  | refused => simp

namespace BlockTable

variable [Bus β] {t : BlockTable} {link : Bool} {b : Block} {o : Options}
  {regions : List FastRegion} {f : Frame} {j k : Nat} {cs cs' : List (Call β)}
  {es es' : List (Block × Environment β)} {m n p : HostMachine β} {reason : ExitReason}

/-- A run of `k` steps over the stubs and the blocks of a table. It makes the calls `cs`, enters the
blocks `es`, and works in the frame while it is in a block. -/
structure Tours (t : BlockTable) (f : Frame) (k : Nat) (cs : List (Call β))
    (es : List (Block × Environment β)) (m n : HostMachine β) : Prop where
  steps : Steps t.code k m n
  calls : (visits t.code k m).filterMap (call? t.code) = cs
  entries : (visits t.code k m).filterMap t.entered? = es
  within : ∀ v ∈ visits t.code k m,
    v.Below t.code Stubs.length ∨ v.frame = f ∧ ∃ b ∈ t.blocks, b.Covers v.ip

namespace Tours

theorem trans (h : t.Tours f j cs es m p) (h' : t.Tours f k cs' es' p n) :
    t.Tours f (j + k) (cs ++ cs') (es ++ es') m n := by
  have hvisits := h.steps.visits k
  refine ⟨h.steps.trans h'.steps, ?_, ?_, fun v hv => ?_⟩
  · rw [hvisits, List.filterMap_append, h.calls, h'.calls]
  · rw [hvisits, List.filterMap_append, h.entries, h'.entries]
  · rw [hvisits, List.mem_append] at hv
    exact hv.elim (h.within v) (h'.within v)

theorem of_sails (h : t.Sails k cs es m n) : t.Tours m.frame k cs es m n :=
  ⟨h.steps, h.calls, h.entries, fun v hv => .inr (h.within v hv)⟩

theorem of_stepsBelow (hc : t.Coherent link) (f : Frame)
    (h : StepsBelow t.code Stubs.length k m n) : t.Tours f k [] [] m n := by
  refine ⟨h.steps, ?_, ?_, fun v hv => .inl (h.below v hv)⟩
  · rw [List.filterMap_eq_nil_iff]
    exact fun v hv => (h.below v hv).call?
  · rw [List.filterMap_eq_nil_iff]
    exact fun v hv => hc.entered?_of_lt (h.below v hv).1

end Tours

/-- A call of generated code that returns to the host after `k` steps and its last instruction. It
makes the calls `cs`, enters the blocks `es`, and comes by stubs and blocks only. In the blocks the
frame is the one that the way in sets up. -/
structure Answers (t : BlockTable) (k : Nat) (cs : List (Call β))
    (es : List (Block × Environment β)) (m r : HostMachine β) : Prop where
  returned : ∃ q, Steps t.code k m q ∧ q.step t.code = some (.returned r)
  calls : (visits t.code (k + 1) m).filterMap (call? t.code) = cs
  entries : (visits t.code (k + 1) m).filterMap t.entered? = es
  within : ∃ f, m.Hosts f ∧ ∀ v ∈ visits t.code (k + 1) m,
    v.Below t.code Stubs.length ∨ v.frame = f ∧ ∃ b ∈ t.blocks, b.Covers v.ip

theorem Tours.answers (hc : t.Coherent link) (h : t.Tours f k cs es m n) (hf : m.Hosts f)
    {r : HostMachine β} (hreturned : n.step t.code = some (.returned r))
    (hn : n.Below t.code Stubs.length) : t.Answers k cs es m r := by
  have hlast : visits t.code 1 n = [n] := by
    rw [visits, hreturned]
  have hvisits : visits t.code (k + 1) m = visits t.code k m ++ [n] := by
    rw [h.steps.visits, hlast]
  refine ⟨⟨n, h.steps, hreturned⟩, ?_, ?_, f, hf, fun v hv => ?_⟩
  · rw [hvisits, List.filterMap_append, h.calls]
    simp [hn.call?]
  · rw [hvisits, List.filterMap_append, h.entries]
    simp [hc.entered?_of_lt hn.1]
  · rw [hvisits, List.mem_append, List.mem_singleton] at hv
    rcases hv with hv | rfl
    · exact h.within v hv
    · exact .inl hn

/-- The way out over the stubs. -/
theorem Coherent.exists_answers (hc : t.Coherent link) {entry : Nat} (hm : m.Called regions entry)
    (hf : m.Hosts f) (h : t.Tours f k cs es m (p.goto reason.stub)) (hp : p.frame = f) :
    ∃ r, t.Answers (k + 9) cs es m r ∧ r.env = p.env ∧ Stubs.Returns reason m r := by
  obtain ⟨q, r, hsteps, hreturned, hq, henv, hreturns⟩ :=
    Stubs.returns hc.stubs hm hf hp reason
  have htour := h.trans (.of_stepsBelow hc f hsteps)
  rw [List.append_nil, List.append_nil] at htour
  exact ⟨r, htour.answers hc hf hreturned hq, henv, hreturns⟩

/-- From a way out that leads to no block the stubs lead back to the host. -/
theorem Coherent.exists_departed (hc : t.Coherent link) {entry : Nat} {d : Departure β}
    (hm : m.Called regions entry) (hf : m.Hosts f) (h : t.Tours f k cs es m (p.goto d.way.stub))
    (hp : p.frame = f) (henv : p.env = d.env) :
    ∃ j r, j ≤ 11 ∧ t.Answers (k + j) cs es m r ∧ r.env = d.env ∧ Stubs.Returns d.reason m r := by
  have hdirect (hstub : d.way.stub = d.reason.stub) : ∃ j r, j ≤ 11 ∧
      t.Answers (k + j) cs es m r ∧ r.env = d.env ∧ Stubs.Returns d.reason m r := by
    rw [hstub] at h
    obtain ⟨r, hanswers, hr, hreturns⟩ := hc.exists_answers hm hf h hp
    exact ⟨9, r, by omega, hanswers, hr.trans henv, hreturns⟩
  cases hway : d.way with
  | exit target spent =>
    refine hdirect ?_
    rw [Departure.reason, hway]
    cases spent <;> rfl
  | dispatch | refused =>
    refine hdirect ?_
    rw [Departure.reason, hway]
    rfl
  -- Only this way goes through a stub that looks at the core state first.
  | checked =>
    rw [hway] at h
    have hcontext : p.get .context = Linkage.contextBase :=
      (congrArg Frame.context hp).trans (hf.context.trans hm.context)
    obtain ⟨q, hsteps, hq, hframe⟩ := Stubs.steps_check hc.stubs hcontext
    have htour := h.trans (.of_stepsBelow hc f hsteps)
    have hstub : (if p.env.state.get Slot.coreState = 0 then ExitReason.dispatch
        else ExitReason.coreState).stub = d.reason.stub := by
      rw [Departure.reason, hway, henv]
    rw [List.append_nil, List.append_nil, hstub] at htour
    obtain ⟨r, hanswers, hr, hreturns⟩ := hc.exists_answers hm hf htour (hframe.trans hp)
    exact ⟨11, r, by omega, hanswers, hr.trans (hq.trans henv), hreturns⟩

/-! ## A call from the host -/

open Lower

section Call

variable {known : UInt32 → β → Prop} {course : Block → Environment β → Departure β → Prop}
  {e : Environment β}

/-- The way in, up to the body of the block or the stub for a budget that is spent. -/
theorem Coherent.exists_entered (haccepted : o.Accepted regions) (hc : t.Coherent link)
    (hsize : t.code.size ≤ 0x80000000) (hsourced : t.Sourced o regions known) (hb : b ∈ t.blocks)
    (hm : m.Called regions b.checkedEntry) (hip : m.ip = Stubs.standard.enter) :
    ∃ f k, ∃ n : HostMachine β, k ≤ 40 ∧ m.Hosts f ∧
      t.Tours f k [] [] m (n.goto (if m.env.state.downcount < 0 then
        ExitReason.downcountExpired.stub else b.normalEntry)) ∧
      n.frame = f ∧ n.Roles regions ∧
      n.env = if m.env.state.downcount < 0 then m.env.setWord Slot.pc b.start else m.env := by
  have hbounds := hc.bounds hb
  obtain ⟨number, hnumber⟩ := Array.mem_iff_getElem?.1 hb
  obtain ⟨bus, -, hholds⟩ := hsourced number b hnumber
  have hentry : b.checkedEntry < UInt64.size := by
    change _ < 2 ^ 64
    omega
  obtain ⟨n, hin, hroles, henv, hf⟩ := Stubs.steps_enter hc.stubs hm hentry
  have hgoto : m.goto Stubs.standard.enter = m := by rw [← hip]; rfl
  rw [hgoto] at hin
  obtain ⟨k, p, hcross, hp⟩ := hc.crosses_entry haccepted hsize hb hholds hroles
  have hlength := hcross.length
  have hframe : p.frame = n.frame := hcross.frame
  obtain ⟨_, _, _, hfilled, -⟩ := hholds
  have hnormal := hfilled.normal
  have hsails := Sails.of_entry (m := n.goto b.checkedEntry) hc hb rfl hcross
  rw [henv] at hsails hp
  -- The way in takes ten steps, and the check of the budget the others.
  refine ⟨n.frame, 10 + k, p, ?_, hf, (Tours.of_stepsBelow hc _ hin).trans (.of_sails hsails), hframe,
    ⟨?_, fun r hr => ?_⟩, hp⟩
  · rw [ip_goto] at hlength
    omega
  · exact (congrArg Frame.context hframe).trans hroles.context
  · exact (congrArg Frame.memoryBase hframe).trans (hroles.main r hr)

/-- A call with the entry of a block while the budget is spent returns at once. -/
theorem Coherent.exists_return_spent (haccepted : o.Accepted regions) (hc : t.Coherent link)
    (hsize : t.code.size ≤ 0x80000000) (hsourced : t.Sourced o regions known) (hb : b ∈ t.blocks)
    (hm : m.Called regions b.checkedEntry) (hip : m.ip = Stubs.standard.enter)
    (hspent : m.env.state.downcount < 0) :
    ∃ k r, t.Answers k [] [] m r ∧ r.env = m.env.setWord Slot.pc b.start ∧
      Stubs.Returns .downcountExpired m r := by
  obtain ⟨f, k, n, -, hf, htour, hframe, -, henv⟩ :=
    hc.exists_entered haccepted hsize hsourced hb hm hip
  rw [if_pos hspent] at htour henv
  obtain ⟨r, hanswers, hr, hreturns⟩ := hc.exists_answers hm hf htour hframe
  exact ⟨_, r, hanswers, hr.trans henv, hreturns⟩

/-- A call with the entry of a block while there is some budget left runs the guest, as the blocks of
the table do. It returns, or goes on to any number of blocks. -/
theorem Coherent.exists_return_or_stretch (haccepted : o.Accepted regions)
    (hc : t.Coherent o.enableBlockLink) (hsize : t.code.size ≤ 0x80000000)
    (hsourced : t.Sourced o regions known) (htraversed : t.Traversed o regions known course)
    (hb : b ∈ t.blocks) (hm : m.Called regions b.checkedEntry) (hip : m.ip = Stubs.standard.enter)
    (hzero : m.env.state.get 0 = 0) (hbacked : Bus.Backed regions m.env.bus)
    (hbudget : 0 ≤ m.env.state.downcount) (n : Nat) :
    (∃ legs d k r, Voyage t o.enableBlockLink course b m.env legs d ∧
      t.Answers k (legs.flatMap (·.departure.calls)) (legs.map fun l => (l.block, l.env)) m r ∧
      r.env = d.env ∧ Stubs.Returns d.reason m r ∧ k ≤ legs.length * t.code.size + 51) ∨
    ∃ legs b' e' f k, ∃ p : HostMachine β,
      Stretch t o.enableBlockLink course b m.env legs b' e' ∧ legs.length = n ∧
      t.Tours f k (legs.flatMap (·.departure.calls)) (legs.map fun l => (l.block, l.env)) m p ∧
      n ≤ k := by
  obtain ⟨f, j, p, hj, hf, hin, hframe, hroles, henv⟩ :=
    hc.exists_entered haccepted hsize hsourced hb hm hip
  rw [if_neg (Int.not_lt.2 hbudget)] at hin henv
  have htour {k : Nat} {cs : List (Call β)} {es : List (Block × Environment β)} {q : HostMachine β}
      (h : t.Sails k cs es (p.goto b.normalEntry) q) : t.Tours f (j + k) cs es m q := by
    have hout := Tours.of_sails h
    rw [frame_goto, hframe] at hout
    simpa using hin.trans hout
  rcases hc.exists_voyage_or_stretch htraversed hb ⟨henv, hroles, hzero, hbacked⟩ n with
    ⟨legs, d, k, q, hvoyage, hsails, hq, hk⟩ | ⟨legs, b', e', k, q, hstretch, hcount, hsails, hk⟩
  · obtain ⟨i, r, hi, hanswers, hr, hreturns⟩ :=
      hc.exists_departed hm hf (htour hsails) (hsails.frame.trans hframe) hq
    exact .inl ⟨legs, d, _, r, hvoyage, hanswers, hr, hreturns, by omega⟩
  · exact .inr ⟨legs, b', e', f, _, q, hstretch, hcount, htour hsails, by omega⟩

/-- A call with the entry of a block returns, if a block cannot overspend by more than there is. -/
theorem Coherent.exists_return (haccepted : o.Accepted regions)
    (hbound : 36 * (o.maxBlockInstructions + 1) < 2 ^ 31) (hc : t.Coherent o.enableBlockLink)
    (hstubs : t.stubs = Stubs.standard) (hsize : t.code.size ≤ 0x80000000)
    (hsourced : t.Sourced o regions known) (hb : b ∈ t.blocks)
    (hm : m.Called regions b.checkedEntry) (hip : m.ip = Stubs.standard.enter)
    (hzero : m.env.state.get 0 = 0) (hbacked : Bus.Backed regions m.env.bus)
    (hbudget : 0 ≤ m.env.state.downcount) :
    ∃ legs d k r, Voyage t o.enableBlockLink (Courses o regions known) b m.env legs d ∧
      t.Answers k (legs.flatMap (·.departure.calls)) (legs.map fun l => (l.block, l.env)) m r ∧
      r.env = d.env ∧ Stubs.Returns d.reason m r ∧ k ≤ legs.length * t.code.size + 51 := by
  rcases hc.exists_return_or_stretch haccepted hsize hsourced
    (hc.traversed haccepted hstubs hsize hsourced) hb hm hip hzero hbacked hbudget
    (m.env.state.downcount.toNat + 1) with h | ⟨legs, b', e', f, k, p, hstretch, hcount, -, -⟩
  · exact h
  · obtain ⟨hnonneg, hlength⟩ := hstretch.budget haccepted hbound hc hbudget
    omega

end Call

end BlockTable

end Recompiler
