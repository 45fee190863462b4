import Recompiler.Proofs.Block.Determined
import Recompiler.Proofs.Block.Sandbox
import Recompiler.Proofs.Code.Crossing
import Recompiler.Proofs.Code.Stubs
import Recompiler.Proofs.Guest.Reference

/-!
# From block to block

Control that entered a block crosses its code and leaves on one of its ways out: to another block over
a link, or to a stub.

* `BlockTable.next?`, `BlockTable.lead`: where a way out leads.
* `BlockTable.Coherent.crosses_block`: the bytes of a block do what its guest instructions tell.
* `Voyage`, `Stretch`: from block to block, up to a way out that leads to a stub, or to some block.
* `BlockTable.Traversed`: what the blocks of a table do is told by a relation.
* `BlockTable.Coherent.exists_voyage_or_stretch`: control that entered a block does one or the other.
-/

namespace Recompiler

variable {β : Type}

/-! ## Where ways out lead -/

/-- The stub that a way out leads to, if it leads to no block. -/
def Way.stub : Way → Nat
  | exit _ spent => if spent then Stubs.standard.outerLoop else Stubs.standard.dispatcher
  | dispatch => Stubs.standard.dispatcher
  | checked => Stubs.standard.dispatcherCheckCoreState
  | refused => Stubs.standard.hardFault

/-- The place belongs to the code of the block. -/
def Block.Covers (b : Block) (ip : Nat) : Prop :=
  b.checkedEntry ≤ ip ∧ ip < b.checkedEntry + b.codeSize

theorem Laid.suffix {code : Array UInt8} {offset : Nat} {before items : List Item}
    (h : Laid code offset (before ++ items)) : Laid code (Layout.stop offset before) items := by
  induction before generalizing offset with
  | nil => exact h
  | cons item before ih => exact ih h.2

namespace BlockTable

/-- The block that a way out leads to. -/
def next? (t : BlockTable) (link : Bool) : Way → Option Block
  | .exit target false => if link then t.blockAt? target else none
  | _ => none

/-- The offset that a way out leads to. -/
def lead (t : BlockTable) (link : Bool) (w : Way) : Nat :=
  ((t.next? link w).map (·.normalEntry)).getD w.stub

variable {t : BlockTable} {link : Bool} {n : Nat} {b : Block} {e : Exit}

theorem Coherent.mem_blockAt? (hc : t.Coherent link) {target : UInt32}
    (h : t.blockAt? target = some b) : ∃ n : Nat, t.blocks[n]? = some b ∧ b.start = target := by
  obtain ⟨n, hn, hb⟩ := Option.bind_eq_some_iff.1 h
  obtain ⟨b', hb', hstart⟩ := (hc.indexed target n).1 hn
  cases hb'.symm.trans hb
  exact ⟨n, hb, hstart⟩

/-- A block that is led to is in the table. -/
theorem Coherent.mem_next? (hc : t.Coherent link) {w : Way} (h : t.next? link w = some b) :
    ∃ target : UInt32, w = .exit target false ∧ ∃ n : Nat, t.blocks[n]? = some b ∧
      b.start = target := by
  unfold next? at h
  split at h
  · next target =>
    split at h
    · exact ⟨target, rfl, hc.mem_blockAt? h⟩
    · cases h
  · cases h

/-- The blocks that were entered, each with the guest it found. -/
def entered? (t : BlockTable) (m : HostMachine β) : Option (Block × Environment β) :=
  (t.blocks.find? fun b => b.normalEntry = m.ip).map (·, m.env)

/-- A block lies within the code, with its entry inside. -/
theorem Coherent.bounds (hc : t.Coherent link) (hb : b ∈ t.blocks) :
    Stubs.length ≤ b.checkedEntry ∧ b.checkedEntry ≤ b.normalEntry ∧
      b.normalEntry < b.checkedEntry + b.codeSize ∧ b.checkedEntry + b.codeSize ≤ t.code.size :=
  hc.tiles.mem (Array.mem_toList_iff.2 hb)

theorem Coherent.covers_entry (hc : t.Coherent link) (hb : b ∈ t.blocks) : b.Covers b.normalEntry :=
  ⟨(hc.bounds hb).2.1, (hc.bounds hb).2.2.1⟩

/-- The jump of an exit goes where the exit leads. -/
theorem Coherent.leads (hc : t.Coherent link) (hstubs : t.stubs = Stubs.standard)
    (hb : t.blocks[n]? = some b) (he : e ∈ b.exits) :
    t.code.Leads e.offset (t.lead link (.exit e.target false)) := by
  obtain ⟨aim, haim, hleads⟩ := hc.wired.leads n b hb e he
  have hlinked := hc.linked n b hb e he
  rw [aim?, hlinked] at haim
  have hlead : t.lead link (.exit e.target false) = aim := by
    rw [hstubs] at haim
    refine Option.some.inj (Eq.trans ?_ haim)
    rw [lead, next?]
    cases link with
    | false => rfl
    | true =>
      cases hnumber : t.number? e.target with
      | none =>
        rw [blockAt?, hnumber]
        rfl
      | some m =>
        rw [hnumber] at haim
        obtain ⟨b', hb', -⟩ := Option.map_eq_some_iff.1 (haim : Option.map _ _ = some aim)
        rw [hb']
        rfl
  rwa [hlead]

theorem Coherent.lead_le (hc : t.Coherent link) (hsize : t.code.size ≤ 0x80000000) (w : Way) :
    t.lead link w ≤ 0x80000000 := by
  have hstub (w : Way) : w.stub ≤ 0x80000000 := by
    cases w with
    | exit target spent =>
      rw [Way.stub]
      split <;> decide
    | _ => decide
  rw [lead]
  cases hnext : t.next? link w with
  | none => exact hstub w
  | some b =>
    obtain ⟨_, -, m, hb, -⟩ := hc.mem_next? hnext
    have hmem := hc.bounds (Array.mem_of_getElem? hb)
    change b.normalEntry ≤ _
    omega

/-! ## Crossing a block -/

open HostMachine Lower

variable [Bus β] {o : Options} {regions : List FastRegion} {bus : β}

/-- A way out leads where it should. -/
theorem Coherent.crosses_way (hc : t.Coherent link) (hstubs : t.stubs = Stubs.standard)
    (hsize : t.code.size ≤ 0x80000000) (hb : b ∈ t.blocks) {s : Surroundings}
    (hs : s.stubs = Stubs.standard) {w : Way} {ip : Nat} {rest : List Item} {m : HostMachine β}
    (hat : Point.At t.code ip ip ⟨none, w.items s ++ rest, m⟩) (htells : w.Tells m)
    (hexit : ∀ target spent, w = .exit target spent → (target, ip + 6) ∈ b.places) :
    ∃ k, Crosses t.code (Layout.stop ip (w.items s ++ rest)) (k + 1) [] (m.goto ip)
      (m.goto (t.lead link w)) := by
  obtain ⟨n, hn⟩ := Array.mem_iff_getElem?.1 hb
  obtain ⟨hlaid, hstop, -, -⟩ := hat
  cases w with
  | exit target spent =>
    obtain ⟨hcheck, ⟨_, hbytes⟩, -⟩ := hlaid
    have hle := Layout.le_stop (ip + 6 + 5) rest
    change Layout.stop (ip + 6 + 5) rest ≤ _ at hstop
    change ∃ k, Crosses t.code (Layout.stop (ip + 6 + 5) rest) (k + 1) [] _ _
    have hless : m.flags.holds .less = spent := htells
    change HasBytes _ _ (HostInstruction.jumpIf .less (jumpDistance s.stubs.outerLoop _)).encode
      at hcheck
    rw [hs] at hcheck
    have hstep := step_jumpIf (m := m) hcheck (fun _ => by decide) (by omega)
    have hlt : ip < ip + 6 := by omega
    have hfirst := Point.crosses_jump hcheck trivial (fun _ => rfl) hstep hlt
    cases spent with
    | true =>
      rw [if_pos hless] at hfirst
      exact ⟨0, hfirst.mono (by omega)⟩
    | false =>
      rw [if_neg (by rw [hless]; decide)] at hfirst
      -- The exit is one of the block, and its jump leads where the table says.
      have hmem := hexit target false rfl
      obtain ⟨e, he, hplace⟩ := List.mem_map.1 hmem
      obtain ⟨rfl, hoffset⟩ := Prod.mk.inj hplace
      have hleads := hc.leads hstubs hn (Array.mem_toList_iff.1 he)
      rw [hoffset] at hleads
      have hlt : ip + 6 < ip + 6 + 5 := by omega
      have hthen := Point.crosses_jump hleads trivial (fun _ => rfl)
        (step_jump hleads (hc.lead_le hsize _) (by omega) m) hlt
      exact ⟨1, (hfirst.trans hthen).mono hle⟩
  | dispatch | checked | refused =>
    obtain ⟨hbytes, -⟩ := hlaid
    have hle := Layout.le_stop (ip + 5) rest
    change Layout.stop (ip + 5) rest ≤ _ at hstop
    change ∃ k, Crosses t.code (Layout.stop (ip + 5) rest) (k + 1) [] _ _
    change HasBytes _ _ (HostInstruction.jump (jumpDistance _ _)).encode at hbytes
    rw [hs] at hbytes
    exact ⟨0, Point.crosses_jump hbytes trivial (fun _ => rfl)
      (step_jump hbytes (by decide) (by omega) m) (by omega)⟩

/-- The bytes of a block take a machine that enters it to the way out that its code leads to. -/
theorem Coherent.crosses_leads (haccepted : o.Accepted regions) (hc : t.Coherent o.enableBlockLink)
    (hstubs : t.stubs = Stubs.standard) (hsize : t.code.size ≤ 0x80000000)
    (hb : b ∈ t.blocks) {entryAt : UInt32 → Option Destination} {u : Lowering β}
    (hexec : exec (block b.start) ⟨o, regions, Stubs.standard, entryAt⟩ (.initial bus b.start) =
      (.ok (), u)) (hfilled : b.Filled t.code u.code.toList) {more rest : List Item}
    (hcode : u.code.toList = entryItems Stubs.standard b.start ++ more ++ [.align blockAlignment])
    {e : Environment β} {d : Departure β} {m p : HostMachine β} (hm : Enters regions e m)
    (hway : Point.Leads ⟨none, more, m⟩ d.calls
      ⟨none, d.way.items ⟨o, regions, Stubs.standard, entryAt⟩ ++ rest, p⟩) (hleaves : d.Leaves p) :
    ∃ k, Crosses t.code (b.checkedEntry + b.codeSize) (k + 1) d.calls (m.goto b.normalEntry)
      (p.goto (t.lead o.enableBlockLink d.way)) := by
  rw [List.append_assoc] at hcode
  obtain ⟨hclosed, hguarded⟩ : Closed (more ++ [.align blockAlignment]) ∧
      Guarded regions (fun _ _ _ => True) (more ++ [.align blockAlignment]) none m [] :=
    guarded_of_entry haccepted hexec (.inr hcode) hm.roles
  have hlaid := hfilled.laid
  have hstop := hfilled.stop
  rw [hcode] at hlaid hstop
  rw [Layout.stop_append] at hstop
  have hlaid := hlaid.suffix
  have hentry : Layout.stop b.checkedEntry (entryItems Stubs.standard b.start) = b.normalEntry :=
    hfilled.normal.symm
  rw [hentry] at hlaid hstop
  have hmem := hc.bounds hb
  have hat : Point.At t.code b.normalEntry b.normalEntry ⟨none, more ++ [.align blockAlignment], m⟩ :=
    ⟨hlaid, by rw [hstop]; omega, hclosed, rfl⟩
  obtain ⟨before, ip, j, hbefore, hq, hcross⟩ := (hway.extend [.align blockAlignment]).crosses hat
    hguarded
  dsimp only at hbefore
  obtain rfl : ip = Layout.stop b.normalEntry before := hq.ip
  rw [List.append_assoc] at hq hbefore
  rw [hbefore, Layout.stop_append] at hstop
  obtain ⟨k, hout⟩ := hc.crosses_way hstubs hsize hb rfl hq hleaves.tells fun target spent hd => by
    -- The exit stands behind the comparison of the budget.
    rw [hfilled.places, hcode, hbefore, hd]
    have hmem := Layout.mem_places_append b.checkedEntry b.checkedEntry
      (entryItems Stubs.standard b.start ++ before ++ [.jumpIfTo .less Stubs.standard.outerLoop])
      (rest ++ [.align blockAlignment]) target
    rw [Layout.stop_append, Layout.stop_append, hentry] at hmem
    simpa [Way.items, Surroundings.exitItem, Layout.stop, Item.size] using hmem _ _
  rw [hstop] at hout
  have hall := hcross.trans hout
  rw [List.append_nil, ← Nat.add_assoc] at hall
  exact ⟨_, hall⟩

/-- The bytes of a block take every machine that enters it to the same way out, with what the guest
instructions make of the guest. The code that the block is lowered to determines it. -/
theorem Coherent.crosses_block (haccepted : o.Accepted regions) (hc : t.Coherent o.enableBlockLink)
    (hstubs : t.stubs = Stubs.standard) (hsize : t.code.size ≤ 0x80000000)
    (hb : b ∈ t.blocks) (hholds : t.Holds o regions bus b) {e : Environment β}
    (hzero : e.state.get 0 = 0) (hbacked : Bus.Backed regions e.bus) :
    ∃ d, Course o regions (b.Word o.maxBlockInstructions bus) o.maxBlockInstructions b.start 0 e d ∧
      d.Follows regions (bodyCode o regions bus b.start) e ∧
      ∀ m, Enters regions e m → ∃ (k : Nat) (p : HostMachine β),
        Crosses t.code (b.checkedEntry + b.codeSize) (k + 1) d.calls (m.goto b.normalEntry)
          (p.goto (t.lead o.enableBlockLink d.way)) ∧ p.env = d.env := by
  obtain ⟨entryAt, u, hexec, hfilled, hinstructions⟩ := hholds
  obtain ⟨more, n, hcode, hn, hcount, hdeparts⟩ := exists_follows haccepted hexec
  obtain ⟨d, hcourse, hfollows, hleads⟩ := hdeparts e hzero hbacked
  have hwords (pc : UInt32) (i : Instruction) (hi : Bus.Words bus b.start n pc i) :
      b.Word o.maxBlockInstructions bus pc i := ⟨n, hn, hinstructions.trans hcount, hi⟩
  refine ⟨d, hcourse.mono hwords, hfollows, fun m hm => ?_⟩
  obtain ⟨rest, p, hway, hleaves, -⟩ := hleads m hm
  obtain ⟨k, hcrosses⟩ :=
    hc.crosses_leads haccepted hstubs hsize hb hexec hfilled hcode hm hway hleaves
  exact ⟨k, p, hcrosses, hleaves.env⟩

/-- At its entry a block checks the budget. -/
theorem leads_entryItems {m : HostMachine β} (hcontext : m.get .context = Linkage.contextBase)
    (stubs : Stubs) (start : UInt32) (rest : List Item) :
    ∃ n : HostMachine β,
      if m.env.state.downcount < 0 then
        Point.Leads ⟨none, entryItems stubs start ++ rest, m⟩ []
            ⟨none, .jumpTo stubs.outerLoop :: .bind 0 :: .entry :: rest, n⟩ ∧
          n.env = m.env.setWord Slot.pc start
      else
        Point.Leads ⟨none, entryItems stubs start ++ rest, m⟩ [] ⟨none, rest, n⟩ ∧ n.env = m.env := by
  have hruns := Sequence.runs_compareState hcontext (by decide : Slot.downcount < Slot.count) 0
  obtain ⟨n, hn⟩ : ∃ n, n = m.setFlags (.ofSub (m.env.state.get Slot.downcount) 0) := ⟨_, rfl⟩
  rw [← hn] at hruns
  have hflags : n.flags.holds .greaterEqual = !decide (m.env.state.downcount < 0) := by
    rw [hn, flags_setFlags, Flags.holds_ofSub, Condition.holds, Word.lessSigned_eq_decide]
    rfl
  have hcheck : Point.Leads ⟨none, entryItems stubs start ++ rest, m⟩ []
      ⟨none, .jumpIf .greaterEqual 0 :: (entryItems stubs start).drop 2 ++ rest, n⟩ :=
    (Point.Leads.instructions hruns tame_budgetCheck.call?_eq_none).extend _
  have hjump := Point.Leads.one
    (p := ⟨none, .jumpIf .greaterEqual 0 :: (entryItems stubs start).drop 2 ++ rest, n⟩) trivial rfl
  -- A spent budget falls through to the way out; otherwise the machine jumps over it.
  by_cases hspent : m.env.state.downcount < 0
  · rw [hflags, decide_eq_true hspent] at hjump
    have hpc : Slot.pc < Slot.count := by decide
    have hstore := Point.Leads.instructions
      (Sequence.runs_storeStateImmediate (m := n) (by rw [hn]; exact hcontext) hpc start)
      (Sequence.tame_storeStateImmediate (by decide) start).call?_eq_none
    refine ⟨n.setSlot Slot.pc start, ?_⟩
    rw [if_pos hspent]
    refine ⟨(hcheck.trans hjump).trans (hstore.extend _), ?_⟩
    rw [hn]
    rfl
  · rw [hflags, decide_eq_false hspent] at hjump
    have hunbound : 0 ∉ bindLabels (((entryItems stubs start).drop 2).take 2) := by
      simp [entryItems, bindLabels, Item.bindLabel?]
    have hover := Point.Leads.passOver hunbound n
    have hentry := Point.Leads.one (p := ⟨none, .entry :: rest, n⟩) trivial rfl
    refine ⟨n, ?_⟩
    rw [if_neg hspent]
    refine ⟨((hcheck.trans hjump).trans (hover.extend _)).trans hentry, ?_⟩
    rw [hn]
    rfl

/-- At its entry a block checks the budget: if that is spent, control leaves for a stub, and otherwise
the body is entered. -/
theorem Coherent.crosses_entry (haccepted : o.Accepted regions) (hc : t.Coherent link)
    (hsize : t.code.size ≤ 0x80000000) (hb : b ∈ t.blocks) (hholds : t.Holds o regions bus b)
    {m : HostMachine β} (hm : m.Roles regions) :
    ∃ (k : Nat) (n : HostMachine β),
      Crosses t.code b.normalEntry k [] (m.goto b.checkedEntry)
          (n.goto (if m.env.state.downcount < 0 then Stubs.standard.outerLoop else b.normalEntry)) ∧
        n.env = if m.env.state.downcount < 0 then m.env.setWord Slot.pc b.start else m.env := by
  obtain ⟨entryAt, u, hexec, hfilled, -⟩ := hholds
  obtain ⟨more, -, hcode, -⟩ := departs_block haccepted hexec
  obtain ⟨hclosed, hguarded⟩ : Closed u.code.toList ∧
      Guarded regions (fun _ _ _ => True) u.code.toList none m [] :=
    guarded_of_entry haccepted hexec (.inl rfl) hm
  have hbounds := hc.bounds hb
  have hat : Point.At t.code b.checkedEntry b.checkedEntry ⟨none, u.code.toList, m⟩ :=
    ⟨hfilled.laid, by rw [hfilled.stop]; omega, hclosed, rfl⟩
  rw [List.append_assoc] at hcode
  rw [hcode] at hat hguarded
  have hentry : Layout.stop b.checkedEntry (entryItems Stubs.standard b.start) = b.normalEntry :=
    hfilled.normal.symm
  obtain ⟨n, hn⟩ := leads_entryItems hm.context Stubs.standard b.start
    (more ++ [.align blockAlignment])
  by_cases hspent : m.env.state.downcount < 0
  · rw [if_pos hspent] at hn
    obtain ⟨before, ip, k, hbefore, hq, hcross⟩ := hn.1.crosses hat hguarded
    obtain rfl : ip = Layout.stop b.checkedEntry before := hq.ip
    obtain ⟨hbytes, -⟩ : Laid t.code.written (Layout.stop b.checkedEntry before) _ := hq.laid
    -- The jump to the stub is the last of the check but for the label and the mark of the entry.
    have hle : Layout.stop b.checkedEntry before + 5 ≤ b.normalEntry := by
      rw [← hentry, List.append_cancel_right (Eq.trans hbefore (List.append_assoc before
        [.jumpTo Stubs.standard.outerLoop, .bind 0, .entry] _).symm), Layout.stop_append]
      exact Layout.le_stop _ [.bind 0, .entry]
    have hlt : Layout.stop b.checkedEntry before < b.normalEntry := by omega
    have hjump := Point.crosses_jump hbytes trivial (fun _ => rfl)
      (step_jump hbytes (by decide) (by omega) n) hlt
    refine ⟨k + 1, n, ?_⟩
    rw [if_pos hspent, if_pos hspent]
    exact ⟨hcross.trans hjump, hn.2⟩
  · rw [if_neg hspent] at hn
    obtain ⟨before, ip, k, hbefore, hq, hcross⟩ := hn.1.crosses hat hguarded
    obtain rfl : before = entryItems Stubs.standard b.start := (List.append_cancel_right hbefore).symm
    obtain rfl : ip = b.normalEntry := Eq.trans hq.ip hentry
    refine ⟨k, n, ?_⟩
    rw [if_neg hspent, if_neg hspent]
    exact ⟨hcross, hn.2⟩

/-! ## What a run over the blocks comes by -/

omit [Bus β] in
/-- Places of different blocks are different. -/
theorem Coherent.eq_of_covers (hc : t.Coherent link) {c : Block} {ip : Nat} (hb : b ∈ t.blocks)
    (hc' : c ∈ t.blocks) (hbip : b.Covers ip) (hcip : c.Covers ip) : b = c := by
  obtain ⟨m, hm⟩ := Array.mem_iff_getElem?.1 hb
  obtain ⟨n, hn⟩ := Array.mem_iff_getElem?.1 hc'
  have hlist {k : Nat} {d : Block} (hd : t.blocks[k]? = some d) : t.blocks.toList[k]? = some d :=
    Array.getElem?_toList ▸ hd
  rcases Nat.lt_trichotomy m n with hlt | rfl | hlt
  · have hapart := hc.tiles.apart hlt (hlist hm) (hlist hn)
    exact absurd hbip.2 (by have := hcip.1; omega)
  · exact Option.some.inj (hm.symm.trans hn)
  · have hapart := hc.tiles.apart hlt (hlist hn) (hlist hm)
    exact absurd hcip.2 (by have := hbip.1; omega)

section Entered

variable {m : HostMachine β}

omit [Bus β] in
theorem Coherent.entered?_eq_some (hc : t.Coherent link) (hb : b ∈ t.blocks)
    (hip : m.ip = b.normalEntry) : t.entered? m = some (b, m.env) := by
  rw [entered?]
  cases hfind : t.blocks.find? fun c => c.normalEntry = m.ip with
  | none =>
    rw [Array.find?_eq_none] at hfind
    exact absurd hip.symm (by simpa using hfind b hb)
  | some c =>
    have hcmem := Array.mem_of_find?_eq_some hfind
    have hcentry : c.normalEntry = m.ip := by simpa using Array.find?_some hfind
    obtain rfl := hc.eq_of_covers hb hcmem (hip ▸ hc.covers_entry hb) (hcentry ▸ hc.covers_entry hcmem)
    rfl

omit [Bus β] in
theorem Coherent.entered?_of_covers (hc : t.Coherent link) (hb : b ∈ t.blocks) (hip : b.Covers m.ip)
    (hne : m.ip ≠ b.normalEntry) : t.entered? m = none := by
  rw [entered?, Option.map_eq_none_iff, Array.find?_eq_none]
  intro c hcmem hentry
  have hcip : c.normalEntry = m.ip := by simpa using hentry
  obtain rfl := hc.eq_of_covers hb hcmem hip (hcip ▸ hc.covers_entry hcmem)
  exact hne hcip.symm

omit [Bus β] in
theorem Coherent.entered?_of_lt (hc : t.Coherent link) (hip : m.ip < Stubs.length) :
    t.entered? m = none := by
  rw [entered?, Option.map_eq_none_iff, Array.find?_eq_none]
  intro c hcmem hentry
  have hcip : c.normalEntry = m.ip := by simpa using hentry
  have hbounds := hc.bounds hcmem
  omega

end Entered

/-- A run of `k` steps over the blocks of a table: it keeps the frame, makes the calls `cs` and enters
the blocks `es`. -/
structure Sails (t : BlockTable) (k : Nat) (cs : List (Call β)) (es : List (Block × Environment β))
    (m n : HostMachine β) : Prop where
  steps : Steps t.code k m n
  calls : (visits t.code k m).filterMap (call? t.code) = cs
  entries : (visits t.code k m).filterMap t.entered? = es
  frame : n.frame = m.frame
  within : ∀ v ∈ visits t.code k m, v.frame = m.frame ∧ ∃ b ∈ t.blocks, b.Covers v.ip

namespace Sails

variable {j k : Nat} {cs cs' : List (Call β)} {es es' : List (Block × Environment β)}
  {m n p : HostMachine β}

theorem trans (h : t.Sails j cs es m p) (h' : t.Sails k cs' es' p n) :
    t.Sails (j + k) (cs ++ cs') (es ++ es') m n := by
  have hvisits := h.steps.visits k
  refine ⟨h.steps.trans h'.steps, ?_, ?_, h'.frame.trans h.frame, fun v hv => ?_⟩
  · rw [hvisits, List.filterMap_append, h.calls, h'.calls]
  · rw [hvisits, List.filterMap_append, h.entries, h'.entries]
  · rw [hvisits, List.mem_append] at hv
    rcases hv with hv | hv
    · exact h.within v hv
    · exact ⟨(h'.within v hv).1.trans h.frame, (h'.within v hv).2⟩

theorem refl (m : HostMachine β) : t.Sails 0 [] [] m m :=
  ⟨rfl, rfl, rfl, rfl, fun _ hv => by cases hv⟩

/-- Crossing the code before the body of a block. -/
theorem of_entry (hc : t.Coherent link) (hb : b ∈ t.blocks) (hip : m.ip = b.checkedEntry)
    (h : Crosses t.code b.normalEntry k cs m n) : t.Sails k cs [] m n := by
  have hbounds := hc.bounds hb
  have hcovers (v) (hv : v ∈ visits t.code k m) : b.Covers v.ip ∧ v.ip ≠ b.normalEntry := by
    have hwithin := h.within v hv
    rw [hip] at hwithin
    exact ⟨⟨hwithin.1, by omega⟩, by omega⟩
  refine ⟨h.steps, h.calls, ?_, h.frame, fun v hv => ⟨h.frames v hv, b, hb, (hcovers v hv).1⟩⟩
  rw [List.filterMap_eq_nil_iff]
  intro v hv
  exact hc.entered?_of_covers hb (hcovers v hv).1 (hcovers v hv).2

/-- Crossing the body of a block. -/
theorem of_body (hc : t.Coherent link) (hb : b ∈ t.blocks) (hip : m.ip = b.normalEntry)
    (h : Crosses t.code (b.checkedEntry + b.codeSize) (k + 1) cs m n) :
    t.Sails (k + 1) cs [(b, m.env)] m n := by
  have hbounds := hc.bounds hb
  have hcovers (v) (hv : v ∈ visits t.code (k + 1) m) : b.Covers v.ip := by
    have hwithin := h.within v hv
    rw [hip] at hwithin
    exact ⟨by omega, hwithin.2⟩
  refine ⟨h.steps, h.calls, ?_, h.frame, fun v hv => ⟨h.frames v hv, b, hb, hcovers v hv⟩⟩
  -- The run goes forward, so that it comes by the beginning of the body once.
  obtain ⟨vs, hvisits, hbehind⟩ := h.behind
  rw [hvisits] at hcovers ⊢
  rw [List.filterMap_cons_some (hc.entered?_eq_some hb hip), List.cons_inj_right,
    List.filterMap_eq_nil_iff]
  intro v hv
  have hlt := hbehind v hv
  exact hc.entered?_of_covers hb (hcovers v (List.mem_cons_of_mem _ hv)) (by omega)

end Sails

/-! ## Voyages -/

/-- What a block does with a guest that enters it. -/
structure Leg (β : Type) where
  /-- The block. -/
  block : Block
  /-- The guest that enters it. -/
  env : Environment β
  /-- How control leaves it. -/
  departure : Departure β

/-- From the body of a block over links to a way out that leads to no block, with what the blocks on
the way do. -/
inductive Voyage (t : BlockTable) (link : Bool)
    (course : Block → Environment β → Departure β → Prop) :
    Block → Environment β → List (Leg β) → Departure β → Prop
  | last {b : Block} {e : Environment β} {d : Departure β} :
    course b e d → t.next? link d.way = none → Voyage t link course b e [⟨b, e, d⟩] d
  | link {b b' : Block} {e : Environment β} {d d' : Departure β} {legs : List (Leg β)} :
    course b e d → t.next? link d.way = some b' → Voyage t link course b' d.env legs d' →
      Voyage t link course b e (⟨b, e, d⟩ :: legs) d'

/-- From the body of a block over links to the body of another one. -/
inductive Stretch (t : BlockTable) (link : Bool)
    (course : Block → Environment β → Departure β → Prop) :
    Block → Environment β → List (Leg β) → Block → Environment β → Prop
  | nil (b : Block) (e : Environment β) : Stretch t link course b e [] b e
  | link {b b' b'' : Block} {e e' : Environment β} {d : Departure β} {legs : List (Leg β)} :
    course b e d → t.next? link d.way = some b' → Stretch t link course b' d.env legs b'' e' →
      Stretch t link course b e (⟨b, e, d⟩ :: legs) b'' e'

/-- What a block of the table does, if the guest from which it was lowered is `known` to belong to its
start. -/
def Courses (o : Options) (regions : List FastRegion) (known : UInt32 → β → Prop) (b : Block)
    (e : Environment β) (d : Departure β) : Prop :=
  ∃ bus, known b.start bus ∧
    Course o regions (b.Word o.maxBlockInstructions bus) o.maxBlockInstructions b.start 0 e d

/-- The delay slots of a block agree, whichever guest it was lowered from. -/
def SlotsAgree (o : Options) (known : UInt32 → β → Prop) (b : Block) : Prop :=
  ∀ bus, known b.start bus → DelaySlotsAgree (b.Word o.maxBlockInstructions bus)

/-- Some block on the way was lowered from the instruction. -/
def Fetched (o : Options) (known : UInt32 → β → Prop) (legs : List (Leg β)) (pc : UInt32)
    (i : Instruction) : Prop :=
  ∃ l ∈ legs, l.block.Fetches o.maxBlockInstructions known pc i

namespace Fetched

variable {known : UInt32 → β → Prop} {l : Leg β} {legs : List (Leg β)} {pc : UInt32} {i : Instruction}

theorem head (h : l.block.Fetches o.maxBlockInstructions known pc i) :
    Fetched o known (l :: legs) pc i :=
  ⟨l, List.mem_cons_self, h⟩

theorem tail (h : Fetched o known legs pc i) : Fetched o known (l :: legs) pc i := by
  obtain ⟨l', hl', hfetches⟩ := h
  exact ⟨l', List.mem_cons_of_mem l hl', hfetches⟩

end Fetched

namespace Courses

variable {known : UInt32 → β → Prop} {e : Environment β} {d : Departure β}

/-- What a block takes off a budget that is not spent: at least one cycle, unless it comes to an
instruction that is refused. -/
theorem downcount (haccepted : o.Accepted regions) (hbound : 36 * (o.maxBlockInstructions + 1) < 2 ^ 31)
    (h : Courses o regions known b e d) (hbus : d.way = .checked → Bus.Respects β Slot.downcount)
    (hbudget : 0 ≤ e.state.downcount) :
    (d.way = .refused ∧ d.env.state.downcount = e.state.downcount) ∨
      d.env.state.downcount < e.state.downcount ∧
        -(36 * (o.maxBlockInstructions + 1) : Nat) ≤ d.env.state.downcount ∧
        ∀ target spent, d.way = .exit target spent → spent = decide (d.env.state.downcount < 0) := by
  obtain ⟨bus, -, hcourse⟩ := h
  have hlimit := haccepted.instructions
  have hcycles : (0 : UInt32).toNat = 0 := rfl
  rcases hcourse.exists_charged (fun _ _ hi => hi.finds.mem_table) hbus (by omega) with
    ⟨hway, hleft⟩ | ⟨amount, hcharged, hlow, hhigh⟩
  · exact .inl ⟨hway, congrArg Word.toInt hleft⟩
  · right
    have hsub : d.env.state.downcount = e.state.downcount - amount.toNat := by
      rw [State.downcount, hcharged.left]
      exact Word.toInt_sub hbudget (by omega)
    refine ⟨by omega, by omega, fun target spent hexit => ?_⟩
    rw [hcharged.spent target spent hexit, Word.lessSigned_eq_decide, hsub,
      Word.toInt_of_lt (w := amount) (by omega), decide_eq_decide]
    change _ < _ ↔ Word.toInt _ - _ < _
    omega

/-- Register zero stays. -/
theorem zero (h : Courses o regions known b e d)
    (hbus : d.way = .checked → Bus.Maintains β 0 (· = 0)) (hzero : e.state.get 0 = 0) :
    d.env.state.get 0 = 0 := by
  obtain ⟨bus, -, hcourse⟩ := h
  exact hcourse.keeps (fun _ _ hi => hi.finds.mem_table) (.inl rfl) (by decide)
    (fun hchecked => ⟨by decide, hbus hchecked⟩) hzero

theorem evolves (h : Courses o regions known b e d) : Bus.Evolves e.bus d.env.bus := by
  obtain ⟨bus, -, hcourse⟩ := h
  exact hcourse.evolves

/-- A block does what the reference machine does. -/
theorem run (hslots : SlotsAgree o known b) (h : Courses o regions known b e d) :
    ∃ c r, Guest.Run (fun _ => b.Fetches o.maxBlockInstructions known) (performs o regions)
        (e.setWord Slot.pc b.start) d.calls c r ∧
      c ≤ 36 * (o.maxBlockInstructions + 1) ∧
      (d.way = .refused →
        Guest.Refuses (fun _ => b.Fetches o.maxBlockInstructions known) r d.env) ∧
      (d.way ≠ .refused → r.Agrees d.env ∧
        ((d.way = .checked → Bus.Respects β Slot.downcount) →
          d.env.state.get Slot.downcount = e.state.get Slot.downcount - c.toUInt32)) := by
  obtain ⟨bus, hbus, hcourse⟩ := h
  obtain ⟨c, r, hrun, hcost, hstops, hgoes⟩ :=
    hcourse.run (fun _ _ hi => hi.finds.mem_table) (hslots bus hbus)
  have hfetch (_ : β) (pc : UInt32) (i : Instruction) (hi : b.Word o.maxBlockInstructions bus pc i) :
      b.Fetches o.maxBlockInstructions known pc i := ⟨bus, hbus, hi⟩
  refine ⟨c, r, hrun.mono hfetch, hcost, fun hway => (hstops hway).mono hfetch, fun hway =>
    ⟨(hgoes hway).1, fun hrespects => ?_⟩⟩
  have hleft := ((hgoes hway).2 hrespects).left
  rwa [UInt32.zero_add] at hleft

/-- The program counter tells the block that comes next. -/
theorem setWord_next? (hc : t.Coherent link) (h : Courses o regions known b e d) {b' : Block}
    (hnext : t.next? link d.way = some b') : d.env.setWord Slot.pc b'.start = d.env := by
  obtain ⟨target, hway, number, -, hstart⟩ := hc.mem_next? hnext
  obtain ⟨bus, -, hcourse⟩ := h
  rw [hstart, ← hcourse.pc_of_exit hway]
  exact Environment.setWord_get d.env Slot.pc

/-- A block that leads to another one does what the reference machine does. -/
theorem run_of_next? (hc : t.Coherent link) (hslots : SlotsAgree o known b)
    (h : Courses o regions known b e d) {b' : Block} (hnext : t.next? link d.way = some b') :
    ∃ c r, Guest.Run (fun _ => b.Fetches o.maxBlockInstructions known) (performs o regions)
        (e.setWord Slot.pc b.start) d.calls c r ∧
      c ≤ 36 * (o.maxBlockInstructions + 1) ∧ r.Agrees d.env ∧
      d.env.state.get Slot.downcount = e.state.get Slot.downcount - c.toUInt32 := by
  obtain ⟨target, hway, -⟩ := hc.mem_next? hnext
  obtain ⟨c, r, hrun, hcost, -, hgoes⟩ := h.run hslots
  obtain ⟨hagrees, hleft⟩ := hgoes (by simp [hway])
  exact ⟨c, r, hrun, hcost, hagrees, hleft (by simp [hway])⟩

/-- A block that leads to another one leaves some budget. -/
theorem of_next? (haccepted : o.Accepted regions)
    (hbound : 36 * (o.maxBlockInstructions + 1) < 2 ^ 31) (hc : t.Coherent link)
    (h : Courses o regions known b e d) {b' : Block} (hnext : t.next? link d.way = some b')
    (hbudget : 0 ≤ e.state.downcount) :
    d.way ≠ .checked ∧ d.env.state.downcount < e.state.downcount ∧ 0 ≤ d.env.state.downcount := by
  obtain ⟨target, hway, -⟩ := hc.mem_next? hnext
  have hunchecked : d.way ≠ .checked := by simp [hway]
  obtain ⟨hrefused, -⟩ | ⟨hdown, -, hspent⟩ := h.downcount haccepted hbound
    (fun hchecked => absurd hchecked hunchecked) hbudget
  · rw [hway] at hrefused
    cases hrefused
  · have := of_decide_eq_false (hspent target false hway).symm
    exact ⟨hunchecked, hdown, by omega⟩

end Courses

namespace Voyage

variable {known : UInt32 → β → Prop} {e : Environment β} {d : Departure β} {legs : List (Leg β)}

/-- No block is entered once the budget is spent, and each but the last takes something off it. -/
theorem exists_last (haccepted : o.Accepted regions)
    (hbound : 36 * (o.maxBlockInstructions + 1) < 2 ^ 31) (hc : t.Coherent link)
    (h : Voyage t link (Courses o regions known) b e legs d) (hbudget : 0 ≤ e.state.downcount) :
    (∀ l ∈ legs, 0 ≤ l.env.state.downcount) ∧ ∃ b' e', legs.getLast? = some ⟨b', e', d⟩ ∧
      Courses o regions known b' e' d ∧ 0 ≤ e'.state.downcount ∧
        legs.length + e'.state.downcount ≤ e.state.downcount + 1 := by
  induction h with
  | last hcourse hnext =>
    refine ⟨?_, _, _, rfl, hcourse, hbudget, ?_⟩
    · simpa using hbudget
    · rw [List.length_singleton]
      omega
  | @link b b' e d d' legs hcourse hnext _ ih =>
    obtain ⟨hunchecked, hdown, hleft⟩ := hcourse.of_next? haccepted hbound hc hnext hbudget
    obtain ⟨hall, b'', e'', hend, hlast, hnonneg, hlength⟩ := ih hleft
    refine ⟨?_, b'', e'', by rw [List.getLast?_cons, hend]; rfl, hlast, hnonneg, ?_⟩
    · simpa using ⟨hbudget, hall⟩
    · rw [List.length_cons]
      omega

omit [Bus β] in
theorem mono {course course' : Block → Environment β → Departure β → Prop}
    (h : Voyage t link course b e legs d) (hcourse : ∀ {b e d}, course b e d → course' b e d) :
    Voyage t link course' b e legs d := by
  induction h with
  | last h hnext => exact .last (hcourse h) hnext
  | link h hnext _ ih => exact .link (hcourse h) hnext ih

omit [Bus β] in
/-- The block that was entered is on the way. -/
theorem length_pos {course : Block → Environment β → Departure β → Prop}
    (h : Voyage t link course b e legs d) : 0 < legs.length := by
  cases h <;> exact Nat.succ_pos _

omit [Bus β] in
/-- All blocks on the way are blocks of the table. -/
theorem mem_blocks {course : Block → Environment β → Departure β → Prop} (hc : t.Coherent link)
    (h : Voyage t link course b e legs d) (hb : b ∈ t.blocks) : ∀ l ∈ legs, l.block ∈ t.blocks := by
  induction h with
  | last => simpa using hb
  | link _ hnext _ ih =>
    obtain ⟨_, _, _, hnumber, -⟩ := hc.mem_next? hnext
    exact List.forall_mem_cons.2 ⟨hb, ih (Array.mem_of_getElem? hnumber)⟩

/-- Register zero stays. -/
theorem zero (hbus : Bus.Maintains β 0 (· = 0))
    (h : Voyage t link (Courses o regions known) b e legs d) (hzero : e.state.get 0 = 0) :
    d.env.state.get 0 = 0 := by
  induction h with
  | last hcourse => exact hcourse.zero (fun _ => hbus) hzero
  | link hcourse _ _ ih => exact ih (hcourse.zero (fun _ => hbus) hzero)

theorem evolves (h : Voyage t link (Courses o regions known) b e legs d) :
    Bus.Evolves e.bus d.env.bus := by
  induction h with
  | last hcourse => exact hcourse.evolves
  | link hcourse _ _ ih => exact hcourse.evolves.trans ih

/-- The blocks on the way do what the reference machine does, and take the cycles of its steps off the
budget. -/
theorem run (hc : t.Coherent link) (h : Voyage t link (Courses o regions known) b e legs d)
    (hslots : ∀ l ∈ legs, SlotsAgree o known l.block) :
    ∃ c r, Guest.Run (fun _ => Fetched o known legs) (performs o regions)
        (e.setWord Slot.pc b.start) (legs.flatMap (·.departure.calls)) c r ∧
      (d.way = .refused → Guest.Refuses (fun _ => Fetched o known legs) r d.env) ∧
      (d.way ≠ .refused → r.Agrees d.env ∧
        (o.Accepted regions → 36 * (o.maxBlockInstructions + 1) < 2 ^ 31 →
          (d.way = .checked → Bus.Respects β Slot.downcount) → 0 ≤ e.state.downcount →
          d.env.state.downcount = e.state.downcount - c)) := by
  -- The blocks are run one after the other, and the cycles of their steps add up.
  induction h with
  | @last b e d hcourse hnext =>
    obtain ⟨c, r, hrun, hcost, hstops, hgoes⟩ := hcourse.run (hslots _ List.mem_cons_self)
    refine ⟨c, r, ?_, fun hway => (hstops hway).mono fun _ _ _ => .head,
      fun hway => ⟨(hgoes hway).1, ?_⟩⟩
    · rw [List.flatMap_singleton]
      exact hrun.mono fun _ _ _ => .head
    exact fun _ hbound hrespects hbudget =>
      State.downcount_of_charge hbudget (by omega) ((hgoes hway).2 hrespects)
  | @link b b' e d d' legs hcourse hnext _ ih =>
    obtain ⟨hhere, hlater⟩ := List.forall_mem_cons.1 hslots
    obtain ⟨c, r, hrun, hcost, hagrees, hleft⟩ := hcourse.run_of_next? hc hhere hnext
    obtain ⟨c', r', hrun', hstops, hgoes⟩ := ih hlater
    rw [hcourse.setWord_next? hc hnext] at hrun'
    refine ⟨c + c', r', ?_, fun hway => (hstops hway).mono fun _ _ _ => .tail,
      fun hway => ⟨(hgoes hway).1, ?_⟩⟩
    · rw [List.flatMap_cons]
      exact (hrun.mono fun _ _ _ => .head).trans
        (.of_agrees hagrees (hrun'.mono fun _ _ _ => .tail))
    · intro haccepted hbound hrespects hbudget
      obtain ⟨-, -, hnonneg⟩ := hcourse.of_next? haccepted hbound hc hnext hbudget
      have hspent := State.downcount_of_charge hbudget (by omega) hleft
      rw [(hgoes hway).2 haccepted hbound hrespects hnonneg, hspent]
      omega

end Voyage

namespace Stretch

variable {known : UInt32 → β → Prop} {b' : Block} {e e' : Environment β} {legs : List (Leg β)}

omit [Bus β] in
theorem mono {course course' : Block → Environment β → Departure β → Prop}
    (h : Stretch t link course b e legs b' e') (hcourse : ∀ {b e d}, course b e d → course' b e d) :
    Stretch t link course' b e legs b' e' := by
  induction h with
  | nil b e => exact .nil b e
  | link h hnext _ ih => exact .link (hcourse h) hnext ih

omit [Bus β] in
/-- All blocks on the way are blocks of the table. -/
theorem mem_blocks {course : Block → Environment β → Departure β → Prop} (hc : t.Coherent link)
    (h : Stretch t link course b e legs b' e') (hb : b ∈ t.blocks) :
    ∀ l ∈ legs, l.block ∈ t.blocks := by
  induction h with
  | nil => nofun
  | link _ hnext _ ih =>
    obtain ⟨_, _, _, hnumber, -⟩ := hc.mem_next? hnext
    exact List.forall_mem_cons.2 ⟨hb, ih (Array.mem_of_getElem? hnumber)⟩

/-- Every block on the way takes something off the budget, and leaves some of it. -/
theorem budget (haccepted : o.Accepted regions)
    (hbound : 36 * (o.maxBlockInstructions + 1) < 2 ^ 31) (hc : t.Coherent link)
    (h : Stretch t link (Courses o regions known) b e legs b' e') (hbudget : 0 ≤ e.state.downcount) :
    0 ≤ e'.state.downcount ∧ legs.length + e'.state.downcount ≤ e.state.downcount := by
  induction h with
  | nil b e => exact ⟨hbudget, by simp⟩
  | @link b b' b'' e e' d legs hcourse hnext _ ih =>
    obtain ⟨-, hdown, hleft⟩ := hcourse.of_next? haccepted hbound hc hnext hbudget
    obtain ⟨hnonneg, hlength⟩ := ih hleft
    refine ⟨hnonneg, ?_⟩
    rw [List.length_cons]
    omega

/-- The blocks on the way do what the reference machine does. -/
theorem run (hc : t.Coherent link) (h : Stretch t link (Courses o regions known) b e legs b' e')
    (hslots : ∀ l ∈ legs, SlotsAgree o known l.block) :
    ∃ c r, Guest.Run (fun _ => Fetched o known legs) (performs o regions)
      (e.setWord Slot.pc b.start) (legs.flatMap (·.departure.calls)) c r := by
  induction h with
  | nil b e => exact ⟨0, _, .refl (.refl _)⟩
  | @link b b' b'' e e' d legs hcourse hnext _ ih =>
    obtain ⟨hhere, hlater⟩ := List.forall_mem_cons.1 hslots
    obtain ⟨c, r, hrun, -, hagrees, -⟩ := hcourse.run_of_next? hc hhere hnext
    obtain ⟨c', r', hrun'⟩ := ih hlater
    rw [hcourse.setWord_next? hc hnext] at hrun'
    refine ⟨c + c', r', ?_⟩
    rw [List.flatMap_cons]
    exact (hrun.mono fun _ _ _ => .head).trans (.of_agrees hagrees (hrun'.mono fun _ _ _ => .tail))

end Stretch

/-- The blocks of the table take each guest where `course` tells, which is where the guest instructions
lead. -/
structure Traversed (t : BlockTable) (o : Options) (regions : List FastRegion)
    (known : UInt32 → β → Prop) (course : Block → Environment β → Departure β → Prop) : Prop where
  courses : ∀ {b e d}, course b e d → Courses o regions known b e d
  crosses : ∀ {b e}, b ∈ t.blocks → e.state.get 0 = 0 → Bus.Backed regions e.bus →
    ∃ d, course b e d ∧ ∀ m, Enters regions e m → ∃ (k : Nat) (p : HostMachine β),
      Crosses t.code (b.checkedEntry + b.codeSize) (k + 1) d.calls (m.goto b.normalEntry)
        (p.goto (t.lead o.enableBlockLink d.way)) ∧ p.env = d.env

section Traversed

variable {known : UInt32 → β → Prop} {course : Block → Environment β → Departure β → Prop}

theorem Coherent.traversed (haccepted : o.Accepted regions) (hc : t.Coherent o.enableBlockLink)
    (hstubs : t.stubs = Stubs.standard) (hsize : t.code.size ≤ 0x80000000)
    (hsourced : t.Sourced o regions known) :
    t.Traversed o regions known (Courses o regions known) := by
  refine ⟨id, fun hb hzero hbacked => ?_⟩
  obtain ⟨number, hnumber⟩ := Array.mem_iff_getElem?.1 hb
  obtain ⟨bus, hknown, hholds⟩ := hsourced number _ hnumber
  obtain ⟨d, hcourse, -, hcrosses⟩ :=
    hc.crosses_block haccepted hstubs hsize hb hholds hzero hbacked
  exact ⟨d, ⟨bus, hknown, hcourse⟩, hcrosses⟩

/-- Control that enters the body of a block comes to a stub, or to the body of another block after any
number of them. -/
theorem Coherent.exists_voyage_or_stretch (hc : t.Coherent o.enableBlockLink)
    (htraversed : t.Traversed o regions known course) {e : Environment β} {m : HostMachine β}
    (hb : b ∈ t.blocks) (hm : Enters regions e m) (n : Nat) :
    (∃ legs d k, ∃ p : HostMachine β,
      Voyage t o.enableBlockLink course b e legs d ∧
      t.Sails k (legs.flatMap (·.departure.calls)) (legs.map fun l => (l.block, l.env))
        (m.goto b.normalEntry) (p.goto d.way.stub) ∧
      p.env = d.env ∧ k ≤ legs.length * t.code.size) ∨
    ∃ legs b' e' k, ∃ p : HostMachine β,
      Stretch t o.enableBlockLink course b e legs b' e' ∧ legs.length = n ∧
      t.Sails k (legs.flatMap (·.departure.calls)) (legs.map fun l => (l.block, l.env))
        (m.goto b.normalEntry) p ∧ n ≤ k := by
  -- By the number of blocks. A block is crossed once, and its way out may link to the next one.
  induction n generalizing b e m with
  | zero => exact .inr ⟨_, b, e, 0, _, .nil b e, rfl, .refl _, Nat.le_refl 0⟩
  | succ n ih =>
    obtain ⟨d, hcourse, hcrosses⟩ := htraversed.crosses hb hm.zero hm.backed
    obtain ⟨k, p, hcross, hp⟩ := hcrosses m hm
    have hcourses : Courses o regions known b e d := htraversed.courses hcourse
    have hbounds := hc.bounds hb
    -- Code runs forward within a block, so it is shorter than the arena.
    have hlength : k + 1 ≤ t.code.size := by
      have := hcross.length
      rw [ip_goto] at this
      omega
    have hsails := Sails.of_body (m := m.goto b.normalEntry) hc hb rfl hcross
    rw [env_goto, hm.env] at hsails
    cases hnext : t.next? o.enableBlockLink d.way with
    | none =>
      rw [lead, hnext] at hsails
      exact .inl ⟨_, _, k + 1, p, .last hcourse hnext, by simpa using hsails, hp,
        by simpa using hlength⟩
    | some b' =>
      rw [lead, hnext] at hsails
      obtain ⟨target, hway, number', hnumber', -⟩ := hc.mem_next? hnext
      have hframe : p.frame = m.frame := hcross.frame
      have henters : Enters regions d.env p :=
        ⟨hp, ⟨(congrArg Frame.context hframe).trans hm.roles.context, fun r hr =>
          (congrArg Frame.memoryBase hframe).trans (hm.roles.main r hr)⟩,
          hcourses.zero (fun hchecked => by rw [hway] at hchecked; cases hchecked) hm.zero,
          hm.backed.evolves hcourses.evolves⟩
      rcases ih (Array.mem_of_getElem? hnumber') henters with
        ⟨legs, d', j, q, hvoyage, hthen, hq, hj⟩ | ⟨legs, b'', e', j, q, hstretch, hcount, hthen, hj⟩
      · refine .inl ⟨_, d', k + 1 + j, q, .link hcourse hnext hvoyage, ?_, hq, ?_⟩
        · simpa using hsails.trans hthen
        · rw [List.length_cons, Nat.succ_mul]
          omega
      · refine .inr ⟨_, b'', e', k + 1 + j, q, .link hcourse hnext hstretch, ?_, ?_, by omega⟩
        · rw [List.length_cons, hcount]
        · simpa using hsails.trans hthen

end Traversed

end BlockTable

end Recompiler
