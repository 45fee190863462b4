import Recompiler.Block.Compile
import Recompiler.Proofs.Code.Layout

/-!
# Lowering steps

What holds of every lowering step, whatever it lowers: it adds to the symbolic code and never looks
at what is there already, it does not care where exits lead, and the labels of what it adds are
new. Each property is kept by putting steps together.

* `Lower.exec`: running a lowering step.
* `Surroundings.Kin`, `Lowering.Alike`, `Uniform`: two lowerings that differ at most in how blocks
  are linked come to the same outcome.
* `Segment`, `Fresh`: the labels of the added code.
* `Orderly`: both at once.
-/

namespace Recompiler

variable {β α γ : Type}

theorem appendList_append {α : Type} (c : Array α) (items more : List α) :
    c ++ (items ++ more) = c ++ items ++ more :=
  Array.ext' (by simp)

/-! ## Running steps -/

namespace Lower

/-- The outcome of a step and what it leaves behind. -/
def exec (x : Lower β α) (s : Surroundings) (t : Lowering β) : Except Failure α × Lowering β :=
  (x.run s).run.run t

@[simp] theorem exec_pure (a : α) (s : Surroundings) (t : Lowering β) :
    exec (pure a) s t = (.ok a, t) := rfl

@[simp] theorem exec_throw (e : Failure) (s : Surroundings) (t : Lowering β) :
    exec (throw e : Lower β α) s t = (.error e, t) := rfl

@[simp] theorem exec_read_bind (k : Surroundings → Lower β α) (s : Surroundings)
    (t : Lowering β) : exec (read >>= k) s t = exec (k s) s t := rfl

@[simp] theorem exec_get_bind (k : Lowering β → Lower β α) (s : Surroundings) (t : Lowering β) :
    exec (get >>= k) s t = exec (k t) s t := rfl

@[simp] theorem exec_modify (f : Lowering β → Lowering β) (s : Surroundings) (t : Lowering β) :
    exec (modify f) s t = (.ok (), f t) := rfl

@[simp] theorem exec_attempt (x : Lower β α) (s : Surroundings) (t : Lowering β) :
    exec (attempt x) s t = (.ok (exec x s t).1, (exec x s t).2) := rfl

/-- Steps run one after the other until one fails. -/
theorem exec_bind (x : Lower β α) (f : α → Lower β γ) (s : Surroundings) (t : Lowering β) :
    exec (x >>= f) s t =
      match exec x s t with
      | (.ok a, t) => exec (f a) s t
      | (.error e, t) => (.error e, t) := by
  unfold exec
  rw [ReaderT.run_bind, ExceptT.run_bind, StateT.run_bind]
  change (match (x.run s).run.run t with | (result, t) => _ : Id _) = _
  rcases (x.run s).run.run t with ⟨_ | a, u⟩ <;> rfl

/-- Steps run one after the other, when the first succeeds. -/
theorem exec_bind_of_ok {x : Lower β α} {f : α → Lower β γ} {s : Surroundings} {t u : Lowering β}
    {a : α} (h : exec x s t = (.ok a, u)) : exec (x >>= f) s t = exec (f a) s u := by
  rw [exec_bind, h]

@[simp] theorem exec_append (items : List Item) (s : Surroundings) (t : Lowering β) :
    exec (append items) s t = (.ok (), { t with code := t.code ++ items }) := rfl

@[simp] theorem exec_emit (is : List HostInstruction) (s : Surroundings) (t : Lowering β) :
    exec (emit is) s t = (.ok (), { t with code := t.code ++ is.map Item.instruction }) := rfl

@[simp] theorem exec_report (event : Event) (s : Surroundings) (t : Lowering β) :
    exec (report event) s t = (.ok (), { t with events := t.events.push event }) := rfl

@[simp] theorem exec_updateRegisters (f : RegisterCache → RegisterCache) (s : Surroundings)
    (t : Lowering β) :
    exec (updateRegisters f) s t = (.ok (), { t with registers := f t.registers }) := rfl

@[simp] theorem exec_currentPc (s : Surroundings) (t : Lowering β) :
    exec currentPc s t = (.ok t.pc, t) := rfl

@[simp] theorem exec_followingPc (s : Surroundings) (t : Lowering β) :
    exec followingPc s t = (.ok (t.pc + 4), t) := rfl

theorem exec_modifyGet (f : Lowering β → α × Lowering β) (s : Surroundings) (t : Lowering β) :
    exec (modifyGet f) s t = (.ok (f t).1, (f t).2) := rfl

@[simp] theorem exec_freshLabel (s : Surroundings) (t : Lowering β) :
    exec freshLabel s t = (.ok t.labels, { t with labels := t.labels + 1 }) := rfl

/-! ### Delay slots -/

/-- Lowers the instruction of a delay slot, where one that ends a block is refused. -/
def inSlot [Bus β] (i : Instruction) : Lower β Unit :=
  if i.mnemonic.endsBlock then
    currentPc >>= fun pc => report (.undefinedDelaySlot i pc) >>= fun _ => hardFault
  else straight i

/-- After the delay slot, refused or not, the address is that of the branch again. -/
theorem exec_delaySlot_of_exec [Bus β] {s : Surroundings} {t u : Lowering β}
    {result : Except Failure Unit}
    (h : exec (instructionWith inSlot) s { t with pc := t.pc + 4 } = (result, u)) :
    exec delaySlot s t =
      (result, { u with pc := t.pc, registers := { u.registers with pc := t.pc } }) := by
  have hattempt := exec_attempt (instructionWith inSlot) s { t with pc := t.pc + 4 }
  rw [h] at hattempt
  unfold inSlot at hattempt
  rw [delaySlot, exec_bind_of_ok (exec_currentPc ..), exec_bind_of_ok (exec_modify ..),
    exec_bind_of_ok hattempt, exec_bind_of_ok (exec_modify ..)]
  rcases result with _ | ⟨⟨⟩⟩ <;> rfl

theorem exists_inSlot [Bus β] {s : Surroundings} {t v : Lowering β}
    (h : exec delaySlot s t = (.ok (), v)) :
    ∃ u, exec (instructionWith inSlot) s { t with pc := t.pc + 4 } = (.ok (), u) ∧
      v = { u with pc := t.pc, registers := { u.registers with pc := t.pc } } := by
  rcases hexec : exec (instructionWith inSlot) s { t with pc := t.pc + 4 } with ⟨result, u⟩
  rw [exec_delaySlot_of_exec hexec] at h
  obtain ⟨rfl, rfl⟩ := Prod.mk.inj h
  exact ⟨u, rfl, rfl⟩

end Lower

/-! ## Lowerings that are alike -/

/-- The item is no exit, no marked entry and no filler. -/
def Item.isPlain : Item → Bool
  | leave .. | entry | align _ => false
  | _ => true

/-- The options lower guest code in the same way, whatever the room for blocks and the links between
them. -/
structure Options.Akin (o o' : Options) : Prop where
  fastMemory : o'.fastMemory = o.fastMemory
  maxBlockInstructions : o'.maxBlockInstructions = o.maxBlockInstructions

theorem Options.Akin.refl (o : Options) : o.Akin o :=
  ⟨rfl, rfl⟩

namespace Surroundings

/-- The way out of a block to a guest address. -/
def exitItem (s : Surroundings) (target : UInt32) : Item :=
  let link := if s.options.enableBlockLink then s.entryAt target else none
  .leave target (link.getD (.offset s.stubs.dispatcher)) link.isSome

/-- The surroundings agree on everything but links and the room for blocks. -/
structure Kin (s s' : Surroundings) : Prop where
  options : s.options.Akin s'.options
  regions : s'.regions = s.regions
  stubs : s'.stubs = s.stubs

theorem Kin.refl (s : Surroundings) : s.Kin s :=
  ⟨.refl _, rfl, rfl⟩

/-- The relation on symbolic code is kept by appending the same items to both sides, and by
appending exits to the same guest address. -/
structure KeepsRelated (s s' : Surroundings) (r : Array Item → Array Item → Prop) : Prop where
  plain : ∀ {c c' : Array Item} (items : List Item), (∀ i ∈ items, i.isPlain = true) → r c c' →
    r (c ++ items) (c' ++ items)
  exit : ∀ {c c' : Array Item} (target : UInt32), r c c' →
    r (c ++ [s.exitItem target]) (c' ++ [s'.exitItem target])

end Surroundings

/-- Buses that are related have the same words to read, and are related after that. -/
def Bus.Matched [Bus β] (q : β → β → Prop) : Prop :=
  ∀ ⦃bus bus' : β⦄, q bus bus' → ∀ addr : UInt32,
    (Bus.read .word addr bus').1 = (Bus.read .word addr bus).1 ∧
      q (Bus.read .word addr bus).2 (Bus.read .word addr bus').2

theorem Bus.matched_eq [Bus β] : Bus.Matched (Eq : β → β → Prop) := by
  rintro bus _ rfl addr
  exact ⟨rfl, rfl⟩

/-- The lowerings agree on everything but their code and their buses, which are related. -/
structure Lowering.Alike (q : β → β → Prop) (r : Array Item → Array Item → Prop)
    (t t' : Lowering β) : Prop where
  code : r t.code t'.code
  bus : q t.bus t'.bus
  others : t' = { t with code := t'.code, bus := t'.bus }

/-- Started alike, the step has the same outcome and leaves lowerings that are alike. -/
def Uniform [Bus β] (x : Lower β α) : Prop :=
  ∀ ⦃s s' : Surroundings⦄, s.Kin s' → ∀ ⦃q : β → β → Prop⦄, Bus.Matched q →
    ∀ ⦃r⦄, s.KeepsRelated s' r → ∀ ⦃t t' : Lowering β⦄, t.Alike q r t' →
      (x.exec s' t').1 = (x.exec s t).1 ∧ (x.exec s t).2.Alike q r (x.exec s' t').2

namespace Uniform

variable [Bus β]

theorem pure (a : α) : Uniform (Pure.pure a : Lower β α) :=
  fun _ _ _ _ _ _ _ _ _ ht => ⟨rfl, ht⟩

theorem throw (e : Failure) : Uniform (MonadExcept.throw e : Lower β α) :=
  fun _ _ _ _ _ _ _ _ _ ht => ⟨rfl, ht⟩

theorem bind {x : Lower β α} {f : α → Lower β γ} (hx : Uniform x) (hf : ∀ a, Uniform (f a)) :
    Uniform (x >>= f) := by
  intro s s' hs q hq r hr t t' ht
  obtain ⟨hsame, halike⟩ := hx hs hq hr ht
  rw [Lower.exec_bind, Lower.exec_bind]
  rcases hrun : x.exec s t with ⟨_ | a, u⟩ <;> rcases hrun' : x.exec s' t' with ⟨_ | a', u'⟩ <;>
    rw [hrun, hrun'] at hsame halike <;> cases hsame
  · exact ⟨rfl, halike⟩
  · exact hf a hs hq hr halike

theorem attempt {x : Lower β α} (hx : Uniform x) : Uniform (Lower.attempt x) := by
  intro s s' hs q hq r hr t t' ht
  obtain ⟨hsame, halike⟩ := hx hs hq hr ht
  simp only [Lower.exec_attempt]
  exact ⟨congrArg Except.ok hsame, halike⟩

/-- A change that neither reads nor writes the code or the bus. -/
theorem modify {f : Lowering β → Lowering β}
    (hf : ∀ t c b, f { t with code := c, bus := b } = { f t with code := c, bus := b }) :
    Uniform (modify f : Lower β PUnit) := by
  intro s s' hs q hq r hr t t' ht
  have hcode (t : Lowering β) : (f t).code = t.code := by
    have h := congrArg Lowering.code (hf t t.code t.bus)
    exact h
  have hbus (t : Lowering β) : (f t).bus = t.bus := by
    have h := congrArg Lowering.bus (hf t t.code t.bus)
    exact h
  refine ⟨rfl, ⟨?_, ?_, ?_⟩⟩
  · rw [Lower.exec_modify, Lower.exec_modify, hcode, hcode]
    exact ht.code
  · rw [Lower.exec_modify, Lower.exec_modify, hbus, hbus]
    exact ht.bus
  · rw [Lower.exec_modify, Lower.exec_modify, hcode, hbus, ← hf, ← ht.others]

/-- A step that goes on with what it finds, the code and the bus apart. -/
theorem get_bind {k : Lowering β → Lower β α}
    (hk : ∀ t c b, k { t with code := c, bus := b } = k t)
    (h : ∀ t, Uniform (k t)) : Uniform (get >>= k) := by
  intro s s' hs q hq r hr t t' ht
  rw [Lower.exec_get_bind, Lower.exec_get_bind, ht.others, hk, ← ht.others]
  exact h t hs hq hr ht

/-- A step that goes on with the surroundings, links apart. -/
theorem read_bind {k : Surroundings → Lower β α} (hk : ∀ s s', s.Kin s' → k s' = k s)
    (h : ∀ s, Uniform (k s)) : Uniform (read >>= k) := by
  intro s s' hs q hq r hr t t' ht
  rw [Lower.exec_read_bind, Lower.exec_read_bind, hk s s' hs]
  exact h s hs hq hr ht

theorem append {items : List Item} (h : ∀ i ∈ items, i.isPlain = true) :
    Uniform (Lower.append items : Lower β Unit) := by
  intro s s' hs q hq r hr t t' ht
  refine ⟨rfl, ⟨hr.plain items h ht.code, ht.bus, ?_⟩⟩
  change ({ t' with code := t'.code ++ items } : Lowering β) = _
  rw [ht.others]
  rfl

theorem freshLabel : Uniform (Lower.freshLabel : Lower β Nat) := by
  intro s s' hs q hq r hr t t' ht
  change Except.ok t'.labels = .ok t.labels ∧
    Lowering.Alike q r { t with labels := t.labels + 1 } { t' with labels := t'.labels + 1 }
  rw [ht.others]
  exact ⟨rfl, ht.code, ht.bus, rfl⟩

end Uniform

/-! ## Labels -/

/-- Labels without repetition, each new or on a list. -/
structure Owned (own : List Nat) (lo hi : Nat) (labels : List Nat) : Prop where
  nodup : labels.Nodup
  mem : ∀ l ∈ labels, l ∈ own ∨ lo ≤ l ∧ l < hi

namespace Owned

variable {own own' labels labels' : List Nat} {lo mid hi : Nat}

theorem nil : Owned own lo hi [] :=
  ⟨List.nodup_nil, by simp⟩

theorem mono (h : Owned own lo hi labels) (hown : ∀ l ∈ own, l ∈ own') : Owned own' lo hi labels :=
  ⟨h.nodup, fun l hl => (h.mem l hl).imp_left (hown l)⟩

/-- The first label counts as new. -/
theorem uncons (h : Owned (lo :: own) (lo + 1) hi labels) (hhi : lo + 1 ≤ hi) :
    Owned own lo hi labels := by
  refine ⟨h.nodup, fun l hl => ?_⟩
  rcases h.mem l hl with hl | ⟨hlo, hlt⟩
  · rcases List.mem_cons.1 hl with rfl | hl
    · exact .inr ⟨Nat.le_refl _, hhi⟩
    · exact .inl hl
  · exact .inr ⟨Nat.le_of_succ_le hlo, hlt⟩

theorem append (h : Owned own lo mid labels) (h' : Owned own' mid hi labels') (hle : lo ≤ mid)
    (hle' : mid ≤ hi) (hold : ∀ l ∈ own ++ own', l < lo) (hne : ∀ l ∈ own, l ∉ own') :
    Owned (own ++ own') lo hi (labels ++ labels') := by
  refine ⟨List.nodup_append.2 ⟨h.nodup, h'.nodup, ?_⟩, fun l hl => ?_⟩
  · rintro l hl _ hl' rfl
    rcases h.mem l hl with hl | ⟨hlo, hlt⟩ <;> rcases h'.mem l hl' with hl' | ⟨hge, -⟩
    · exact hne l hl hl'
    · have := hold l (List.mem_append_left _ hl)
      omega
    · have := hold l (List.mem_append_right _ hl')
      omega
    · omega
  · rw [List.mem_append]
    rcases List.mem_append.1 hl with hl | hl
    · rcases h.mem l hl with hl | ⟨hlo, hlt⟩
      · exact .inl (.inl hl)
      · exact .inr ⟨hlo, by omega⟩
    · rcases h'.mem l hl with hl | ⟨hlo, hlt⟩
      · exact .inl (.inr hl)
      · exact .inr ⟨by omega, hlt⟩

end Owned

theorem jumpLabels_append (items more : List Item) :
    jumpLabels (items ++ more) = jumpLabels items ++ jumpLabels more :=
  List.filterMap_append

theorem bindLabels_append (items more : List Item) :
    bindLabels (items ++ more) = bindLabels items ++ bindLabels more :=
  List.filterMap_append

/-- The step adds to the code. It jumps to labels that are new or in `jumped`, and binds labels that
are new or in `bound`, each at most once. -/
def Fresh (jumped bound : List Nat) (x : Lower β α) : Prop :=
  ∀ s t, (∀ l ∈ jumped ++ bound, l < t.labels) → jumped.Nodup → bound.Nodup →
    t.labels ≤ (x.exec s t).2.labels ∧
    ∃ items, (x.exec s t).2.code.toList = t.code.toList ++ items ∧
      Owned jumped t.labels (x.exec s t).2.labels (jumpLabels items) ∧
      Owned bound t.labels (x.exec s t).2.labels (bindLabels items)

namespace Fresh

variable {jumped bound jumped' bound' : List Nat}

/-- A step that adds nothing. -/
theorem of_silent {x : Lower β α}
    (h : ∀ s t, (x.exec s t).2.code = t.code ∧ (x.exec s t).2.labels = t.labels) :
    Fresh jumped bound x := by
  intro s t _ _ _
  obtain ⟨hcode, hlabels⟩ := h s t
  exact ⟨Nat.le_of_eq hlabels.symm, [], by simp [hcode], .nil, .nil⟩

theorem perm {x : Lower β α} (hx : Fresh jumped bound x) (hbound : bound.Perm bound') :
    Fresh jumped bound' x := by
  intro s t hold hnj hnb
  have hold' : ∀ l ∈ jumped ++ bound, l < t.labels := fun l hl =>
    hold l (List.mem_append.2 ((List.mem_append.1 hl).imp_right hbound.mem_iff.1))
  obtain ⟨hle, items, hcode, hj, hb⟩ := hx s t hold' hnj (hbound.nodup_iff.2 hnb)
  exact ⟨hle, items, hcode, hj, hb.mono fun l hl => hbound.mem_iff.1 hl⟩

/-- Steps that share no label. -/
theorem bind {x : Lower β α} {f : α → Lower β γ} (hx : Fresh jumped bound x)
    (hf : ∀ a, Fresh jumped' bound' (f a)) :
    Fresh (jumped ++ jumped') (bound ++ bound') (x >>= f) := by
  intro s t hold hnj hnb
  simp only [List.mem_append] at hold
  obtain ⟨hnj, hnj', hj_ne⟩ := List.nodup_append.1 hnj
  obtain ⟨hnb, hnb', hb_ne⟩ := List.nodup_append.1 hnb
  obtain ⟨hle, items, hcode, hj, hb⟩ := hx s t
    (fun l hl => hold l ((List.mem_append.1 hl).imp .inl .inl)) hnj hnb
  rw [Lower.exec_bind]
  rcases hrun : x.exec s t with ⟨_ | a, u⟩ <;> rw [hrun] at hle hcode hj hb <;> dsimp only at *
  · exact ⟨hle, items, hcode, hj.mono fun l hl => List.mem_append_left _ hl,
      hb.mono fun l hl => List.mem_append_left _ hl⟩
  · obtain ⟨hle', more, hcode', hj', hb'⟩ := hf a s u (fun l hl =>
      Nat.lt_of_lt_of_le (hold l ((List.mem_append.1 hl).imp .inr .inr)) hle) hnj' hnb'
    refine ⟨Nat.le_trans hle hle', items ++ more, ?_, ?_, ?_⟩
    · rw [hcode', hcode, List.append_assoc]
    · rw [jumpLabels_append]
      refine hj.append hj' hle hle' (fun l hl => hold l ?_) fun l hl hl' => hj_ne l hl l hl' rfl
      exact .inl (List.mem_append.1 hl)
    · rw [bindLabels_append]
      refine hb.append hb' hle hle' (fun l hl => hold l ?_) fun l hl hl' => hb_ne l hl l hl' rfl
      exact .inr (List.mem_append.1 hl)

theorem attempt {x : Lower β α} (hx : Fresh jumped bound x) :
    Fresh jumped bound (Lower.attempt x) := hx

theorem append (items : List Item) :
    Fresh (jumpLabels items) (bindLabels items) (Lower.append items : Lower β Unit) := by
  intro s t _ hj hb
  exact ⟨Nat.le_refl _, items, by simp, ⟨hj, fun _ => .inl⟩, ⟨hb, fun _ => .inl⟩⟩

/-- A new label may be used by the steps that follow. -/
theorem freshLabel_bind {k : Nat → Lower β α}
    (h : ∀ l, Fresh (l :: jumped) (l :: bound) (k l)) :
    Fresh jumped bound (Lower.freshLabel >>= k) := by
  intro s t hold hnj hnb
  rw [Lower.exec_bind, Lower.exec_freshLabel]
  have hnew : t.labels ∉ jumped ∧ t.labels ∉ bound :=
    ⟨fun hl => Nat.lt_irrefl _ (hold _ (List.mem_append_left _ hl)),
      fun hl => Nat.lt_irrefl _ (hold _ (List.mem_append_right _ hl))⟩
  have hold' : ∀ l ∈ (t.labels :: jumped) ++ (t.labels :: bound), l < t.labels + 1 := by
    intro l hl
    have hl : l = t.labels ∨ l ∈ jumped ++ bound := by
      simp only [List.cons_append, List.mem_cons, List.mem_append] at hl ⊢
      rcases hl with hl | hl | hl | hl <;> simp [hl]
    rcases hl with rfl | hl
    · exact Nat.lt_succ_self _
    · exact Nat.lt_succ_of_lt (hold l hl)
  obtain ⟨hle, items, hcode, hj, hb⟩ := h t.labels s { t with labels := t.labels + 1 } hold'
    (List.nodup_cons.2 ⟨hnew.1, hnj⟩) (List.nodup_cons.2 ⟨hnew.2, hnb⟩)
  exact ⟨Nat.le_of_succ_le hle, items, hcode, hj.uncons hle, hb.uncons hle⟩

end Fresh

/-! ## Steps that are both -/

/-! ## Events -/

/-- Events that are told stay told. -/
def Tells (x : Lower β α) : Prop :=
  ∀ s t, ∃ more : List Event, (x.exec s t).2.events = t.events ++ more

namespace Tells

theorem of_eq {x : Lower β α} (h : ∀ s t, (x.exec s t).2.events = t.events) : Tells x :=
  fun s t => ⟨[], by rw [h, Array.appendList_nil]⟩

theorem bind {x : Lower β α} {f : α → Lower β γ} (hx : Tells x) (hf : ∀ a, Tells (f a)) :
    Tells (x >>= f) := by
  intro s t
  obtain ⟨more, hmore⟩ := hx s t
  rw [Lower.exec_bind]
  generalize x.exec s t = r at hmore ⊢
  obtain ⟨_ | a, u⟩ := r
  · exact ⟨more, hmore⟩
  · obtain ⟨rest, hrest⟩ := hf a s u
    exact ⟨more ++ rest, by rw [hrest, hmore, appendList_append]⟩

end Tells

/-- The step is uniform. Its labels are new, apart from those it is given to jump to and to bind. -/
structure Orderly [Bus β] (x : Lower β α) (jumped : List Nat := []) (bound : List Nat := []) : Prop where
  uniform : Uniform x
  fresh : Fresh jumped bound x
  tells : Tells x

theorem isPlain_of_mem_instructions (is : List HostInstruction) :
    ∀ i ∈ is.map Item.instruction, i.isPlain = true := by
  intro i hi
  obtain ⟨i, -, rfl⟩ := List.mem_map.1 hi
  rfl

theorem jumpLabels_instructions (is : List HostInstruction) :
    jumpLabels (is.map Item.instruction) = [] := by
  simp [jumpLabels, Item.jumpLabel?]

namespace Orderly

variable [Bus β] {jumped bound jumped' bound' : List Nat}

/-- Code that is there stays there. -/
theorem code_extends {x : Lower β α} (hx : Orderly x) (s : Surroundings) (t : Lowering β) :
    ∃ more, (x.exec s t).2.code.toList = t.code.toList ++ more := by
  obtain ⟨-, items, hcode, -⟩ := hx.fresh s t (by simp) .nil .nil
  exact ⟨items, hcode⟩

theorem perm {x : Lower β α} (hx : Orderly x jumped bound) (hbound : bound.Perm bound') :
    Orderly x jumped bound' :=
  ⟨hx.uniform, hx.fresh.perm hbound, hx.tells⟩

/-! ### Putting steps together -/

theorem pure (a : α) : Orderly (Pure.pure a : Lower β α) jumped bound :=
  ⟨.pure a, .of_silent fun _ _ => ⟨rfl, rfl⟩, .of_eq fun _ _ => rfl⟩

theorem throw (e : Failure) : Orderly (MonadExcept.throw e : Lower β α) jumped bound :=
  ⟨.throw e, .of_silent fun _ _ => ⟨rfl, rfl⟩, .of_eq fun _ _ => rfl⟩

/-- Steps that share no label. -/
theorem bind_apart {x : Lower β α} {f : α → Lower β γ} (hx : Orderly x jumped bound)
    (hf : ∀ a, Orderly (f a) jumped' bound') :
    Orderly (x >>= f) (jumped ++ jumped') (bound ++ bound') :=
  ⟨hx.uniform.bind fun a => (hf a).uniform, hx.fresh.bind fun a => (hf a).fresh,
    hx.tells.bind fun a => (hf a).tells⟩

theorem bind {x : Lower β α} {f : α → Lower β γ} (hx : Orderly x)
    (hf : ∀ a, Orderly (f a) jumped bound) : Orderly (x >>= f) jumped bound :=
  hx.bind_apart hf

theorem map {x : Lower β α} (f : α → γ) (hx : Orderly x) : Orderly (f <$> x) :=
  hx.bind fun a => pure (f a)

theorem ite {c : Prop} [Decidable c] {x y : Lower β α} (hx : Orderly x jumped bound)
    (hy : Orderly y jumped bound) : Orderly (if c then x else y) jumped bound := by
  split
  · exact hx
  · exact hy

/-- A step that is done on a condition, before the others. -/
theorem optional {c : Prop} [Decidable c] {x : Lower β Unit} {k : Unit → Lower β γ}
    (hx : Orderly x) (hk : ∀ u, Orderly (k u) jumped bound) :
    Orderly (if c then x >>= k else k ()) jumped bound :=
  ite (hx.bind hk) (hk ())

theorem attempt {x : Lower β α} (hx : Orderly x) : Orderly (Lower.attempt x) :=
  ⟨hx.uniform.attempt, hx.fresh.attempt, hx.tells⟩

/-- A change that leaves code, labels and events alone. -/
theorem modify {f : Lowering β → Lowering β}
    (hf : ∀ t c b, f { t with code := c, bus := b } = { f t with code := c, bus := b })
    (hlabels : ∀ t, (f t).labels = t.labels) (hevents : ∀ t, (f t).events = t.events) :
    Orderly (modify f : Lower β PUnit) := by
  refine ⟨.modify hf, .of_silent fun _ t => ⟨?_, hlabels t⟩, .of_eq fun _ t => hevents t⟩
  have h := congrArg Lowering.code (hf t t.code t.bus)
  exact h

theorem get_bind {k : Lowering β → Lower β α}
    (hk : ∀ t c b, k { t with code := c, bus := b } = k t)
    (h : ∀ t, Orderly (k t) jumped bound) : Orderly (get >>= k) jumped bound :=
  ⟨.get_bind hk fun t => (h t).uniform, fun s t => (h t).fresh s t, fun s t => (h t).tells s t⟩

theorem read_bind {k : Surroundings → Lower β α} (hk : ∀ s s', s.Kin s' → k s' = k s)
    (h : ∀ s, Orderly (k s) jumped bound) : Orderly (read >>= k) jumped bound :=
  ⟨.read_bind hk fun s => (h s).uniform, fun s t => (h s).fresh s t, fun s t => (h s).tells s t⟩

/-- A new label is jumped to and bound by the steps that follow. -/
theorem freshLabel_bind {k : Nat → Lower β α}
    (h : ∀ l, Orderly (k l) (l :: jumped) (l :: bound)) :
    Orderly (Lower.freshLabel >>= k) jumped bound :=
  ⟨Uniform.freshLabel.bind fun l => (h l).uniform, .freshLabel_bind fun l => (h l).fresh,
    fun s t => (h t.labels).tells s { t with labels := t.labels + 1 }⟩

/-! ### Adding code -/

/-- Items with their labels. -/
theorem append_labels (items : List Item) (h : ∀ i ∈ items, i.isPlain = true) :
    Orderly (Lower.append items : Lower β Unit) (jumpLabels items) (bindLabels items) :=
  ⟨.append h, .append items, .of_eq fun _ _ => rfl⟩

/-- Items without labels. -/
theorem append {items : List Item} (h : ∀ i ∈ items, i.isPlain = true)
    (hj : jumpLabels items = []) (hb : bindLabels items = []) :
    Orderly (Lower.append items : Lower β Unit) := by
  have happend := append_labels (β := β) items h
  rwa [hj, hb] at happend

theorem jumpTo (target : Nat) : Orderly (Lower.append [.jumpTo target] : Lower β Unit) :=
  append (by simp [Item.isPlain]) rfl rfl

theorem emit (is : List HostInstruction) : Orderly (Lower.emit is : Lower β Unit) :=
  append (isPlain_of_mem_instructions is) (jumpLabels_instructions is) (bindLabels_instructions is)

theorem emitChecked (is : Except Breach (List HostInstruction)) :
    Orderly (Lower.emitChecked is : Lower β Unit) := by
  cases is with
  | ok is => exact emit is
  | error b => exact throw _

/-- A conditional jump to a label that is bound later. -/
theorem jumpIf_bind {c : Condition} {l : Nat} {k : Unit → Lower β α}
    (hk : ∀ u, Orderly (k u) jumped bound) :
    Orderly (Lower.append [.jumpIf c l] >>= k) (l :: jumped) bound :=
  bind_apart (append_labels [.jumpIf c l] (by simp [Item.isPlain])) hk

theorem bindLabel_bind {l : Nat} {k : Unit → Lower β α} (hk : ∀ u, Orderly (k u) jumped bound) :
    Orderly (Lower.append [.bind l] >>= k) jumped (l :: bound) :=
  bind_apart (append_labels [.bind l] (by simp [Item.isPlain])) hk

/-! ### Other steps -/

theorem report (event : Event) : Orderly (Lower.report event : Lower β Unit) :=
  ⟨.modify fun _ _ _ => rfl, .of_silent fun _ _ => ⟨rfl, rfl⟩, fun _ t =>
    ⟨[event], t.events.push_eq_append⟩⟩

theorem checked (x : Except Breach α) : Orderly (Lower.checked x : Lower β α) := by
  cases x with
  | ok a => exact pure a
  | error b => exact throw _

theorem registerOperand (x : Except Breach UInt32) :
    Orderly (Lower.registerOperand x : Lower β GuestIndex) :=
  map _ (checked x)

theorem currentPc : Orderly (Lower.currentPc : Lower β UInt32) :=
  get_bind (fun _ _ _ => rfl) fun _ => pure _

theorem followingPc : Orderly (Lower.followingPc : Lower β UInt32) :=
  get_bind (fun _ _ _ => rfl) fun _ => pure _

theorem immediate? (reg : GuestIndex) :
    Orderly (Lower.immediate? reg : Lower β (Option UInt32)) :=
  get_bind (fun _ _ _ => rfl) fun _ => pure _

theorem updateRegisters (f : RegisterCache → RegisterCache) :
    Orderly (Lower.updateRegisters f : Lower β Unit) :=
  modify (fun _ _ _ => rfl) (fun _ => rfl) fun _ => rfl

theorem setImmediate (reg : GuestIndex) (value : UInt32) :
    Orderly (Lower.setImmediate reg value : Lower β Unit) :=
  updateRegisters _

theorem close : Orderly (Lower.close : Lower β Unit) :=
  modify (fun _ _ _ => rfl) (fun _ => rfl) fun _ => rfl

/-- An operation on the register cache adds instructions only. -/
theorem allocating (x : Allocate α) : Orderly (Lower.allocating x : Lower β α) := by
  refine get_bind (fun _ _ _ => rfl) fun t => ?_
  rcases x.run.run ⟨t.registers, [], []⟩ with ⟨result, a⟩
  refine bind ⟨?_, ?_, fun _ _ => ⟨a.events, rfl⟩⟩ fun _ => ?_
  · intro s s' hs q hq r hr t t' ht
    refine ⟨rfl, ⟨hr.plain _ (isPlain_of_mem_instructions a.code) ht.code, ht.bus, ?_⟩⟩
    change ({ t' with
      registers := a.cache
      code := t'.code ++ a.code.map Item.instruction
      events := t'.events ++ a.events } : Lowering β) = _
    rw [ht.others]
    rfl
  · intro s t _ _ _
    refine ⟨Nat.le_refl _, a.code.map Item.instruction, ?_, ?_, ?_⟩
    · simp
    · rw [jumpLabels_instructions]
      exact .nil
    · rw [bindLabels_instructions]
      exact .nil
  · cases result with
    | ok value => exact pure value
    | error f => exact throw f

theorem map_register (reg : GuestIndex) (access : Access) :
    Orderly (Lower.map reg access : Lower β HostRegister) :=
  allocating _

theorem flushAll : Orderly (Lower.flushAll : Lower β Unit) :=
  allocating _

end Orderly

end Recompiler
