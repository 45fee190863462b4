import Recompiler.Proofs.Block.ContainedAccess
import Recompiler.Proofs.Block.MemoryAccess

/-!
# Masked accesses

With masked accesses an address known at run time is rebased by the start of the main region, wrapped
into the region and rounded down. For an address in the main region this is the address itself, but
only if rounding finds nothing to do after rebasing.

* `FastRegion.masked`: the address that masking makes of an address.
* `Lower.sends_of_masked`: a masked access goes there.
* `Lower.sends_of_main`: a guarded access to the main region goes to its own address.
* `Lower.maskedAccess_agrees`: the masked code, the guarded code and the helper.
-/

namespace Recompiler

open HostMachine

variable {γ : Type}

/-! ## Masks -/

namespace Word

/-- A mask and its complement divide a word. -/
theorem toNat_and_add_toNat_and_complement (x mask : UInt32) :
    (x &&& mask).toNat + (x &&& ~~~mask).toNat = x.toNat := by
  have hdisjoint : (x.toBitVec &&& mask.toBitVec) &&& (x.toBitVec &&& ~~~mask.toBitVec) = 0#32 := by
    ext k hk
    simp
    grind
  have hwhole : (x.toBitVec &&& mask.toBitVec) ||| (x.toBitVec &&& ~~~mask.toBitVec) = x.toBitVec := by
    ext k hk
    simp
    grind
  have hsum := BitVec.toNat_add_of_and_eq_zero hdisjoint
  rw [BitVec.add_eq_or_of_and_eq_zero _ _ hdisjoint, hwhole] at hsum
  exact hsum.symm

/-- Masking by one less than a power of two. -/
theorem toNat_and_of_power (x : UInt32) {mask : UInt32} {k : Nat} (h : mask.toNat = 2 ^ k - 1) :
    (x &&& mask).toNat = x.toNat % 2 ^ k := by
  rw [UInt32.toNat_and, h, Nat.and_two_pow_sub_one_eq_mod]

end Word

theorem MemoryOp.size_cases (op : MemoryOp) : op.size = 1 ∨ op.size = 2 ∨ op.size = 4 := by
  simpa using op.mem_sizes

/-- The mask of a masked access rounds a place in the region down. -/
theorem toNat_masked (op : MemoryOp) {length place : UInt32} (hpower : isPowerOfTwo length = true)
    (hplace : place.toNat < length.toNat) :
    (place &&& ((length - 1) &&& ~~~(op.size.toUInt32 - 1))).toNat =
      place.toNat - place.toNat % op.size := by
  have hwrap : place &&& (length - 1) = place := by
    obtain ⟨k, rfl⟩ := exists_of_isPowerOfTwo hpower
    have hlength : ∀ k : Fin 32, (1 <<< k.val.toUInt32 : UInt32).toNat = 2 ^ k.val ∧
        ((1 <<< k.val.toUInt32 : UInt32) - 1).toNat = 2 ^ k.val - 1 := by
      decide
    rw [(hlength k).1] at hplace
    refine UInt32.toNat_inj.1 ?_
    rw [Word.toNat_and_of_power place (hlength k).2, Nat.mod_eq_of_lt hplace]
  have hround : ∀ size ∈ [1, 2, 4],
      ∃ j ∈ [0, 1, 2], (size.toUInt32 - 1).toNat = 2 ^ j - 1 ∧ 2 ^ j = size := by
    decide
  obtain ⟨j, -, hmask, hsize⟩ := hround op.size op.mem_sizes
  have hsum := Word.toNat_and_add_toNat_and_complement place (op.size.toUInt32 - 1)
  rw [Word.toNat_and_of_power place hmask, hsize] at hsum
  rw [← UInt32.and_assoc, hwrap]
  omega

namespace FastRegion

variable {r : FastRegion} {addr place : UInt32}

/-- The address that masking makes of an address. -/
def masked (r : FastRegion) (addr : UInt32) (size : Nat) : UInt32 :=
  r.start + ((addr - r.start) &&& ((r.length - 1) &&& ~~~(size.toUInt32 - 1)))

theorem le_of_offset? {size : Nat} (h : r.offset? addr size = some place) :
    r.start ≤ addr ∧ place = addr - r.start ∧ place.toNat = addr.toNat - r.start.toNat ∧
      place.toNat + size ≤ r.length.toNat := by
  rw [offset?] at h
  split at h
  · next hin =>
    cases h
    exact ⟨hin.1, rfl, UInt32.toNat_sub_of_le _ _ hin.1, hin.2⟩
  · cases h

/-- A masked address lies in the region whole. -/
theorem offset?_masked (op : MemoryOp) (hpower : isPowerOfTwo r.length = true)
    (h : r.offset? addr op.size = some place) :
    r.offset? (r.masked addr op.size) op.size =
      some (place &&& ((r.length - 1) &&& ~~~(op.size.toUInt32 - 1))) := by
  obtain ⟨hstart, rfl, hplace, hfits⟩ := le_of_offset? h
  have hsize := op.size_cases
  have hinside : (addr - r.start).toNat < r.length.toNat := by omega
  have hmasked := toNat_masked op hpower hinside
  rw [masked, offset?]
  generalize (addr - r.start) &&& ((r.length - 1) &&& ~~~(op.size.toUInt32 - 1)) = offset at hmasked ⊢
  have hback : r.start + offset - r.start = offset := by
    rw [UInt32.add_comm, UInt32.add_sub_cancel]
  have haddr := addr.toNat_lt
  rw [UInt32.le_iff_toNat_le] at hstart
  rw [hback, if_pos]
  refine ⟨?_, by omega⟩
  rw [UInt32.le_iff_toNat_le, UInt32.toNat_add_of_lt (by omega)]
  omega

/-- An aligned address in the region is its own masked address just if the region is aligned as
well. -/
theorem masked_eq_iff (op : MemoryOp) (hpower : isPowerOfTwo r.length = true)
    (h : r.offset? addr op.size = some place) (haligned : addr.toNat % op.size = 0) :
    r.masked addr op.size = addr ↔ r.start.toNat % op.size = 0 := by
  obtain ⟨hstart, rfl, hplace, hfits⟩ := le_of_offset? h
  have hsize := op.size_cases
  have hinside : (addr - r.start).toNat < r.length.toNat := by omega
  have hmasked := toNat_masked op hpower hinside
  have haddr := addr.toNat_lt
  rw [UInt32.le_iff_toNat_le] at hstart
  rw [masked, ← UInt32.toNat_inj, UInt32.toNat_add_of_lt (by omega), hmasked, hplace]
  generalize op.size = size at hsize haligned ⊢
  obtain rfl | rfl | rfl := hsize <;> omega

end FastRegion

/-! ## The code -/

namespace Lower

variable {s : Surroundings} {op : MemoryOp} {addr place : UInt32} {main : FastRegion}
  {rest : List FastRegion}

/-- The host address of a masked access. -/
def maskedHostAddress : HostAddress :=
  ⟨.memoryBase, some .scratch, 0⟩

theorem exec_maskedAccess (op : MemoryOp) (value : HostRegister)
    (hsize : op.size ≤ main.length.toNat) (s : Surroundings) (t : Lowering γ) :
    exec (maskedAccess op value main) s t = (.ok (), { t with
      code := t.code ++ (((if main.start ≠ 0 then
            Sequence.alu .sub .scratch .scratch (.immediate main.start) else []) ++
          Sequence.alu .and .scratch .scratch
            (.immediate ((main.length - 1) &&& ~~~(op.size.toUInt32 - 1)))) ++
        [op.instruction value maskedHostAddress]).map Item.instruction }) := by
  have hresolve : (FastAddress.indexed .scratch).resolve = .ok maskedHostAddress := rfl
  have hdirect := op.direct_eq value hresolve
  unfold maskedAccess
  rw [if_neg (Nat.not_lt.2 hsize)]
  by_cases hstart : main.start = 0 <;>
    simp only [exec_bind, exec_emit, emitChecked, hdirect, hstart, ne_eq, not_true_eq_false,
      not_false_eq_true, if_true, if_false, List.map_append, List.nil_append, appendList_append]

/-- A masked access to the main region goes to the masked address. -/
theorem sends_of_masked (hmasked : s.options.fastMemory = true) (hmain : s.regions = main :: rest)
    (hpower : isPowerOfTwo main.length = true) (hplace : main.offset? addr op.size = some place) :
    Sends γ s op addr (main.masked addr op.size) := by
  intro m value hmaps hvalue hcontext haddr t
  obtain ⟨-, rfl, -, hfits⟩ := FastRegion.le_of_offset? hplace
  have hfirst : s.regions[0]? = some main := by rw [hmain]; rfl
  obtain ⟨n, hrebase, hscratch, hkeeps⟩ := Sequence.runs_rebase (.inl rfl) haddr main.start
  obtain ⟨p, hmask, hscratch', hkeeps'⟩ :=
    Paves.runs_mask n ((main.length - 1) &&& ~~~(op.size.toUInt32 - 1))
  have hword : n.getWord .scratch = addr - main.start := getWord_of_get hscratch
  rw [hword] at hscratch'
  have hprepared : Keeps [.scratch, .pointer] m p := (hkeeps.trans hkeeps').mono (by simp)
  have hmaps' := hmaps.congr (congrArg Environment.bus hprepared.env)
    (hprepared.registers .memoryBase (by decide) (by decide))
  have haims := FastAddress.aims_indexed (hmaps'.main main hfirst) hscratch'
  obtain ⟨is, hdirect, q, hreach, haccess⟩ := op.accesses_direct hmaps'.hosted hmaps'.apart
    (hmaps'.regions ▸ hfirst) (FastRegion.offset?_masked op hpower hplace) hvalue haims
  have hresolve : (FastAddress.indexed .scratch).resolve = .ok maskedHostAddress := rfl
  cases (op.direct_eq value hresolve).symm.trans hdirect
  have hexec : exec (dynamicAccess op value) s t = exec (maskedAccess op value main) s t := by
    unfold dynamicAccess
    rw [exec_read_bind, hmain]
    exact congrArg (exec · s t) (if_pos hmasked)
  rw [exec_maskedAccess op value (by omega)] at hexec
  exact ⟨_, q, hexec, rfl, .instructions rfl ((hrebase.append hmask).append hreach),
    haccess.of_keeps hvalue hprepared⟩

/-- A guarded access to the main region goes to its own address. -/
theorem sends_of_main (hguarded : s.options.fastMemory = false) (hmain : s.regions = main :: rest)
    (hplace : main.offset? addr op.size = some place) : Sends γ s op addr addr := by
  have hstart := (FastRegion.le_of_offset? hplace).1
  have hwrapped : main.wrapped? addr op.size = some place := by
    rw [FastRegion.wrapped?_eq op.size_le fun hlow => absurd hstart (UInt32.not_le.2 hlow), hplace]
  refine sends_of_firstHit hguarded fun r offset hhit => ?_
  rw [hmain, List.zipIdx_cons, firstHit_cons_of_some hwrapped] at hhit
  cases hhit
  exact hplace

/-! ## Loads and stores -/

/-- The code for the load or store `i` runs to its end, and then memory is as the helper of the access
leaves it at the address, a loaded value is in the register `rt`, and all other registers have the
values they had. -/
def AgreesAt (s : Surroundings) (t : Lowering γ) (m : HostMachine Board) (i : Instruction)
    (op : MemoryOp) (rt : GuestIndex) (addr : UInt32) : Prop :=
  ∃ (u : Lowering γ) (n : HostMachine Board) (items : List Item),
    exec (straight i) s t = (.ok (), u) ∧ u.code = t.code ++ items ∧
    (∀ (code : Arena) (start : Nat), Laid code.written start items →
      Layout.stop start items < 0x80000000 →
        ∃ k, Steps code k (m.goto start) (n.goto (Layout.stop start items))) ∧
    u.registers.Consistent n ∧
    n.env.bus = (op.asked addr (t.registers.value m rt) m.env).bus ∧
    (∀ kind, op = .load kind → rt ≠ zeroRegister →
      u.registers.value n rt = (m.env.load kind addr).1) ∧
    ∀ r, (∀ kind, op = .load kind → r = rt → r = zeroRegister) →
      u.registers.value n r = t.registers.value m r

/-- Where the code sends an access, there it agrees with the helper. -/
theorem Sends.agreesAt {t : Lowering γ} {m : HostMachine Board} {target : UInt32} {i : Instruction}
    {rt base offset : UInt32} (hsends : Sends γ s op addr target) (hmaps : s.Maps m)
    (h : t.registers.Consistent m) (hunlocked : ∀ r : GuestIndex, t.registers.locked.get r = false)
    (hop : MemoryOp.ofMnemonic? i.mnemonic = some op) (hrt : i.rt = .ok rt)
    (hbase : i.base = .ok base) (hoffset : i.offset = .ok offset)
    (haddr : addr = t.registers.value m (guestOperand base) + offset)
    (hunknown : t.registers.immediate? (guestOperand base) = none) :
    AgreesAt s t m i op (guestOperand rt) target := by
  rw [AgreesAt, straight_of_memoryOp hop]
  by_cases hnothing : ∃ kind, op = .load kind ∧ guestOperand rt = zeroRegister
  · obtain ⟨kind, rfl, hzero⟩ := hnothing
    refine ⟨t, m, [], ?_, Array.appendList_nil.symm, fun _ _ _ _ => ⟨0, rfl⟩, h,
      (bus_load m.env kind target).symm, fun _ _ hne => absurd hzero hne, fun _ _ => rfl⟩
    rw [Lower.memoryAccess, exec_bind_of_ok (exec_registerOperand hrt s t),
      exec_bind_of_ok (exec_registerOperand hbase s t), exec_bind_of_ok (exec_checked hoffset s t)]
    exact congrArg (fun x => exec x s t) (if_pos hzero)
  · obtain ⟨u, n, hexec, ⟨items, hcode, hclosed, hpasses⟩, hagrees⟩ := hsends.memoryAccess hmaps h
      hunlocked hrt hbase hoffset haddr hunknown fun kind hkind hzero => hnothing ⟨kind, hkind, hzero⟩
    exact ⟨u, n, items, hexec, hcode, fun code start hlaid hstop =>
      hpasses.steps hlaid hclosed (Nat.le_of_lt hstop), hagrees.consistent, hagrees.bus,
      fun kind hkind _ => hagrees.loaded kind hkind, fun r hr => hagrees.others r fun kind hkind heq =>
        hnothing ⟨kind, hkind, heq ▸ hr kind hkind heq⟩⟩

/-- Surroundings with guarded accesses. -/
def guarded (s : Surroundings) : Surroundings :=
  { s with options := { s.options with fastMemory := false } }

theorem maps_guarded {m : HostMachine Board} (h : s.Maps m) : (guarded s).Maps m :=
  ⟨h.hosted, h.regions, Options.validate_guarded h.accepted, h.main⟩

/-- The code for any load and store with masked accesses, whose address is known at run time, aligned
and in the main region. It does what the helper of the access does at the masked address, while the
code with guarded accesses does what the helper does at the address itself. The two addresses are the
same, and so all three have the same effect, just if the main region begins at a multiple of the size
of the access. -/
theorem maskedAccess_agrees {t : Lowering γ} {m : HostMachine Board} (hmaps : s.Maps m)
    (hmasked : s.options.fastMemory = true) (h : t.registers.Consistent m)
    (hunlocked : ∀ r : GuestIndex, t.registers.locked.get r = false) {word : UInt32} {i : Instruction}
    (hdecode : Instruction.decode? word = some i)
    (hop : MemoryOp.ofMnemonic? i.mnemonic = some op) :
    ∃ main rt base offset, s.regions.head? = some main ∧ i.rt = .ok rt ∧ i.base = .ok base ∧
      i.offset = .ok offset ∧
      ∀ addr, addr = t.registers.value m (guestOperand base) + offset →
        t.registers.immediate? (guestOperand base) = none →
        main.holds addr op.size = true → addr.toNat % op.size = 0 →
          AgreesAt s t m i op (guestOperand rt) (main.masked addr op.size) ∧
          AgreesAt (guarded s) t m i op (guestOperand rt) addr ∧
          (main.masked addr op.size = addr ↔ main.start.toNat % op.size = 0) := by
  obtain ⟨rt, base, offset, hrt, hbase, hoffset⟩ := operands_of_decode? hdecode hop
  obtain ⟨main, rest, hmain, hpower⟩ := (Options.accepted_of_validate hmaps.accepted).main hmasked
  refine ⟨main, rt, base, offset, by rw [hmain]; rfl, hrt, hbase, hoffset,
    fun addr haddr hunknown hholds haligned => ?_⟩
  obtain ⟨place, hplace⟩ := Option.isSome_iff_exists.1 hholds
  have hsends := sends_of_masked (γ := γ) hmasked hmain hpower hplace
  have hsends' := sends_of_main (γ := γ) (s := guarded s) rfl hmain hplace
  exact ⟨hsends.agreesAt hmaps h hunlocked hop hrt hbase hoffset haddr hunknown,
    hsends'.agreesAt (maps_guarded hmaps) h hunlocked hop hrt hbase hoffset haddr hunknown,
    FastRegion.masked_eq_iff op hpower hplace haligned⟩

/-- `lw t0, 0(a0)` at `0x1004`, where the only memory begins at `0x1002`: with masked accesses it reads
the word at `0x1002`. -/
theorem maskedAccess_agrees_of_unaligned_region :
    ∃ (s : Surroundings) (t : Lowering Board) (m : HostMachine Board) (i : Instruction)
      (main : FastRegion),
      Instruction.decode? 0x8C880000 = some i ∧ s.options.fastMemory = true ∧
      s.regions.head? = some main ∧ main.start = 0x1002 ∧ main.holds 0x1004 4 = true ∧
      m.env.state.get 4 = 0x1004 ∧ AgreesAt s t m i (.load .u32) 8 0x1002 ∧
      AgreesAt (guarded s) t m i (.load .u32) 8 0x1004 := by
  let memory : FlatMemory := ⟨0x1002, 64, Linkage.memoryBase 0, ∅⟩
  let board : Board := ⟨#[memory], [memory.region], fun _ => none⟩
  let s : Surroundings := ⟨{ Options.standard with fastMemory := true }, board.regions,
    ⟨0, 0, 0, 0, 0, 0⟩, fun _ => none⟩
  let t : Lowering Board := { Lowering.initial board 0 with registers := RegisterCache.fresh.start }
  let m : HostMachine Board :=
    ((HostMachine.start ((Environment.initial board).setWord 4 0x1004) 0 0 0).set .context
      Linkage.contextBase).set .memoryBase memory.pointer
  have hhosted : m.env.bus.Hosted := by
    refine Board.hosted_of_pointers (by decide) rfl (by decide) fun k memory' hk => ?_
    obtain rfl : k = 0 := by
      obtain ⟨hlt, -⟩ := Array.getElem?_eq_some_iff.1 hk
      exact Nat.lt_one_iff.1 hlt
    cases hk
    rfl
  have hmaps : s.Maps m := by
    refine ⟨hhosted, rfl, by decide, fun r hr => ?_⟩
    cases hr
    exact get_set_self _ _ _
  have hconsistent : t.registers.Consistent m := .start rfl (by decide) (by decide)
  let i : Instruction := (Instruction.decode? 0x8C880000).get (by decide)
  have hdecode : Instruction.decode? 0x8C880000 = some i := (Option.some_get _).symm
  have hop : MemoryOp.ofMnemonic? i.mnemonic = some (.load .u32) := by decide
  obtain ⟨main, rt, base, offset, hmain, hrt, hbase, hoffset, hall⟩ :=
    maskedAccess_agrees (t := t) hmaps rfl hconsistent (by decide) hdecode hop
  obtain rfl : memory.region = main := Option.some.inj hmain
  obtain rfl : 8 = rt := Except.ok.inj ((by decide : i.rt = .ok 8).symm.trans hrt)
  obtain rfl : 4 = base := Except.ok.inj ((by decide : i.base = .ok 4).symm.trans hbase)
  obtain rfl : 0 = offset := Except.ok.inj ((by decide : i.offset = .ok 0).symm.trans hoffset)
  obtain ⟨hmasked, hguarded, -⟩ := hall 0x1004 (by decide) (by decide) (by decide) (by decide)
  have haddr : memory.region.masked 0x1004 4 = 0x1002 := by decide
  exact ⟨s, t, m, i, memory.region, hdecode, rfl, rfl, rfl, by decide, by decide, haddr ▸ hmasked,
    hguarded⟩

end Lower

end Recompiler
