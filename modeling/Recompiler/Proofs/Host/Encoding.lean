import Recompiler.Host.Decoder
import Recompiler.Proofs.Word

/-!
# Reading encoded instructions back

Every instruction with sensible operands is read back from its machine code, whatever bytes follow.

* `HostRegister.Valid`, `HostAddress.Valid`, `Place.Valid`, `HostInstruction.Valid`: operands that an
  encoding can hold.
* `HostInstruction.readLead_coded`, `HostInstruction.readOperands_operandBytes`: reading the parts of
  an encoding back.
* `HostInstruction.decode?_encode`: reading an instruction back.
* `HostInstruction.length_encode_le`: no instruction is longer than the longest one.
-/

namespace Recompiler

/-! ## Operands -/

/-- The number names a register. -/
def HostRegister.Valid (r : HostRegister) : Prop :=
  r.number < 16

instance : DecidablePred HostRegister.Valid :=
  fun r => inferInstanceAs (Decidable (r.number < 16))

/-- The registers are registers, and the stack pointer is no index. -/
structure HostAddress.Valid (a : HostAddress) : Prop where
  base : a.base.Valid
  index : ∀ r ∈ a.index, r.Valid ∧ r ≠ .rsp

/-- The place is a register or a memory operand that can be encoded. -/
def Place.Valid : Place → Prop
  | .register r => r.Valid
  | .memory a => a.Valid

/-- The operands can be encoded. -/
def HostInstruction.Valid : HostInstruction → Prop
  | move dst src | moveWide dst src | group _ dst src => dst.Valid ∧ src.Valid
  | moveImmediate r _ | movePointer r _ | negate r | complement r | shift _ r _
  | shiftByCount _ r | multiply _ r | widenLow r | call r | jumpRegister r | push r | pop r => r.Valid
  | load _ dst src | loadAddress dst src => dst.Valid ∧ src.Valid
  | store _ dst src => dst.Valid ∧ src.Valid
  | storeImmediate dst _ => dst.Valid
  | groupImmediate _ dst _ => dst.Valid
  | setLow _ | growStack _ | shrinkStack _ | ret | jump _ | jumpIf .. | trap | nop => True

instance (a : HostAddress) : Decidable a.Valid :=
  decidable_of_iff (a.base.Valid ∧ ∀ r ∈ a.index, r.Valid ∧ r ≠ .rsp)
    ⟨fun h => ⟨h.1, h.2⟩, fun h => ⟨h.base, h.index⟩⟩

instance : DecidablePred Place.Valid
  | .register r => inferInstanceAs (Decidable r.Valid)
  | .memory a => inferInstanceAs (Decidable a.Valid)

instance : DecidablePred HostInstruction.Valid
  | .move dst src | .moveWide dst src | .group _ dst src =>
    inferInstanceAs (Decidable (dst.Valid ∧ src.Valid))
  | .moveImmediate r _ | .movePointer r _ | .negate r | .complement r | .shift _ r _
  | .shiftByCount _ r | .multiply _ r | .widenLow r | .call r | .jumpRegister r | .push r
  | .pop r => inferInstanceAs (Decidable r.Valid)
  | .load _ dst src | .loadAddress dst src => inferInstanceAs (Decidable (dst.Valid ∧ src.Valid))
  | .store _ dst src => inferInstanceAs (Decidable (dst.Valid ∧ src.Valid))
  | .storeImmediate dst _ => inferInstanceAs (Decidable dst.Valid)
  | .groupImmediate _ dst _ => inferInstanceAs (Decidable dst.Valid)
  | .setLow _ | .growStack _ | .shrinkStack _ | .ret | .jump _ | .jumpIf .. | .trap | .nop =>
    inferInstanceAs (Decidable True)

/-- What holds of the first `n` bytes holds of every byte below `n`. -/
theorem forall_byte_lt {n : Nat} {p : UInt8 → Prop} (h : ∀ i : Fin n, p (UInt8.ofNat i)) {b : UInt8}
    (hb : b.toNat < n) : p b := by
  have hi := h ⟨b.toNat, hb⟩
  rwa [show UInt8.ofNat (⟨b.toNat, hb⟩ : Fin n) = b from UInt8.ofNat_toNat] at hi

namespace HostInstruction

/-! ## The parts of an encoding -/

/-- The number of a register is made of its upper bit and its three lower bits. -/
theorem low_add_upper {r : UInt8} (h : r < 16) : (r &&& 7) + (if upper r then 8 else 0) = r := by
  have hall : ∀ i : Fin 16, (UInt8.ofNat i &&& 7) + (if upper (UInt8.ofNat i) then 8 else 0) =
      UInt8.ofNat i := by decide
  exact forall_byte_lt (p := fun r => (r &&& 7) + (if upper r then 8 else 0) = r) hall
    (UInt8.lt_iff_toNat_lt.1 h)

theorem upper_of_lt {r : UInt8} (h : r < 8) : upper r = false := by
  simpa [upper] using h

theorem low_lt (b : UInt8) : (b &&& 7).toNat < 8 := by
  rw [UInt8.toNat_and]
  exact Nat.lt_of_le_of_lt Nat.and_le_right (by decide)

/-- The fields of a packed byte. -/
theorem packed_fields {high : UInt8} (h : high.toNat < 4) (middle low : UInt8) :
    packed high middle low >>> 6 = high ∧ (packed high middle low >>> 3) &&& 7 = middle &&& 7 ∧
      packed high middle low &&& 7 = low &&& 7 := by
  have hall : ∀ (i : Fin 4) (j k : Fin 8),
      let b : UInt8 := (UInt8.ofNat i <<< 6) ||| (UInt8.ofNat j <<< 3) ||| UInt8.ofNat k
      b >>> 6 = UInt8.ofNat i ∧ (b >>> 3) &&& 7 = UInt8.ofNat j ∧ b &&& 7 = UInt8.ofNat k := by
    decide
  have hi := hall ⟨high.toNat, h⟩ ⟨_, low_lt middle⟩ ⟨_, low_lt low⟩
  simp only [UInt8.ofNat_toNat] at hi
  exact hi

theorem displacementMode_lt (a : HostAddress) : (displacementMode a).toNat < 3 := by
  rw [displacementMode]
  split
  · decide
  · split <;> decide

/-- A word that fits a byte is the sign extension of its low byte. -/
theorem signExtend8_of_fitsByte {w : UInt32} (h : Word.fitsByte w = true) :
    Word.signExtend8 w.toUInt8.toUInt32 = w := by
  have hall : ∀ i : Fin 256,
      Word.signExtend8 (UInt32.ofNat i - 0x80).toUInt8.toUInt32 = UInt32.ofNat i - 0x80 := by
    decide +kernel
  have hlt : (w + 0x80).toNat < 256 := by
    simpa [Word.fitsByte, UInt32.lt_iff_toNat_lt] using h
  have hw := hall ⟨(w + 0x80).toNat, hlt⟩
  rwa [show UInt32.ofNat (⟨(w + 0x80).toNat, hlt⟩ : Fin 256) = w + 0x80 from UInt32.ofNat_toNat,
    UInt32.add_sub_cancel] at hw

theorem readWord_bytes (w : UInt32) (rest : List UInt8) :
    readWord (Word.bytes w ++ rest) = some (w, rest) := by
  have h := Word.ofBytes_bytes w
  simp only [Word.bytes] at h ⊢
  simp only [List.cons_append, List.nil_append, readWord, h]

theorem readByte_toUInt8 {w : UInt32} (h : Word.fitsByte w = true) (rest : List UInt8) :
    readByte (w.toUInt8 :: rest) = some (w, rest) :=
  congrArg (fun w => some (w, rest)) (signExtend8_of_fitsByte h)

theorem readDoubleWord_bytes64 (w : UInt64) (rest : List UInt8) :
    readDoubleWord (Word.bytes64 w ++ rest) = some (w, rest) := by
  have h := Word.ofBytes64_bytes64 w
  simp only [Word.bytes64, Word.bytes, List.cons_append, List.nil_append] at h ⊢
  rw [readDoubleWord, h]

theorem readDisplacement_bytes (a : HostAddress) (rest : List UInt8) :
    readDisplacement (displacementMode a) (displacementBytes a ++ rest) =
      some (a.displacement, rest) := by
  by_cases hzero : displacementMode a = 0
  · have hdisplacement : a.displacement = 0 := by
      rw [displacementMode] at hzero
      split at hzero
      · next h => exact h.1
      · split at hzero <;> cases hzero
    simp [readDisplacement, displacementBytes, hzero, hdisplacement]
  · by_cases hone : displacementMode a = 1
    · have hfits : Word.fitsByte a.displacement = true := by
        rw [displacementMode] at hone
        split at hone
        · cases hone
        · split at hone
          · assumption
          · cases hone
      rw [readDisplacement, displacementBytes, hone]
      exact readByte_toUInt8 hfits rest
    · simp only [readDisplacement, displacementBytes, hzero, hone, if_false]
      exact readWord_bytes _ _

/-! ## What stands in front of an opcode -/

/-- What the selection byte of an instruction says. -/
def leadOf (size : OperandSize) (reg : UInt8) (p : Place) : Lead where
  half := size == .half
  wide := size == .wide
  reg := if upper reg then 8 else 0
  index :=
    match p with
    | .register _ => 0
    | .memory a => if a.index.any (upper ·.number) then 8 else 0
  base :=
    match p with
    | .register r => if upper r.number then 8 else 0
    | .memory a => if upper a.base.number then 8 else 0

/-- Nothing is read of an opcode as standing in front of it. -/
def IsOpcode (b : UInt8) : Prop :=
  b ≠ 0x66 ∧ b &&& 0xF0 ≠ 0x40

instance : DecidablePred IsOpcode :=
  fun b => inferInstanceAs (Decidable (b ≠ 0x66 ∧ b &&& 0xF0 ≠ 0x40))

theorem readLead_of_isOpcode {b : UInt8} (h : IsOpcode b) (rest : List UInt8) :
    readLead (b :: rest) = (⟨false, false, 0, 0, 0⟩, b :: rest) := by
  unfold readLead
  split
  next half bytes heq =>
  split at heq
  · next h' => exact absurd (List.cons.inj h').1 h.1
  · cases heq
    simp [h.2]

theorem readLead_half_of_isOpcode {b : UInt8} (h : IsOpcode b) (rest : List UInt8) :
    readLead (0x66 :: b :: rest) = (⟨true, false, 0, 0, 0⟩, b :: rest) := by
  simp [readLead, h.2]

theorem readLead_rex (wide reg index base : Bool) (rest : List UInt8) :
    readLead (rex wide reg index base :: rest) =
      (⟨false, wide, if reg then 8 else 0, if index then 8 else 0, if base then 8 else 0⟩,
        rest) := by
  cases wide <;> cases reg <;> cases index <;> cases base <;> rfl

theorem readLead_half_rex (wide reg index base : Bool) (rest : List UInt8) :
    readLead (0x66 :: rex wide reg index base :: rest) =
      (⟨true, wide, if reg then 8 else 0, if index then 8 else 0, if base then 8 else 0⟩,
        rest) := by
  cases wide <;> cases reg <;> cases index <;> cases base <;> rfl

/-- Without a selection byte there is nothing to select. -/
theorem rex_eq_iff (wide reg index base : Bool) :
    rex wide reg index base = 0x40 ↔ wide = false ∧ reg = false ∧ index = false ∧ base = false := by
  cases wide <;> cases reg <;> cases index <;> cases base <;> decide

/-- Reading a selection byte that is left out if it selects nothing. -/
theorem readLead_selected (half wide reg index base forced : Bool) {b : UInt8} (h : IsOpcode b)
    (more : List UInt8) :
    readLead ((if half then [0x66] else []) ++
        (if forced || rex wide reg index base != 0x40 then [rex wide reg index base] else []) ++
        b :: more) =
      (⟨half, wide, if reg then 8 else 0, if index then 8 else 0, if base then 8 else 0⟩,
        b :: more) := by
  by_cases hforced : (forced || rex wide reg index base != 0x40) = true
  · rw [if_pos hforced]
    cases half with
    | false => exact readLead_rex ..
    | true => exact readLead_half_rex ..
  · rw [if_neg hforced]
    have hrex : rex wide reg index base = 0x40 := by
      cases heq : rex wide reg index base != 0x40 with
      | false => exact bne_eq_false_iff_eq.1 heq
      | true => exact absurd (by rw [heq, Bool.or_true]) hforced
    obtain ⟨rfl, rfl, rfl, rfl⟩ := (rex_eq_iff ..).1 hrex
    cases half with
    | false => exact readLead_of_isOpcode h more
    | true => exact readLead_half_of_isOpcode h more

theorem ite_half (size : OperandSize) :
    (if size = .half then [(0x66 : UInt8)] else []) =
      if (size == .half) = true then [0x66] else [] := by
  cases size <;> rfl

theorem readLead_coded (size : OperandSize) {b : UInt8} (h : IsOpcode b) (opcode : List UInt8)
    (reg : UInt8) (p : Place) (rest : List UInt8) :
    readLead (coded size (b :: opcode) reg p ++ rest) =
      (leadOf size reg p, b :: (opcode ++ operandBytes reg p ++ rest)) := by
  rw [coded, ite_half]
  simp only [List.append_assoc, List.cons_append]
  rw [← List.append_assoc]
  cases p with
  | register r => exact readLead_selected _ _ _ false _ _ h _
  | memory a => exact readLead_selected _ _ _ _ _ _ h _

/-! ## Operand bytes -/

theorem readOperands_operandBytes (size : OperandSize) {reg : UInt8} (hreg : reg < 16) {p : Place}
    (hp : p.Valid) (rest : List UInt8) :
    readOperands (leadOf size reg p) (operandBytes reg p ++ rest) = some (reg, p, rest) := by
  cases p with
  | register r =>
    obtain ⟨hmode, hmiddle, hlow⟩ := packed_fields (show (3 : UInt8) < 4 by decide) reg r.number
    simp only [operandBytes, List.cons_append, List.nil_append, readOperands, hmode, hmiddle, hlow,
      leadOf, if_true, low_add_upper hreg, low_add_upper hp]
    rfl
  | memory a =>
    have hthree := displacementMode_lt a
    have hmode_ne : displacementMode a ≠ 3 := fun h => by rw [h] at hthree; exact absurd hthree (by decide)
    have hbase := low_add_upper hp.base
    -- The form without a displacement is not used where it stands for something else.
    have hspecial : ¬ (displacementMode a = 0 ∧ a.base.number &&& 7 = 5) := by
      rintro ⟨hzero, hfive⟩
      rw [displacementMode, if_neg (fun h => h.2 hfive)] at hzero
      split at hzero <;> cases hzero
    have hread := readDisplacement_bytes a rest
    have hescape : (4 : UInt8) &&& 7 = 4 := by decide
    cases hindex? : a.index with
    | some index =>
      obtain ⟨hmode, hmiddle, hlow⟩ :=
        packed_fields (Nat.lt_succ_of_lt hthree) reg 4
      obtain ⟨hscale, hindex, hb⟩ :=
        packed_fields (show (0 : UInt8) < 4 by decide) index.number a.base.number
      obtain ⟨hvalid, hne⟩ := hp.index index hindex?
      have hnumber : index.number ≠ 4 := fun h => hne (congrArg HostRegister.mk h)
      simp only [operandBytes, hindex?, List.cons_append, readOperands, hmode, hmode_ne, hmiddle,
        hlow, leadOf, if_false, low_add_upper hreg, hscale, hindex, hb, Option.any_some,
        low_add_upper hvalid, hbase, hread, hspecial, hnumber, hescape, if_true]
      simp [← hindex?]
    | none =>
      simp only [operandBytes, hindex?]
      split
      · next hfour =>
        obtain ⟨hmode, hmiddle, hlow⟩ := packed_fields (Nat.lt_succ_of_lt hthree) reg 4
        obtain ⟨hscale, hindex, hb⟩ := packed_fields (show (0 : UInt8) < 4 by decide) 4 a.base.number
        simp only [List.cons_append, readOperands, hmode, hmode_ne, hmiddle, hlow, leadOf, if_false,
          low_add_upper hreg, hscale, hindex, hb, hindex?, Option.any_none, hbase, hread, hspecial,
          hescape, if_true]
        simp [← hindex?]
      · next hfour =>
        obtain ⟨hmode, hmiddle, hlow⟩ :=
          packed_fields (Nat.lt_succ_of_lt hthree) reg a.base.number
        simp only [List.cons_append, readOperands, hmode, hmode_ne, hmiddle, hlow, leadOf, if_false,
          low_add_upper hreg, hfour, hbase, hread, hspecial]
        simp [← hindex?]

/-! ## Whole instructions -/

theorem decode?_coded (size : OperandSize) {b : UInt8} (h : IsOpcode b) (opcode : List UInt8)
    (reg : UInt8) (p : Place) (rest : List UInt8) :
    decode? (coded size (b :: opcode) reg p ++ rest) =
      readOpcode (leadOf size reg p) (b :: (opcode ++ operandBytes reg p ++ rest)) := by
  rw [decode?, readLead_coded size h]

theorem half_leadOf (size : OperandSize) (reg : UInt8) (p : Place) :
    (leadOf size reg p).half = (size == .half) := rfl

theorem wide_leadOf (size : OperandSize) (reg : UInt8) (p : Place) :
    (leadOf size reg p).wide = (size == .wide) := rfl

theorem reg_leadOf {reg : UInt8} (h : reg < 8) (size : OperandSize) (p : Place) :
    (leadOf size reg p).reg = 0 := by
  show (if upper reg then 8 else 0) = (0 : UInt8)
  rw [upper_of_lt h]
  rfl

/-- Reading an instruction with one opcode byte that is followed by operand bytes. -/
theorem decode?_of_readOpcode {r : Option (HostInstruction × List UInt8)} (size : OperandSize)
    {b reg : UInt8} {p : Place} {rest : List UInt8} (hb : IsOpcode b) (hreg : reg < 16)
    (hp : p.Valid)
    (h : readOperands (leadOf size reg p) (operandBytes reg p ++ rest) = some (reg, p, rest) →
      readOpcode (leadOf size reg p) (b :: (operandBytes reg p ++ rest)) = r) :
    decode? (coded size [b] reg p ++ rest) = r := by
  rw [decode?_coded size hb]
  exact h (readOperands_operandBytes size hreg hp _)

/-- The same with an opcode of two bytes. -/
theorem decode?_of_readExtended {r : Option (HostInstruction × List UInt8)} (size : OperandSize)
    {b reg : UInt8} {p : Place} {rest : List UInt8} (hreg : reg < 16) (hp : p.Valid)
    (h : readOperands (leadOf size reg p) (operandBytes reg p ++ rest) = some (reg, p, rest) →
      readExtended (leadOf size reg p) (b :: (operandBytes reg p ++ rest)) = r) :
    decode? (coded size [0x0F, b] reg p ++ rest) = r := by
  rw [decode?_coded size (by decide)]
  exact h (readOperands_operandBytes size hreg hp _)

theorem decode?_load {kind : LoadKind} {dst : HostRegister} {src : HostAddress}
    (h : (load kind dst src).Valid) (rest : List UInt8) :
    decode? ((load kind dst src).encode ++ rest) = some (load kind dst src, rest) := by
  rw [encode, pieces, List.flatten_cons, List.flatten_nil, List.append_nil]
  cases kind with
  | u32 =>
    refine decode?_of_readOpcode .word (by decide) h.1 (p := .memory src) h.2 fun hread => ?_
    simp +decide [readOpcode, readMemory, hread]
  | _ =>
    refine decode?_of_readExtended .word h.1 (p := .memory src) h.2 fun hread => ?_
    simp +decide [readExtended, readMemory, hread]

theorem decode?_groupImmediate {op : GroupOp} {dst : Place} {value : UInt32}
    (h : (groupImmediate op dst value).Valid) (rest : List UInt8) :
    decode? ((groupImmediate op dst value).encode ++ rest) =
      some (groupImmediate op dst value, rest) := by
  have hdigit : op.digit < 8 := by cases op <;> decide
  have hlead := reg_leadOf hdigit .word dst
  have hop : groupOfDigit? op.digit = some op := by cases op <;> rfl
  have hwide := wide_leadOf .word op.digit dst
  rw [encode, pieces]
  split
  · next hfits =>
    have hvalue := readByte_toUInt8 hfits rest
    rw [List.flatten_cons, List.flatten_nil, List.append_nil, List.append_assoc,
      List.singleton_append]
    refine decode?_of_readOpcode .word (by decide) (by cases op <;> decide) h fun hread => ?_
    simp +decide [readOpcode, readGroupImmediate, hread, hlead, hwide, hop, hvalue]
  · rw [List.flatten_cons, List.flatten_nil, List.append_nil, List.append_assoc]
    refine decode?_of_readOpcode .word (by decide) (by cases op <;> decide) h fun hread => ?_
    simp +decide [readOpcode, readGroupImmediate, hread, hlead, hwide, hop,
      readWord_bytes]

/-- An opcode that holds the lower bits of a register number. -/
theorem short_opcode {opcode : UInt8} (h : opcode = 0x50 ∨ opcode = 0x58 ∨ opcode = 0xB8) (r : UInt8) :
    IsOpcode (opcode + (r &&& 7)) ∧ opcode + (r &&& 7) ≠ 0x0F ∧
      (opcode + (r &&& 7)) &&& 0xF8 = opcode ∧ (opcode + (r &&& 7)) &&& 7 = r &&& 7 := by
  have hall : ∀ o ∈ [(0x50 : UInt8), 0x58, 0xB8], ∀ i : Fin 8,
      IsOpcode (o + UInt8.ofNat i) ∧ o + UInt8.ofNat i ≠ 0x0F ∧ (o + UInt8.ofNat i) &&& 0xF8 = o ∧
        (o + UInt8.ofNat i) &&& 7 = UInt8.ofNat i := by
    decide +kernel
  have hlow := hall opcode (by simpa using h) ⟨_, low_lt r⟩
  simp only [UInt8.ofNat_toNat] at hlow
  exact hlow

/-- What stands in front of an opcode that holds the lower bits of a register number. -/
theorem readLead_upper {b : UInt8} (hb : IsOpcode b) (r : UInt8) (rest : List UInt8) :
    readLead ((if upper r then [0x41] else []) ++ b :: rest) =
      (⟨false, false, 0, 0, if upper r then 8 else 0⟩, b :: rest) := by
  cases upper r with
  | false => exact readLead_of_isOpcode hb rest
  | true => exact readLead_rex false false false true _

theorem short_eq {opcode : UInt8} {r : HostRegister} (hr : r.Valid) :
    short opcode r = (if upper r.number then [0x41] else []) ++ [opcode + (r.number &&& 7)] := by
  have hlow := low_add_upper hr
  rw [short]
  split
  · rfl
  · next hupper =>
    rw [if_neg hupper, UInt8.add_zero] at hlow
    rw [hlow]
    rfl

theorem decode?_push {r : HostRegister} (hr : r.Valid) (rest : List UInt8) :
    decode? ((push r).encode ++ rest) = some (push r, rest) := by
  obtain ⟨hopcode, hne, hmask, hlow⟩ := short_opcode (.inl rfl) r.number
  rw [encode, pieces, List.flatten_cons, List.flatten_nil, List.append_nil, short_eq hr,
    List.append_assoc, decode?, List.singleton_append, readLead_upper hopcode]
  simp [readOpcode, hne, hmask, hlow, low_add_upper hr]

theorem decode?_pop {r : HostRegister} (hr : r.Valid) (rest : List UInt8) :
    decode? ((pop r).encode ++ rest) = some (pop r, rest) := by
  obtain ⟨hopcode, hne, hmask, hlow⟩ := short_opcode (.inr (.inl rfl)) r.number
  rw [encode, pieces, List.flatten_cons, List.flatten_nil, List.append_nil, short_eq hr,
    List.append_assoc, decode?, List.singleton_append, readLead_upper hopcode]
  simp [readOpcode, hne, hmask, hlow, low_add_upper hr]

theorem encode_moveImmediate (dst : HostRegister) (value : UInt32) :
    (moveImmediate dst value).encode =
      (if upper dst.number then [0x41] else []) ++
        (0xB8 + (dst.number &&& 7)) :: Word.bytes value := by
  rw [encode, pieces]
  cases upper dst.number <;> simp

theorem encode_movePointer (dst : HostRegister) (value : UInt64) :
    (movePointer dst value).encode =
      rex true false false (upper dst.number) :: (0xB8 + (dst.number &&& 7)) ::
        Word.bytes64 value := by
  rw [encode, pieces]
  simp

theorem decode?_moveImmediate {dst : HostRegister} (hdst : dst.Valid) (value : UInt32)
    (rest : List UInt8) :
    decode? ((moveImmediate dst value).encode ++ rest) = some (moveImmediate dst value, rest) := by
  obtain ⟨hopcode, hne, hmask, hlow⟩ := short_opcode (.inr (.inr rfl)) dst.number
  rw [encode_moveImmediate, List.append_assoc, decode?, List.cons_append, readLead_upper hopcode]
  simp [readOpcode, hne, hmask, hlow, low_add_upper hdst, readWord_bytes]

theorem decode?_movePointer {dst : HostRegister} (hdst : dst.Valid) (value : UInt64)
    (rest : List UInt8) :
    decode? ((movePointer dst value).encode ++ rest) = some (movePointer dst value, rest) := by
  obtain ⟨hopcode, hne, hmask, hlow⟩ := short_opcode (.inr (.inr rfl)) dst.number
  rw [encode_movePointer, decode?, List.cons_append, readLead_rex]
  simp [readOpcode, hne, hmask, hlow, low_add_upper hdst, readDoubleWord_bytes64]

theorem conditionOfCode?_code (c : Condition) (high : UInt8) (h : high = 0x80 ∨ high = 0x90) :
    conditionOfCode? ((high ||| c.code) &&& 0xF) = some c ∧ (high ||| c.code) &&& 0xF0 = high := by
  rcases h with rfl | rfl <;> cases c <;> decide

/-- Reading an instruction that moves the stack pointer. -/
theorem readGroupImmediate_stack (bytes : UInt8) (rest : List UInt8) :
    readGroupImmediate ⟨false, true, 0, 0, 0⟩ true (0xEC :: bytes :: rest) =
        some (growStack bytes, rest) ∧
      readGroupImmediate ⟨false, true, 0, 0, 0⟩ true (0xC4 :: bytes :: rest) =
        some (shrinkStack bytes, rest) := by
  have hbyte : (Word.signExtend8 bytes.toUInt32).toUInt8 = bytes :=
    forall_byte_lt (n := 256) (p := fun b => (Word.signExtend8 b.toUInt32).toUInt8 = b)
      (by decide +kernel) bytes.toNat_lt
  have hgrow : readOperands ⟨false, true, 0, 0, 0⟩ (0xEC :: bytes :: rest) =
      some (5, .register .rsp, bytes :: rest) := rfl
  have hshrink : readOperands ⟨false, true, 0, 0, 0⟩ (0xC4 :: bytes :: rest) =
      some (0, .register .rsp, bytes :: rest) := rfl
  have hsub : groupOfDigit? 5 = some .sub := rfl
  have hadd : groupOfDigit? 0 = some .add := rfl
  simp only [readGroupImmediate, hgrow, hshrink]
  constructor
  · simp [hsub, readByte, hbyte]
  · simp [hadd, readByte, hbyte]

/-- An instruction is read back from its machine code, whatever follows. -/
theorem decode?_encode {i : HostInstruction} (h : i.Valid) (rest : List UInt8) :
    decode? (i.encode ++ rest) = some (i, rest) := by
  -- Prefixes and modes are read the same way for every instruction, so what is left in each case is
  -- that the opcode tells this one from the others.
  cases i with
  | load kind dst src => exact decode?_load h rest
  | groupImmediate op dst value => exact decode?_groupImmediate h rest
  | push r => exact decode?_push h rest
  | pop r => exact decode?_pop h rest
  | moveImmediate dst value => exact decode?_moveImmediate h value rest
  | movePointer dst value => exact decode?_movePointer h value rest
  | growStack bytes =>
    exact (readGroupImmediate_stack bytes rest).1
  | shrinkStack bytes =>
    exact (readGroupImmediate_stack bytes rest).2
  | jump distance =>
    have hdecode : decode? ((jump distance).encode ++ rest) =
        (readWord (Word.bytes distance ++ rest)).bind fun r => some (jump r.1, r.2) := rfl
    rw [hdecode, readWord_bytes]
    rfl
  | jumpIf c distance =>
    obtain ⟨hcode, hmask⟩ := conditionOfCode?_code c 0x80 (.inl rfl)
    have hdecode : decode? ((jumpIf c distance).encode ++ rest) =
        readExtended ⟨false, false, 0, 0, 0⟩ ((0x80 ||| c.code) :: (Word.bytes distance ++ rest)) :=
      rfl
    rw [hdecode]
    simp [readExtended, hmask, hcode, readWord_bytes]
  | setLow c =>
    obtain ⟨hcode, hmask⟩ := conditionOfCode?_code c 0x90 (.inr rfl)
    rw [encode, pieces, List.flatten_cons, List.flatten_nil, List.append_nil]
    refine decode?_of_readExtended .byte (by decide) (p := .register .rax)
      (show HostRegister.rax.Valid by decide) fun hread => ?_
    simp [readExtended, readRegisters, hread, hmask, hcode]
  | ret | trap | nop => rfl
  | widenLow dst =>
    rw [encode, pieces, List.flatten_cons, List.flatten_nil, List.append_nil]
    refine decode?_of_readExtended .word h (p := .register .rax)
      (show HostRegister.rax.Valid by decide) fun hread => ?_
    simp +decide [readExtended, hread]
  | move dst src =>
    rw [encode, pieces, List.flatten_cons, List.flatten_nil, List.append_nil]
    refine decode?_of_readOpcode .word (by decide) h.2 (p := .register dst) h.1 fun hread => ?_
    simp +decide [readOpcode, hread, wide_leadOf]
  | moveWide dst src =>
    rw [encode, pieces, List.flatten_cons, List.flatten_nil, List.append_nil]
    refine decode?_of_readOpcode .wide (by decide) h.2 (p := .register dst) h.1 fun hread => ?_
    simp +decide [readOpcode, hread, wide_leadOf]
  | store width dst src =>
    rw [encode, pieces, List.flatten_cons, List.flatten_nil, List.append_nil]
    cases width with
    | byte =>
      refine decode?_of_readOpcode .byte (by decide) h.2 (p := .memory dst) h.1 fun hread => ?_
      simp +decide [readOpcode, readMemory, hread]
    | half =>
      refine decode?_of_readOpcode .half (by decide) h.2 (p := .memory dst) h.1 fun hread => ?_
      simp +decide [readOpcode, hread, half_leadOf]
    | word =>
      refine decode?_of_readOpcode .word (by decide) h.2 (p := .memory dst) h.1 fun hread => ?_
      simp +decide [readOpcode, hread, half_leadOf]
  | storeImmediate dst value =>
    rw [encode, pieces, List.flatten_cons, List.flatten_nil, List.append_nil, List.append_assoc]
    refine decode?_of_readOpcode .word (by decide) (by decide) (p := .memory dst) h fun hread => ?_
    simp +decide [readOpcode, readMemory, hread, readWord_bytes]
  | loadAddress dst src =>
    rw [encode, pieces, List.flatten_cons, List.flatten_nil, List.append_nil]
    refine decode?_of_readOpcode .word (by decide) h.1 (p := .memory src) h.2 fun hread => ?_
    simp +decide [readOpcode, readMemory, hread]
  | group op dst src =>
    rw [encode, pieces, List.flatten_cons, List.flatten_nil, List.append_nil]
    refine decode?_of_readOpcode .word (by cases op <;> decide) h.2 (p := .register dst) h.1
      fun hread => ?_
    have hop : groupOfDigit? ((8 * op.digit + 1) >>> 3) = some op := by cases op <;> rfl
    cases op <;> simp +decide [readOpcode, readRegisters, hread, hop]
  | negate r | complement r | call r | jumpRegister r =>
    rw [encode, pieces, List.flatten_cons, List.flatten_nil, List.append_nil]
    refine decode?_of_readOpcode .word (by decide) (by decide) (p := .register r) h fun hread => ?_
    simp +decide [readOpcode, readUnary, readRegisters, hread, reg_leadOf]
  | multiply signed r =>
    rw [encode, pieces, List.flatten_cons, List.flatten_nil, List.append_nil]
    cases signed with
    | false =>
      change decode? (coded .word [0xF7] 4 (.register r) ++ rest) = _
      refine decode?_of_readOpcode .word (by decide) (by decide) (p := .register r) h fun hread => ?_
      simp +decide [readOpcode, readUnary, readRegisters, hread, reg_leadOf]
    | true =>
      change decode? (coded .word [0xF7] 5 (.register r) ++ rest) = _
      refine decode?_of_readOpcode .word (by decide) (by decide) (p := .register r) h fun hread => ?_
      simp +decide [readOpcode, readUnary, readRegisters, hread, reg_leadOf]
  | shiftByCount op r =>
    rw [encode, pieces, List.flatten_cons, List.flatten_nil, List.append_nil]
    refine decode?_of_readOpcode .word (by decide) (by cases op <;> decide) (p := .register r) h
      fun hread => ?_
    have hop : shiftOfDigit? op.digit = some op := by cases op <;> rfl
    have hlead := reg_leadOf (show op.digit < 8 by cases op <;> decide) .word (.register r)
    simp +decide [readOpcode, readUnary, readRegisters, hread, hlead, hop]
  | shift op r amount =>
    rw [encode, pieces, List.flatten_cons, List.flatten_nil, List.append_nil, List.append_assoc,
      List.singleton_append]
    refine decode?_of_readOpcode .word (by decide) (by cases op <;> decide) (p := .register r) h
      fun hread => ?_
    have hop : shiftOfDigit? op.digit = some op := by cases op <;> rfl
    have hlead := reg_leadOf (show op.digit < 8 by cases op <;> decide) .word (.register r)
    simp +decide [readOpcode, readUnary, readRegisters, hread, hlead, hop]

/-! ## Lengths -/

theorem length_displacementBytes_le (a : HostAddress) : (displacementBytes a).length ≤ 4 := by
  rw [displacementBytes]
  split
  · exact Nat.zero_le _
  · split <;> simp [Word.bytes]

theorem length_operandBytes_le (reg : UInt8) (p : Place) : (operandBytes reg p).length ≤ 6 := by
  cases p with
  | register r => exact Nat.le_add_left 1 5
  | memory a =>
    have hlen := length_displacementBytes_le a
    rw [operandBytes]
    split
    · simp only [List.length_cons]
      omega
    · split <;> simp only [List.length_cons] <;> omega

theorem length_selection_le (size : OperandSize) (reg : UInt8) (p : Place) :
    (selection size reg p).length ≤ 1 := by
  have hone (c : Prop) [Decidable c] (b : UInt8) : (if c then [b] else []).length ≤ 1 := by
    split <;> simp
  exact hone _ _

theorem length_coded_le (size : OperandSize) (opcode : List UInt8) (reg : UInt8) (p : Place) :
    opcode.length ≤ (coded size opcode reg p).length ∧
      (coded size opcode reg p).length ≤ opcode.length + 8 := by
  have hoperands := length_operandBytes_le reg p
  have hselection := length_selection_le size reg p
  have hhalf : (if size = .half then [(0x66 : UInt8)] else []).length ≤ 1 := by
    split <;> simp
  simp only [coded, List.length_append]
  omega

/-- No instruction is empty or longer than the longest one. -/
theorem length_encode_le (i : HostInstruction) :
    0 < i.encode.length ∧ i.encode.length ≤ maxLength := by
  have hcoded := length_coded_le
  rw [maxLength, encode]
  -- Prefix, opcode and operands are bounded by `length_coded_le`; an immediate adds its own bytes.
  cases i with
  | groupImmediate op dst value =>
    have h83 := hcoded .word [0x83] op.digit dst
    have h81 := hcoded .word [0x81] op.digit dst
    rw [pieces]
    split <;> simp_all [Word.bytes] <;> omega
  | load kind dst src =>
    have h := hcoded .word (loadOpcode kind) dst.number (.memory src)
    have hopcode : 1 ≤ (loadOpcode kind).length ∧ (loadOpcode kind).length ≤ 2 := by
      cases kind <;> decide
    simp only [pieces, List.flatten_cons, List.flatten_nil, List.append_nil]
    omega
  | moveImmediate dst value =>
    rw [pieces]
    split <;> simp [Word.bytes]
  | movePointer dst value => simp [pieces, Word.bytes64, Word.bytes]
  | push r | pop r =>
    simp only [pieces, List.flatten_cons, List.flatten_nil, List.append_nil, short]
    split <;> simp
  | growStack bytes | shrinkStack bytes | ret | trap | nop | jump distance | jumpIf c distance =>
    simp [pieces, Word.bytes]
  | setLow c =>
    have h := hcoded .byte [0x0F, 0x90 ||| c.code] 0 (.register .rax)
    simp only [pieces, List.flatten_cons, List.flatten_nil, List.append_nil]
    rw [List.length_cons, List.length_cons, List.length_nil] at h
    omega
  | storeImmediate dst value =>
    have h := hcoded .word [0xC7] 0 (.memory dst)
    simp_all [pieces, Word.bytes]
    omega
  | shift op dst amount =>
    have h := hcoded .word [0xC1] op.digit (.register dst)
    simp_all [pieces]
    omega
  | _ =>
    simp only [pieces, List.flatten_cons, List.flatten_nil, List.append_nil]
    refine ⟨Nat.lt_of_lt_of_le ?_ (hcoded ..).1, Nat.le_trans (hcoded ..).2 ?_⟩ <;> simp

end HostInstruction

end Recompiler
