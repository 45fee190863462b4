import Recompiler.Proofs.Guest.Decoding
import Recompiler.Proofs.Guest.Lines
import Recompiler.Proofs.Guest.Numbering

/-!
# Disassembly loses nothing

The text of an instruction shows its mnemonic and the value of every operand that its row lists.
What a row does not list are only the codes of `break` and `sync`.

* `Line.values`: the values that a line shows.
* `Instruction.line`: the line that an instruction is written as.
* `Instruction.values_line`: the line shows the operands, each one with all its bits.
* `Instruction.format_eq`: the text of an instruction is the text of its line.
* `Instruction.text_identifies`: what follows for the texts of instructions.
-/

namespace Recompiler

open Line

/-! ## The values that a line shows -/

namespace Line

/-- The bits that a number stands for, a negative one in two's complement. -/
def Constant.value : Constant → UInt32
  | decimal n => n.toUInt16.toUInt32
  | hexadecimal n => n

/-- The values that an operand shows, in the order they are written. -/
def Term.values : Term → List UInt32
  | register r => [r.number.toUInt32]
  | constant n => [n.value]
  | address offset base => [offset.value, base.number.toUInt32]

/-- The values that the operands of a line show. -/
def values (l : Line) : List UInt32 :=
  l.terms.flatMap Term.values

end Line

/-! ## How the value of an operand is written -/

namespace Signedness

variable {s : Signedness} {num : UInt32}

/-- The number that a value is written as. -/
def constant (s : Signedness) (num : UInt32) : Constant :=
  match s with
  | signed16 => .decimal num.toUInt16.toInt16
  | unsigned32 => .hexadecimal num
  | unsigned16 => .hexadecimal num.toUInt16.toUInt32

/-- The number of low bits that are written. -/
def bits : Signedness → Nat
  | signed16 | unsigned16 => 16
  | unsigned32 => 32

theorem text_constant (s : Signedness) (num : UInt32) :
    (s.constant num).text = s.format num := by
  cases s with
  | signed16 =>
    rw [constant, Constant.text, format, Word.toInt, Word.signExtend16, Int32.toInt32_toUInt32]
    simp
  | unsigned32 => rfl
  | unsigned16 => simp [constant, Constant.text, format]

/-- A value that fits into the bits that are written is written in full. -/
theorem value_constant (h : num.toNat < 2 ^ s.bits) : (s.constant num).value = num := by
  have hlow (h : num.toNat < 2 ^ 16) : num.toUInt16.toUInt32 = num := by
    apply UInt32.toNat_inj.1
    rw [UInt16.toNat_toUInt32, UInt32.toNat_toUInt16, Nat.mod_eq_of_lt h]
  cases s with
  | signed16 =>
    rw [constant, Constant.value, UInt16.toUInt16_toInt16]
    exact hlow h
  | unsigned32 => rfl
  | unsigned16 => exact hlow h

end Signedness

namespace Entry

/-- The register that a value names. -/
def register (num : UInt32) : GeneralRegister :=
  (GeneralRegister.ofNumber? num.toNat).getD .zero

/-- The number of low bits of an operand that are written. -/
def shownBits (o : Operand × Signedness) : Nat :=
  if o.1.isRegister then 5 else o.2.bits

/-- How an operand that stands on its own is written. -/
def term (o : Operand × Signedness) (num : UInt32) : Term :=
  if o.1.isRegister then .register (register num) else .constant (o.2.constant num)

/-- How the operands with the given values are written. -/
def terms (values : Operand → UInt32) : List (Operand × Signedness) → List Term
  | [] => []
  | (.offset, sign) :: (.base, _) :: _ =>
    [.address (sign.constant (values .offset)) (register (values .base))]
  | (op, sign) :: rest => term (op, sign) (values op) :: terms values rest

/-- Nothing follows a base behind an offset. -/
def baseEnds : List (Operand × Signedness) → Bool
  | [] => true
  | (.offset, _) :: (.base, _) :: rest => rest.isEmpty
  | (_, _) :: rest => baseEnds rest

/-! ## The rows of the table -/

/-- A listed operand has a field, all bits of which are written. -/
theorem exists_field_of_listed : ∀ e ∈ table, ∀ o ∈ e.operands,
    ∃ f ∈ e.pattern.fields, f.operand = o.1 ∧ f.width ≤ shownBits o := by
  decide +kernel

theorem baseEnds_of_mem : ∀ e ∈ table, baseEnds e.operands = true := by
  decide +kernel

/-- Only codes are not listed. -/
theorem listed_of_field : ∀ e ∈ table, e.mnemonic = .breakpoint ∨ e.mnemonic = .sync ∨
    ∀ f ∈ e.pattern.fields, f.operand ∈ e.operands.map (·.1) := by
  decide +kernel

/-! ## Operands -/

section

variable {values values' : Operand → UInt32} {ops : List (Operand × Signedness)} {num : UInt32}

theorem ofNumber?_eq_some_register (h : num.toNat < 2 ^ 5) :
    GeneralRegister.ofNumber? num.toNat = some (register num) := by
  have hlength : num.toNat < GeneralRegister.all.length := h
  rw [register, GeneralRegister.ofNumber?, List.getElem?_eq_getElem hlength, Option.getD_some]

theorem registerText_eq (h : num.toNat < 2 ^ 5) : registerText num = .ok (register num).name := by
  rw [registerText, ofNumber?_eq_some_register h]

theorem number_register (h : num.toNat < 2 ^ 5) : (register num).number.toUInt32 = num := by
  have hnumber : (register num).number = num.toNat :=
    GeneralRegister.file.getElem?_all_iff.1 (ofNumber?_eq_some_register h)
  rw [hnumber]
  exact UInt32.ofNat_toNat

theorem values_term {o : Operand × Signedness} (h : num.toNat < 2 ^ shownBits o) :
    (term o num).values = [num] := by
  rw [shownBits] at h
  rw [term]
  split at h
  · next hregister => rw [if_pos hregister, Term.values, number_register h]
  · next hregister => rw [if_neg hregister, Term.values, Signedness.value_constant h]

theorem registerText_eq_text_term {o : Operand × Signedness} (hregister : o.1.isRegister = true)
    (h : num.toNat < 2 ^ shownBits o) : registerText num = .ok (term o num).text := by
  rw [shownBits, if_pos hregister] at h
  rw [term, if_pos hregister, Term.text, registerText_eq h]

theorem format_eq_text_term {o : Operand × Signedness} (hregister : ¬o.1.isRegister = true)
    (num : UInt32) : o.2.format num = (term o num).text := by
  rw [term, if_neg hregister, Term.text, Signedness.text_constant]

/-- Operands that fit into the bits that are written are shown in full. -/
theorem values_terms (hends : baseEnds ops = true)
    (hfits : ∀ o ∈ ops, (values o.1).toNat < 2 ^ shownBits o) :
    (terms values ops).flatMap Term.values = ops.map (values ·.1) := by
  -- The cases are those of the layout: the end, an offset before its base, any other operand.
  fun_induction terms values ops with
  | case1 => rfl
  | case2 sign sign' rest =>
    -- The term ends the line, so that the row must end there, too.
    obtain rfl : rest = [] := by simpa [baseEnds] using hends
    have hoffset : (sign.constant (values .offset)).value = values .offset :=
      Signedness.value_constant (hfits (.offset, sign) (by simp))
    have hbase := number_register (hfits (.base, sign') (by simp))
    simp [Term.values, hoffset, hbase]
  | case3 op sign rest hnot ih =>
    rw [baseEnds] at hends
    · obtain ⟨hfirst, hrest⟩ := List.forall_mem_cons.1 hfits
      rw [List.flatMap_cons, values_term hfirst, ih hends hrest]
      rfl
    · exact hnot

theorem terms_congr (h : ∀ o ∈ ops, values o.1 = values' o.1) :
    terms values ops = terms values' ops := by
  fun_induction terms values ops with
  | case1 => rfl
  | case2 sign sign' rest =>
    rw [terms, h (.offset, sign) (by simp), h (.base, sign') (by simp)]
  | case3 op sign rest hnot ih =>
    obtain ⟨hfirst, hrest⟩ := List.forall_mem_cons.1 h
    rw [terms, ih hrest, ← hfirst]
    exact hnot

/-- The operands of a word are written as the texts of their terms. -/
theorem operandTexts_eq {p : Pattern} {word : UInt32}
    (hget : ∀ op, (p.get? op word).getD 0 = values op)
    (hfits : ∀ o ∈ ops, (values o.1).toNat < 2 ^ shownBits o) :
    operandTexts p word ops = .ok ((terms values ops).map Term.text) := by
  fun_induction terms values ops with
  | case1 => rfl
  | case2 sign sign' rest =>
    have hbase := registerText_eq (hfits (.base, sign') (by simp))
    rw [operandTexts, hget, hget, hbase, List.map_singleton, Term.text, Signedness.text_constant]
    rfl
  | case3 op sign rest hnot ih =>
    obtain ⟨hfirst, hrest⟩ := List.forall_mem_cons.1 hfits
    rw [operandTexts]
    · rw [ih hrest, hget, List.map_cons]
      -- Only the number of a register can fail to have a text.
      split
      · next hregister =>
        rw [registerText_eq_text_term (o := (op, sign)) hregister hfirst]
        rfl
      · next hregister =>
        rw [← format_eq_text_term (o := (op, sign)) hregister]
        rfl
    · exact hnot

end

end Entry

/-! ## Instructions -/

namespace Instruction

variable {i j : Instruction} {v w word : UInt32}

/-- The line that the instruction is written as. -/
def line (i : Instruction) : Line :=
  ⟨i.mnemonic, Entry.terms (fun op => (i.get? op).getD 0) i.entry.operands⟩

/-- A listed operand has a value, which fits into the bits that are written. -/
theorem exists_get?_listed (hi : i.entry ∈ Entry.table) {o : Operand × Signedness}
    (ho : o ∈ i.entry.operands) :
    ∃ num, i.get? o.1 = some num ∧ num.toNat < 2 ^ Entry.shownBits o := by
  obtain ⟨f, hf, hoperand, hwidth⟩ := Entry.exists_field_of_listed i.entry hi o ho
  have hparts := Entry.partitions_of_mem i.entry hi
  refine ⟨f.extract i.word, ?_, ?_⟩
  · rw [get?, ← hoperand, hparts.get?_of_mem hf]
  · rw [Field.toNat_extract (hparts.inside f hf)]
    calc
      i.word.toNat >>> f.shift % 2 ^ f.width < 2 ^ f.width := Nat.mod_lt _ (Nat.two_pow_pos _)
      _ ≤ 2 ^ Entry.shownBits o := Nat.pow_le_pow_right Nat.zero_lt_two hwidth

theorem listed_fits (hi : i.entry ∈ Entry.table) :
    ∀ o ∈ i.entry.operands, ((i.get? o.1).getD 0).toNat < 2 ^ Entry.shownBits o := by
  intro o ho
  obtain ⟨num, hget, hnum⟩ := exists_get?_listed hi ho
  rwa [hget, Option.getD_some]

/-- The line of an instruction shows the values of the listed operands, and all of them are there. -/
theorem values_line (hi : i.entry ∈ Entry.table) :
    i.line.values.map some = i.entry.operands.map (i.get? ·.1) := by
  rw [Line.values, line, Entry.values_terms (Entry.baseEnds_of_mem i.entry hi) (listed_fits hi),
    List.map_map, List.map_inj_left]
  intro o ho
  obtain ⟨num, hget, -⟩ := exists_get?_listed hi ho
  rw [Function.comp_apply, hget, Option.getD_some]

theorem entry_eq_of_mnemonic (hi : i.entry ∈ Entry.table) (hj : j.entry ∈ Entry.table)
    (h : i.mnemonic = j.mnemonic) : i.entry = j.entry :=
  List.inj_on_of_nodup_map Entry.nodup_mnemonics hi hj h

/-- A line tells the mnemonic and the listed operands, and nothing else. -/
theorem line_eq_iff (hi : i.entry ∈ Entry.table) (hj : j.entry ∈ Entry.table) :
    i.line = j.line ↔
      i.mnemonic = j.mnemonic ∧ ∀ o ∈ i.entry.operands, i.get? o.1 = j.get? o.1 := by
  constructor
  · intro h
    have hmnemonic : i.mnemonic = j.mnemonic := congrArg Line.mnemonic h
    have hvalues : i.line.values.map some = j.line.values.map some := by rw [h]
    rw [values_line hi, values_line hj, ← entry_eq_of_mnemonic hi hj hmnemonic,
      List.map_inj_left] at hvalues
    exact ⟨hmnemonic, hvalues⟩
  · rintro ⟨hmnemonic, hget⟩
    rw [line, line, hmnemonic, ← entry_eq_of_mnemonic hi hj hmnemonic]
    congr 1
    apply Entry.terms_congr
    intro o ho
    rw [hget o ho]

/-- Where the row lists every field, a word is determined by its line. -/
theorem word_eq_of_line_eq (hi : decode? v = some i) (hj : decode? w = some j)
    (h : i.line = j.line) (hbreak : i.mnemonic ≠ .breakpoint) (hsync : i.mnemonic ≠ .sync) :
    v = w := by
  obtain ⟨hmem, hv, rfl⟩ := decode?_eq_some_iff.1 hi
  obtain ⟨hmem', hw, rfl⟩ := decode?_eq_some_iff.1 hj
  obtain ⟨hmnemonic, hget⟩ := (line_eq_iff hmem hmem').1 h
  have hentry : i.entry = j.entry := entry_eq_of_mnemonic hmem hmem' hmnemonic
  have hlisted : ∀ f ∈ i.entry.pattern.fields, f.operand ∈ i.entry.operands.map (·.1) := by
    obtain hm | hm | hm := Entry.listed_of_field i.entry hmem
    · exact absurd hm hbreak
    · exact absurd hm hsync
    · exact hm
  rw [← hentry] at hw
  refine (Entry.partitions_of_mem i.entry hmem).eq_of_get? hv hw fun op => ?_
  by_cases hop : ∃ f ∈ i.entry.pattern.fields, f.operand = op
  · -- The operand is listed, and what is listed agrees.
    obtain ⟨f, hf, rfl⟩ := hop
    obtain ⟨o, ho, heq⟩ := List.mem_map.1 (hlisted f hf)
    have := hget o ho
    rwa [heq, get?, get?, ← hentry] at this
  · -- An operand without a field has no value in either word.
    have hnone : i.entry.pattern.fields.find? (·.operand == op) = none := by
      rw [List.find?_eq_none]
      intro f hf heq
      exact hop ⟨f, hf, by simpa using heq⟩
    rw [Pattern.get?, Pattern.get?, hnone, Option.map_none, Option.map_none]

/-- The line with a name of its own is the line of the zero word. -/
theorem line_eq_nop_iff (hi : decode? word = some i) : i.line = nop ↔ word = 0 := by
  obtain ⟨z, hz, hline⟩ : ∃ z, decode? 0 = some z ∧ z.line = nop := ⟨_, rfl, by decide +kernel⟩
  constructor
  · -- The row of the zero word lists all its fields, so that no other word has this line.
    intro h
    have hm : i.mnemonic = .sll := congrArg Line.mnemonic h
    have hbreak : i.mnemonic ≠ .breakpoint := by
      rw [hm]
      decide
    have hsync : i.mnemonic ≠ .sync := by
      rw [hm]
      decide
    exact word_eq_of_line_eq hi hz (h.trans hline.symm) hbreak hsync
  · rintro rfl
    rw [Option.some.inj (hi.symm.trans hz), hline]

/-- An instruction is written as the text of its line, without fail. -/
theorem format_eq (hi : decode? word = some i) : i.entry.format word = .ok i.line.text := by
  have hnop := line_eq_nop_iff hi
  obtain ⟨hmem, -, rfl⟩ := decode?_eq_some_iff.1 hi
  have htexts : Entry.operandTexts i.entry.pattern i.word i.entry.operands =
      .ok (i.line.terms.map Term.text) :=
    Entry.operandTexts_eq (fun _ => rfl) (listed_fits hmem)
  rw [Entry.format, Line.text, htexts]
  by_cases h : i.word = 0
  · rw [if_pos h, if_pos (hnop.2 h)]
    rfl
  · rw [if_neg h, if_neg (mt hnop.1 h)]
    cases i.line.terms.map Term.text with
    | nil => rfl
    | cons t ts => rfl

theorem text_eq (hi : decode? word = some i) : i.text = i.line.text := by
  have hformat := format_eq hi
  obtain ⟨-, -, rfl⟩ := decode?_eq_some_iff.1 hi
  rw [text, hformat]

/-- An instruction is written without fail, and reading its text gives the line of the instruction:
its mnemonic, and the values of all operands that its row lists. So two instructions have the same
text exactly if they have the same mnemonic and the same listed operands. Then they are the same
word, unless they are `break` or `sync`. -/
theorem text_identifies :
    (∀ word i, decode? word = some i →
      i.entry.format word = .ok i.text ∧ Line.read i.text = some i.line ∧
        i.line.mnemonic = i.mnemonic ∧
        i.line.values.map some = i.entry.operands.map (i.get? ·.1)) ∧
    (∀ v w i j, decode? v = some i → decode? w = some j →
      (i.text = j.text ↔
        i.mnemonic = j.mnemonic ∧ ∀ o ∈ i.entry.operands, i.get? o.1 = j.get? o.1) ∧
      (i.text = j.text → i.mnemonic ≠ .breakpoint → i.mnemonic ≠ .sync → v = w)) := by
  constructor
  · intro word i hi
    have hmem := (decode?_eq_some_iff.1 hi).1
    rw [text_eq hi]
    exact ⟨format_eq hi, Line.read_text i.line, rfl, values_line hmem⟩
  · intro v w i j hi hj
    have hmem := (decode?_eq_some_iff.1 hi).1
    have hmem' := (decode?_eq_some_iff.1 hj).1
    -- A text is read as one line only, so equal texts are texts of the same line.
    have hline : i.text = j.text ↔ i.line = j.line := by
      rw [text_eq hi, text_eq hj]
      constructor
      · intro h
        have hread := Line.read_text i.line
        rw [h, Line.read_text j.line] at hread
        exact (Option.some.inj hread).symm
      · intro h
        rw [h]
    exact ⟨hline.trans (line_eq_iff hmem hmem'),
      fun h => word_eq_of_line_eq hi hj (hline.1 h)⟩

/-- A load below the stack pointer is read back. The same sixteen bits are written differently as a
signed and as an unsigned immediate, and two breakpoints with different codes are written alike. -/
theorem text_identifies_load_immediates_breakpoints :
    (∃ i, decode? 0x8FA8FFFC = some i ∧
      Line.read i.text = some ⟨.lw, [.register .t0, .address (.decimal (-4)) .sp]⟩) ∧
    (∃ i j, decode? 0x2408FFFC = some i ∧ decode? 0x3408FFFC = some j ∧ i.text ≠ j.text) ∧
    (∃ i j, decode? 0x0000000D = some i ∧ decode? 0x0000004D = some j ∧ i.text = j.text) := by
  refine ⟨⟨_, rfl, ?_⟩, ⟨_, _, rfl, rfl, ?_⟩, ⟨_, _, rfl, rfl, ?_⟩⟩
  · exact (text_identifies.1 0x8FA8FFFC _ rfl).2.1
  · intro h
    have hword : (0x2408FFFC : UInt32) = 0x3408FFFC :=
      (text_identifies.2 0x2408FFFC 0x3408FFFC _ _ rfl rfl).2 h (by decide) (by decide)
    exact absurd hword (by decide)
  · exact (text_identifies.2 0x0000000D 0x0000004D _ _ rfl rfl).1.2 ⟨rfl, by simp⟩

end Instruction

end Recompiler
