import Mathlib.Data.List.Nodup
import Mathlib.Logic.ExistsUnique
import Mathlib.Tactic.ByContra
import Recompiler.Proofs.Guest.Fields
import Recompiler.Proofs.Guest.Interpreter

/-!
# Decoding loses nothing

The rows of the table exclude each other, and the encoding of each row uses every bit of a word
exactly once. So a word is one instruction at most, and instructions and words determine each other.

* `Pattern.Partitions`: fixed bits and fields share out the bits of a word.
* `Pattern.encode`: the word with given operands; `Partitions.get?_encode` reads them back.
* `Pattern.Excludes`: no word matches both patterns.
* `Instruction.decode?_unambiguous_lossless`: what follows for the table.
-/

namespace Recompiler

/-! ## Lists with one match -/

section

variable {α : Type} {l : List α} {p : α → Bool}

theorem countP_le_one_of_pairwise (h : l.Pairwise fun a b => ¬(p a = true ∧ p b = true)) :
    l.countP p ≤ 1 := by
  induction l with
  | nil => exact Nat.zero_le 1
  | cons a l ih =>
    obtain ⟨hhead, htail⟩ := List.pairwise_cons.1 h
    by_cases ha : p a = true
    · -- Nothing behind a match matches.
      have hnone : l.countP p = 0 := by
        rw [List.countP_eq_zero]
        intro b hb hpb
        exact hhead b hb ⟨ha, hpb⟩
      simp [ha, hnone]
    · simpa [ha] using ih htail

theorem eq_of_countP_le_one (h : l.countP p ≤ 1) {a b : α} (ha : a ∈ l) (hpa : p a = true)
    (hb : b ∈ l) (hpb : p b = true) : a = b := by
  rw [List.countP_eq_length_filter] at h
  have ha' : a ∈ l.filter p := List.mem_filter.2 ⟨ha, hpa⟩
  have hb' : b ∈ l.filter p := List.mem_filter.2 ⟨hb, hpb⟩
  match hl : l.filter p with
  | [] => simp [hl] at ha'
  | [x] =>
    rw [hl, List.mem_singleton] at ha' hb'
    rw [ha', hb']
  | x :: y :: rest => simp [hl] at h

/-- Of a list with one match at most, the first match is the match. -/
theorem find?_eq_some_iff_of_countP_le_one (h : l.countP p ≤ 1) {a : α} :
    l.find? p = some a ↔ a ∈ l ∧ p a = true := by
  constructor
  · intro hfind
    exact ⟨List.mem_of_find?_eq_some hfind, List.find?_some hfind⟩
  · rintro ⟨ha, hpa⟩
    cases hfind : l.find? p with
    | none => exact absurd hpa (List.find?_eq_none.1 hfind a ha)
    | some b =>
      have hb := eq_of_countP_le_one h ha hpa (List.mem_of_find?_eq_some hfind)
        (List.find?_some hfind)
      rw [hb]

end

namespace Pattern

open Word

/-! ## Patterns that use every bit once -/

/-- The fixed bits and the fields of the pattern share out the bits of a word among them, and every
operand has one field at most. -/
structure Partitions (p : Pattern) : Prop where
  inside : ∀ f ∈ p.fields, f.Inside
  /-- A bit is fixed or belongs to one field, but not both. -/
  once : ∀ i < 32, (hasBit p.mask i).toNat + p.fields.countP (·.covers i) = 1
  /-- The fixed bits stand where the mask says. -/
  masked : p.bits &&& p.mask = p.bits
  operands : (p.fields.map (·.operand)).Nodup

instance (p : Pattern) : Decidable p.Partitions :=
  decidable_of_iff
    ((∀ f ∈ p.fields, f.Inside) ∧
      (∀ i < 32, (hasBit p.mask i).toNat + p.fields.countP (·.covers i) = 1) ∧
      p.bits &&& p.mask = p.bits ∧ (p.fields.map (·.operand)).Nodup)
    ⟨fun h => ⟨h.1, h.2.1, h.2.2.1, h.2.2.2⟩, fun h => ⟨h.inside, h.once, h.masked, h.operands⟩⟩

variable {p : Pattern} {f : Field} {v w word : UInt32} {values : Operand → UInt32}

theorem hasBit_of_accepts (h : p.accepts word = true) {i : Nat} (hi : hasBit p.mask i = true) :
    hasBit word i = hasBit p.bits i := by
  have hbits : word &&& p.mask = p.bits := by simpa [accepts] using h
  rw [← hbits, hasBit_and, hi, Bool.and_true]

namespace Partitions

theorem covers_eq_false (h : p.Partitions) {i : Nat} (hi : i < 32) (hfixed : hasBit p.mask i = true)
    (hf : f ∈ p.fields) : f.covers i = false := by
  have hnone : p.fields.countP (·.covers i) = 0 := by
    have := h.once i hi
    simp only [hfixed, Bool.toNat_true] at this
    omega
  simpa using List.countP_eq_zero.1 hnone f hf

theorem exists_covers (h : p.Partitions) {i : Nat} (hi : i < 32)
    (hfree : hasBit p.mask i = false) : ∃ f ∈ p.fields, f.covers i = true := by
  have hone : p.fields.countP (·.covers i) = 1 := by
    simpa [hfree] using h.once i hi
  apply List.countP_pos_iff.1
  omega

theorem countP_covers_le (h : p.Partitions) {i : Nat} (hi : i < 32) :
    p.fields.countP (·.covers i) ≤ 1 := by
  have := h.once i hi
  omega

/-- Bits that are not fixed are not among the fixed bits. -/
theorem hasBit_bits_of_covers (h : p.Partitions) (hf : f ∈ p.fields) {i : Nat} (hi : i < 32)
    (hcovers : f.covers i = true) : hasBit p.bits i = false := by
  rw [← h.masked, hasBit_and, Bool.and_eq_false_iff]
  right
  by_contra hfixed
  rw [Bool.not_eq_false] at hfixed
  simp [h.covers_eq_false hi hfixed hf] at hcovers

theorem find?_fields (h : p.Partitions) (hf : f ∈ p.fields) :
    p.fields.find? (·.operand == f.operand) = some f := by
  cases hfind : p.fields.find? (·.operand == f.operand) with
  | none => simpa using List.find?_eq_none.1 hfind f hf
  | some g =>
    have hg : g.operand = f.operand := by simpa using List.find?_some hfind
    rw [List.inj_on_of_nodup_map h.operands (List.mem_of_find?_eq_some hfind) hf hg]

theorem get?_of_mem (h : p.Partitions) (hf : f ∈ p.fields) (word : UInt32) :
    p.get? f.operand word = some (f.extract word) := by
  rw [get?, h.find?_fields hf, Option.map_some]

/-- A word that matches is determined by its operands. -/
theorem eq_of_get? (h : p.Partitions) (hv : p.accepts v = true) (hw : p.accepts w = true)
    (hget : ∀ op, p.get? op v = p.get? op w) : v = w := by
  apply eq_of_hasBit
  intro i hi
  by_cases hfixed : hasBit p.mask i = true
  · rw [hasBit_of_accepts hv hfixed, hasBit_of_accepts hw hfixed]
  · obtain ⟨f, hf, hcovers⟩ := h.exists_covers hi (by simpa using hfixed)
    have hsame : f.extract v = f.extract w := by
      have := hget f.operand
      rw [h.get?_of_mem hf, h.get?_of_mem hf] at this
      exact Option.some.inj this
    obtain ⟨hstart, hstop⟩ := Field.covers_iff.1 hcovers
    -- The bit is read as the bit of the operand that lies as far above the start of the field.
    have hread (x : UInt32) : hasBit x i = hasBit (f.extract x) (i - f.shift) := by
      rw [Field.hasBit_extract (h.inside f hf), Nat.add_sub_cancel' hstart,
        decide_eq_true (by omega), Bool.true_and]
    rw [hread v, hread w, hsame]

end Partitions

/-! ## Putting a word together -/

/-- The word that has the fixed bits and in each field the value of its operand. -/
def encode (p : Pattern) (values : Operand → UInt32) : UInt32 :=
  p.fields.foldr (fun f word => values f.operand <<< f.shift.toUInt32 ||| word) p.bits

/-- Every operand that has a field fits into it. -/
def InRange (p : Pattern) (values : Operand → UInt32) : Prop :=
  ∀ f ∈ p.fields, (values f.operand).toNat < 2 ^ f.width

/-- An operand that fits puts its bits where its field is, and nowhere else. -/
theorem hasBit_shifted (hf : f.Inside) (hrange : v.toNat < 2 ^ f.width) (i : Nat) :
    hasBit (v <<< f.shift.toUInt32) i = (f.covers i && hasBit v (i - f.shift)) := by
  obtain ⟨hpos, hstop⟩ := hf
  rw [hasBit_shiftLeft v (by omega)]
  by_cases hcovers : f.covers i = true
  · obtain ⟨hstart, hend⟩ := Field.covers_iff.1 hcovers
    simp [hcovers, hstart, show i < 32 by omega]
  · rw [Bool.eq_false_iff.2 hcovers, Bool.false_and, Bool.and_eq_false_iff]
    rw [Field.covers_iff] at hcovers
    by_cases hstart : f.shift ≤ i
    · exact .inr (hasBit_of_lt hrange (by omega))
    · exact .inl (by simp [hstart])

theorem hasBit_encode (hp : ∀ f ∈ p.fields, f.Inside) (hrange : p.InRange values) (i : Nat) :
    hasBit (p.encode values) i =
      (p.fields.any (fun f => f.covers i && hasBit (values f.operand) (i - f.shift)) ||
        hasBit p.bits i) := by
  obtain ⟨mask, bits, fields⟩ := p
  simp only [encode, InRange] at hp hrange ⊢
  induction fields with
  | nil => simp
  | cons f fields ih =>
    obtain ⟨hf, hfields⟩ := List.forall_mem_cons.1 hp
    obtain ⟨hrange_f, hrange_fields⟩ := List.forall_mem_cons.1 hrange
    rw [List.foldr_cons, hasBit_or, ih hfields hrange_fields, hasBit_shifted hf hrange_f,
      List.any_cons, Bool.or_assoc]

namespace Partitions

/-- In a field there is nothing but its operand. -/
theorem hasBit_encode_of_covers (h : p.Partitions) (hrange : p.InRange values)
    (hf : f ∈ p.fields) {i : Nat} (hi : i < 32) (hcovers : f.covers i = true) :
    hasBit (p.encode values) i = hasBit (values f.operand) (i - f.shift) := by
  rw [hasBit_encode h.inside hrange, h.hasBit_bits_of_covers hf hi hcovers, Bool.or_false,
    Bool.eq_iff_iff, List.any_eq_true]
  constructor
  · -- Any field with a bit there is this one, since only one field covers the place.
    rintro ⟨g, hg, hbit⟩
    rw [Bool.and_eq_true] at hbit
    obtain rfl := eq_of_countP_le_one (h.countP_covers_le hi) hg hbit.1 hf hcovers
    exact hbit.2
  · intro hbit
    exact ⟨f, hf, by simp [hcovers, hbit]⟩

theorem accepts_encode (h : p.Partitions) (hrange : p.InRange values) :
    p.accepts (p.encode values) = true := by
  rw [accepts, beq_iff_eq]
  apply eq_of_hasBit
  intro i hi
  rw [hasBit_and, hasBit_encode h.inside hrange]
  by_cases hfixed : hasBit p.mask i = true
  · -- No field covers a fixed bit, so the operands leave it alone.
    have hnone : p.fields.any
        (fun f => f.covers i && hasBit (values f.operand) (i - f.shift)) = false := by
      rw [List.any_eq_false]
      intro f hf
      simp [h.covers_eq_false hi hfixed hf]
    rw [hnone, hfixed, Bool.false_or, Bool.and_true]
  · have hbits : hasBit p.bits i = false := by
      rw [← h.masked, hasBit_and, Bool.eq_false_iff.2 hfixed, Bool.and_false]
    rw [hbits, Bool.eq_false_iff.2 hfixed, Bool.and_false]

/-- The operands that a word was put together from are read back, and no others. -/
theorem get?_encode (h : p.Partitions) (hrange : p.InRange values) (op : Operand) :
    p.get? op (p.encode values) =
      if op ∈ p.fields.map (·.operand) then some (values op) else none := by
  split
  · next hop =>
    obtain ⟨f, hf, rfl⟩ := List.mem_map.1 hop
    rw [h.get?_of_mem hf]
    congr 1
    apply eq_of_hasBit
    intro i _
    rw [Field.hasBit_extract (h.inside f hf)]
    by_cases hi : i < f.width
    · have hcovers : f.covers (f.shift + i) = true := Field.covers_iff.2 (by omega)
      have := (h.inside f hf).stop_le
      rw [h.hasBit_encode_of_covers hrange hf (by omega) hcovers, decide_eq_true hi, Bool.true_and,
        Nat.add_sub_cancel_left]
    · rw [decide_eq_false hi, Bool.false_and, hasBit_of_lt (hrange f hf) (by omega)]
  · next hop =>
    rw [get?, Option.map_eq_none_iff, List.find?_eq_none]
    intro f hf heq
    rw [beq_iff_eq] at heq
    exact hop (List.mem_map.2 ⟨f, hf, heq⟩)

end Partitions

/-! ## Patterns that exclude each other -/

/-- The patterns differ in a bit that both of them fix. -/
def Excludes (p q : Pattern) : Prop :=
  p.bits &&& q.mask ≠ q.bits &&& p.mask

instance (p q : Pattern) : Decidable (p.Excludes q) :=
  inferInstanceAs (Decidable (_ ≠ _))

theorem Excludes.not_accepts {q : Pattern} (h : p.Excludes q) (hp : p.accepts word = true) :
    ¬q.accepts word = true := by
  intro hq
  rw [accepts, beq_iff_eq] at hp hq
  apply h
  rw [← hp, ← hq, UInt32.and_assoc, UInt32.and_assoc, UInt32.and_comm p.mask]

end Pattern

/-! ## The table -/

namespace Entry

/-- The encoding of every row uses every bit once. -/
theorem partitions_of_mem : ∀ e ∈ table, e.pattern.Partitions := by
  decide +kernel

/-- Any two rows exclude each other. -/
theorem pairwise_excludes : table.Pairwise fun e e' => e.pattern.Excludes e'.pattern := by
  decide +kernel

theorem nodup_mnemonics : (table.map (·.mnemonic)).Nodup := by
  decide +kernel

theorem countP_accepts_le (word : UInt32) : table.countP (·.pattern.accepts word) ≤ 1 :=
  countP_le_one_of_pairwise (pairwise_excludes.imp fun h hboth => h.not_accepts hboth.1 hboth.2)

end Entry

namespace Instruction

theorem decode?_eq_some_iff {word : UInt32} {i : Instruction} :
    decode? word = some i ↔
      i.entry ∈ Entry.table ∧ i.entry.pattern.accepts word = true ∧ i.word = word := by
  rw [decode?, Option.map_eq_some_iff]
  constructor
  · rintro ⟨e, hfind, rfl⟩
    have he := (find?_eq_some_iff_of_countP_le_one (Entry.countP_accepts_le word)).1 hfind
    exact ⟨he.1, he.2, rfl⟩
  · rintro ⟨hmem, haccepts, rfl⟩
    exact ⟨i.entry, (find?_eq_some_iff_of_countP_le_one (Entry.countP_accepts_le i.word)).2
      ⟨hmem, haccepts⟩, rfl⟩

/-- No word matches two rows, and a table with the rows in another order decodes alike. The encoding
of each row uses every bit once. Therefore a word is determined by its mnemonic and its operands,
and every row with operands that fit is the decoding of one word. -/
theorem decode?_unambiguous_lossless :
    (∀ word, Entry.table.countP (·.pattern.accepts word) ≤ 1) ∧
    (∀ rows : List Entry, rows.Perm Entry.table → ∀ word,
      (rows.find? (·.pattern.accepts word)).map (⟨·, word⟩) = decode? word) ∧
    (∀ word i, decode? word = some i → i.entry.pattern.Partitions) ∧
    (∀ v w i j, decode? v = some i → decode? w = some j → i.mnemonic = j.mnemonic →
      (∀ op, i.get? op = j.get? op) → v = w) ∧
    (∀ e ∈ Entry.table, ∀ values, e.pattern.InRange values →
      ∃! word, ∃ i, decode? word = some i ∧ i.entry = e ∧ ∀ op,
        i.get? op = if op ∈ e.pattern.fields.map (·.operand) then some (values op) else none) := by
  refine ⟨Entry.countP_accepts_le, ?_, ?_, ?_, ?_⟩
  · intro rows hperm word
    have hcount : rows.countP (·.pattern.accepts word) ≤ 1 := by
      rw [hperm.countP_eq]
      exact Entry.countP_accepts_le word
    rw [decode?]
    congr 1
    ext e
    rw [find?_eq_some_iff_of_countP_le_one hcount,
      find?_eq_some_iff_of_countP_le_one (Entry.countP_accepts_le word), hperm.mem_iff]
  · intro word i hi
    exact Entry.partitions_of_mem _ (decode?_eq_some_iff.1 hi).1
  · intro v w i j hi hj hmnemonic hget
    obtain ⟨hmem, hv, rfl⟩ := decode?_eq_some_iff.1 hi
    obtain ⟨hmem', hw, rfl⟩ := decode?_eq_some_iff.1 hj
    -- A mnemonic has one row, and a row uses every bit, so that its operands determine the word.
    have hentry : i.entry = j.entry :=
      List.inj_on_of_nodup_map Entry.nodup_mnemonics hmem hmem' hmnemonic
    rw [← hentry] at hw
    refine (Entry.partitions_of_mem _ hmem).eq_of_get? hv hw fun op => ?_
    have := hget op
    rwa [get?, get?, ← hentry] at this
  · intro e he values hrange
    have hparts := Entry.partitions_of_mem e he
    have hencoded : decode? (e.pattern.encode values) = some ⟨e, e.pattern.encode values⟩ :=
      decode?_eq_some_iff.2 ⟨he, hparts.accepts_encode hrange, rfl⟩
    -- Another word that decodes alike has the same operands in the same row, so it is this one.
    refine ⟨e.pattern.encode values, ⟨_, hencoded, rfl, hparts.get?_encode hrange⟩, ?_⟩
    rintro word ⟨i, hi, rfl, hget⟩
    obtain ⟨-, haccepts, rfl⟩ := decode?_eq_some_iff.1 hi
    refine hparts.eq_of_get? haccepts (hparts.accepts_encode hrange) fun op => ?_
    exact (hget op).trans (hparts.get?_encode hrange op).symm

end Instruction

end Recompiler
