import Mathlib.Data.List.TakeDrop
import Recompiler.Guest.Mnemonic
import Recompiler.Guest.Register
import Recompiler.Proofs.Text.Digits

/-!
# Lines of assembly

What the text of a guest instruction says, apart from the way it is written: a mnemonic and its
operands. A line is read back from its text.

* `Line.Constant`, `Line.Term`, `Line`: numbers, operands and lines.
* `Line.text`: how a line is written. The line `Line.nop` has a name of its own.
* `Line.read`: reading a line.
* `Line.read_text`: reading undoes writing, for every line.
-/

namespace Recompiler

/-! ## Lists of characters -/

section

variable {α : Type} {p : α → Bool} {xs : List α}

/-- A list is split where the first element stands that does not satisfy the predicate. -/
theorem span_append (hx : ∀ a ∈ xs, p a = true) (ys : List α)
    (hy : ∀ a ∈ ys.head?, p a = false) : (xs ++ ys).span p = (xs, ys) := by
  rw [List.span_eq_takeWhile_dropWhile, List.takeWhile_append_of_pos hx,
    List.dropWhile_append_of_pos hx]
  cases ys with
  | nil => simp
  | cons a ys => simp [hy a rfl]

theorem span_eq_self (hx : ∀ a ∈ xs, p a = true) : xs.span p = (xs, []) := by
  have hspan := span_append hx [] (by simp)
  rwa [List.append_nil] at hspan

theorem filter_intercalate (p : α → Bool) (sep : List α) (ls : List (List α)) :
    (sep.intercalate ls).filter p = (sep.filter p).intercalate (ls.map (List.filter p)) := by
  induction ls with
  | nil => simp
  | cons l ls ih =>
    -- The separator stands only before a further list.
    cases ls with
    | nil => simp
    | cons l' ls =>
      rw [List.intercalate_cons_cons, List.filter_append, List.filter_append, ih, List.map_cons,
        List.map_cons, List.map_cons, List.intercalate_cons_cons]

end

theorem bne_of_notMem {c : Char} {cs : List Char} (h : c ∉ cs) : ∀ d ∈ cs, (d != c) = true := by
  intro d hd
  have hne : d ≠ c := fun heq => h (heq ▸ hd)
  simpa using hne

theorem toList_pushn (s : String) (c : Char) (n : Nat) :
    (s.pushn c n).toList = s.toList ++ List.replicate n c := by
  rw [String.pushn_eq_repeat_push]
  induction n with
  | zero => simp [Nat.repeat]
  | succ n ih => simp [Nat.repeat, ih, List.replicate_succ']

/-! ## Lines -/

/-- A number as it is written. -/
inductive Line.Constant where
  /-- Decimal, with a minus in front if it is negative. -/
  | decimal (n : Int16)
  /-- Hexadecimal with its mark. -/
  | hexadecimal (n : UInt32)
  deriving DecidableEq

/-- An operand as it is written. -/
inductive Line.Term where
  | register (r : GeneralRegister)
  | constant (n : Constant)
  /-- An offset before its base. -/
  | address (offset : Constant) (base : GeneralRegister)
  deriving DecidableEq

/-- A line of assembly. -/
structure Line where
  mnemonic : Mnemonic
  terms : List Line.Term
  deriving DecidableEq

namespace Line

/-- The text of a number. -/
def Constant.text : Constant → String
  | decimal n => toString n.toInt
  | hexadecimal n => Radix.hex n.toNat

/-- The text of an operand. -/
def Term.text : Term → String
  | register r => r.name
  | constant n => n.text
  | address offset base => offset.text ++ "(" ++ base.name ++ ")"

/-- The line that has a name of its own. -/
def nop : Line :=
  ⟨.sll, [.register .zero, .register .zero, .constant (.hexadecimal 0)]⟩

/-- The text of a line. -/
def text (l : Line) : String :=
  if l = nop then "nop"
  else match l.terms.map Term.text with
    | [] => l.mnemonic.name
    | texts => l.mnemonic.name.pushn ' ' (8 - l.mnemonic.name.length) ++ ", ".intercalate texts

/-! ## Reading -/

/-- Reads a number. -/
def Constant.read : List Char → Option Constant
  | '0' :: 'x' :: digits =>
    (fun n : Nat => hexadecimal n.toUInt32) <$> (Numeral.natural 16 0xFFFFFFFF digits).toOption
  | cs => (fun n : Int => decimal (Int16.ofInt n)) <$> (Numeral.integer 10 32768 32767 cs).toOption

/-- The register with a name. -/
def readRegister (cs : List Char) : Option GeneralRegister :=
  GeneralRegister.all.find? (·.name.toList == cs)

/-- Reads an operand. -/
def Term.read (cs : List Char) : Option Term :=
  match cs.span (· != '(') with
  | (front, []) => constant <$> Constant.read front <|> register <$> readRegister front
  | (front, _ :: back) =>
    if back.getLast? = some ')' then
      address <$> Constant.read front <*> readRegister back.dropLast
    else none

/-- The texts of the operands behind a mnemonic, which commas separate. -/
def pieces (cs : List Char) : List (List Char) :=
  if cs = [] then [] else (cs.filter (· != ' ')).splitOn ','

/-- Reads a line. -/
def read (s : String) : Option Line :=
  match s.toList.span (· != ' ') with
  | (name, rest) =>
    match Mnemonic.ofName? (String.ofList name) with
    | some m => (⟨m, ·⟩) <$> (pieces rest).mapM Term.read
    | none => if s = "nop" then some nop else none

/-! ## Characters -/

/-- The characters between the parts of a line. -/
def separators : List Char :=
  [' ', ',', '(', ')']

theorem forall_mem_separators {p : Char → Prop} (h : p ' ' ∧ p ',' ∧ p '(' ∧ p ')') :
    ∀ c ∈ separators, p c := by
  simpa [separators] using h

theorem digitChar_ne_separator : ∀ c ∈ separators, ∀ d, Nat.digitChar d ≠ c := by
  apply forall_mem_separators
  exact ⟨fun _ => Nat.digitChar_ne ' ' rfl, fun _ => Nat.digitChar_ne ',' rfl,
    fun _ => Nat.digitChar_ne '(' rfl, fun _ => Nat.digitChar_ne ')' rfl⟩

theorem notMem_mnemonic (m : Mnemonic) : ∀ c ∈ separators, c ∉ m.name.toList := by
  apply forall_mem_separators
  cases m <;> decide

theorem notMem_register (r : GeneralRegister) : ∀ c ∈ separators, c ∉ r.name.toList := by
  apply forall_mem_separators
  cases r <;> decide

theorem Constant.notMem_text (n : Constant) : ∀ c ∈ separators, c ∉ n.text.toList := by
  intro c hc
  have hdigit := digitChar_ne_separator c hc
  have hne {d : Char} (hd : d ∉ separators) : c ≠ d := fun heq => hd (heq ▸ hc)
  cases n with
  | decimal n => exact Numeral.notMem_toString n.toInt (hne (by decide)) hdigit
  | hexadecimal n =>
    rw [text, Radix.toList_hex, List.mem_cons, List.mem_cons, not_or, not_or]
    exact ⟨hne (by decide), hne (by decide), Numeral.notMem_toDigits (by decide) hdigit⟩

/-- An operand may have parentheses, but nothing that stands between operands. -/
theorem Term.notMem_text (t : Term) {c : Char} (hc : c ∈ separators) (hopen : c ≠ '(')
    (hclose : c ≠ ')') : c ∉ t.text.toList := by
  cases t with
  | register r => exact notMem_register r c hc
  | constant n => exact n.notMem_text c hc
  | address n r =>
    simp [text, n.notMem_text c hc, notMem_register r c hc, hopen, hclose]

/-! ## Reading what was written -/

theorem Constant.read_text (n : Constant) : read n.text.toList = some n := by
  cases n with
  | decimal n =>
    have hbelow : -((32768 : Nat) : Int) ≤ n.toInt := n.le_toInt
    have habove : n.toInt ≤ (32767 : Nat) := Int.le_of_lt_add_one n.toInt_lt
    rw [text, read]
    · rw [Numeral.integer_toString hbelow habove]
      simp [Except.toOption]
    · -- There is no mark in a decimal text.
      intro digits hmark
      have hx : 'x' ∉ (toString n.toInt).toList :=
        Numeral.notMem_toString _ (by decide) fun _ => Nat.digitChar_ne 'x' rfl
      rw [hmark] at hx
      simp at hx
  | hexadecimal n =>
    have hlimit : n.toNat ≤ 0xFFFFFFFF := Nat.le_of_lt_succ n.toNat_lt
    rw [text, Radix.toList_hex, read, Numeral.natural_toDigits (by decide) (by decide) hlimit]
    simp [Except.toOption]

theorem readRegister_name (r : GeneralRegister) : readRegister r.name.toList = some r := by
  cases r <;> decide

/-- The name of a register is no number. -/
theorem Constant.read_name (r : GeneralRegister) : read r.name.toList = none := by
  cases r <;> decide

theorem Term.read_text (t : Term) : read t.text.toList = some t := by
  have hplain {cs : List Char} (h : ∀ c ∈ separators, c ∉ cs) : ∀ c ∈ cs, (c != '(') = true :=
    bne_of_notMem (h '(' (by decide))
  cases t with
  | register r =>
    rw [text, read, span_eq_self (hplain (notMem_register r))]
    simp [Constant.read_name, readRegister_name]
  | constant n =>
    rw [text, read, span_eq_self (hplain n.notMem_text)]
    simp [Constant.read_text]
  | address n r =>
    have htext : (address n r).text.toList =
        n.text.toList ++ '(' :: (r.name.toList ++ [')']) := by
      simp [text]
    rw [htext, read, span_append (hplain n.notMem_text) _ (by simp)]
    simp [Constant.read_text, readRegister_name]

theorem mapM_read_texts (ts : List Term) :
    (ts.map (·.text.toList)).mapM Term.read = some ts := by
  induction ts with
  | nil => rfl
  | cons t ts ih => simp [t.read_text, ih]

/-- The texts of operands are found again behind any number of blanks. -/
theorem pieces_texts {n : Nat} (hn : 0 < n) (ts : List Term) (hts : ts ≠ []) :
    pieces (List.replicate n ' ' ++ ", ".toList.intercalate (ts.map (·.text.toList))) =
      ts.map (·.text.toList) := by
  have hblank : (ts.map (·.text.toList)).map (List.filter (· != ' ')) =
      ts.map (·.text.toList) := by
    rw [List.map_map, List.map_inj_left]
    intro t _
    rw [Function.comp_apply, List.filter_eq_self]
    exact bne_of_notMem (t.notMem_text (by decide) (by decide) (by decide))
  have hcomma : ∀ cs ∈ ts.map (·.text.toList), ',' ∉ cs := by
    intro cs hcs
    obtain ⟨t, -, rfl⟩ := List.mem_map.1 hcs
    exact t.notMem_text (by decide) (by decide) (by decide)
  -- Without the blanks, the operands are separated by commas alone, which can be split again.
  have hseparator : ", ".toList.filter (· != ' ') = [','] := by decide
  rw [pieces, if_neg, List.filter_append, filter_intercalate, hblank, hseparator,
    List.filter_eq_nil_iff.2, List.nil_append, List.splitOn_intercalate ',' hcomma]
  · simpa using hts
  · simp
  · simp [Nat.ne_of_gt hn]

/-- Behind the mnemonic, a line goes on with a blank if it has operands, and ends if not. -/
theorem exists_toList_text {l : Line} (h : l ≠ nop) :
    ∃ rest, l.text.toList = l.mnemonic.name.toList ++ rest ∧
      (∀ c ∈ rest.head?, (c != ' ') = false) ∧ pieces rest = l.terms.map (·.text.toList) := by
  obtain ⟨m, ts⟩ := l
  cases ts with
  | nil =>
    refine ⟨[], ?_, by simp, rfl⟩
    simp [text, h]
  | cons t ts =>
    -- Every name is shorter than the column it is written in, so that one blank follows at least.
    have hwidth : 0 < 8 - m.name.length := by
      cases m <;> decide
    refine ⟨_, ?_, ?_, pieces_texts hwidth (t :: ts) (by simp)⟩
    · rw [text, if_neg h]
      simp [toList_pushn, String.toList_intercalate]
      rfl
    · obtain ⟨n, hn⟩ := Nat.exists_eq_add_of_lt hwidth
      simp [hn, List.replicate_succ]

theorem ofName?_name (m : Mnemonic) : Mnemonic.ofName? m.name = some m := by
  cases m <;> rfl

/-- What was written is read back, for any operands behind any mnemonic. -/
theorem read_text (l : Line) : read l.text = some l := by
  by_cases h : l = nop
  · -- No mnemonic has the name of this line.
    rw [h]
    decide
  · obtain ⟨rest, htext, hrest, hpieces⟩ := exists_toList_text h
    have hname : ∀ c ∈ l.mnemonic.name.toList, (c != ' ') = true :=
      bne_of_notMem (notMem_mnemonic l.mnemonic ' ' (by decide))
    rw [read, htext, span_append hname rest hrest]
    simp only [String.ofList_toList, ofName?_name, hpieces, mapM_read_texts]
    rfl

end Line

end Recompiler
