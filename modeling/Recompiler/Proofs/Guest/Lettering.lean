import Mathlib.Data.List.SplitBy
import Mathlib.Data.List.TakeWhile
import Recompiler.Proofs.Guest.Fields

/-!
# Encodings written as text

What the text of an encoding means. Blanks apart, each of its 32 characters stands for a bit, the
first one for the most significant. A digit is a fixed bit, a letter a bit of the operand it names,
and neighbouring bits of one operand are one field.

* `Pattern.letters`, `Pattern.WellFormed`: the characters of a text, and when they make an encoding.
* `Pattern.firstRun`: the bits that stand under the first run of a letter.
* `runs_induction`: induction over the runs of equal elements of a list.
* `Pattern.ofText_spells`: which texts are read, and what the pattern accepts and returns.
-/

namespace Recompiler

/-! ## Runs of equal elements -/

section Runs

variable {α : Type} [DecidableEq α]

/-- A list is built up from runs of equal elements, each as long as it can be. -/
@[elab_as_elim]
theorem runs_induction {motive : List α → Prop} (nil : motive [])
    (run : ∀ (a : α) (n : Nat) (rest : List α), rest.head? ≠ some a → motive rest →
      motive (List.replicate (n + 1) a ++ rest)) (l : List α) : motive l := by
  induction hlength : l.length using Nat.strongRecOn generalizing l with
  | ind length ih =>
    cases l with
    | nil => exact nil
    | cons a l =>
      have hsplit : a :: l = List.replicate ((l.takeWhile (· == a)).length + 1) a ++
          l.dropWhile (· == a) := by
        have hrun : l.takeWhile (· == a) = List.replicate (l.takeWhile (· == a)).length a := by
          rw [List.eq_replicate_iff]
          refine ⟨rfl, fun b hb => ?_⟩
          simpa using List.mem_takeWhile_imp hb
        rw [List.replicate_succ, List.cons_append, ← hrun, List.takeWhile_append_dropWhile]
      have hhead : (l.dropWhile (· == a)).head? ≠ some a := by
        intro h
        have := List.head?_dropWhile_not (· == a) l
        rw [h] at this
        simp at this
      rw [hsplit]
      refine run a _ _ hhead (ih _ ?_ _ rfl)
      have hle := (List.dropWhile_suffix (l := l) (· == a)).length_le
      simp only [List.length_cons] at hlength
      omega

/-- The first run of a list is split off whole. -/
theorem splitBy_run {a : α} {n : Nat} {rest : List α} (h : rest.head? ≠ some a) :
    (List.replicate (n + 1) a ++ rest).splitBy (· == ·) =
      List.replicate (n + 1) a :: rest.splitBy (· == ·) := by
  rw [List.splitBy_append, List.splitBy_of_isChain]
  · rfl
  · simp
  · simp [List.isChain_replicate_of_rel]
  · intro x hx y hy
    rw [List.getLast?_replicate] at hx
    simp only [Nat.add_eq_zero_iff, Nat.one_ne_zero, and_false, ↓reduceIte, Option.mem_def,
      Option.some.injEq] at hx
    subst hx
    rw [beq_eq_false_iff_ne]
    rintro rfl
    exact h hy

end Runs

/-! ## Words from the most significant bit down -/

namespace Word

/-- The low `n` bits of a word, most significant first. -/
def bitsDown (word : UInt32) (n : Nat) : List Bool :=
  (List.range n).map fun i => hasBit word (n - 1 - i)

/-- The number that bits form, most significant first. -/
def ofBits (bits : List Bool) : Nat :=
  bits.foldl (fun n b => 2 * n + b.toNat) 0

@[simp] theorem length_bitsDown (word : UInt32) (n : Nat) : (bitsDown word n).length = n := by
  simp [bitsDown]

/-- The first bits of a longer list. -/
theorem take_bitsDown (word : UInt32) (m k : Nat) :
    (bitsDown word (m + k)).take m =
      (List.range m).map fun i => hasBit word (m + k - 1 - i) := by
  simp [bitsDown, ← List.map_take, List.take_range]

theorem drop_bitsDown (word : UInt32) (m k : Nat) :
    (bitsDown word (m + k)).drop m = bitsDown word k := by
  apply List.ext_getElem
  · simp
  · intro i hi hi'
    simp only [bitsDown, List.getElem_drop, List.getElem_map, List.getElem_range]
    congr 1
    omega

theorem ofBits_concat (bits : List Bool) (b : Bool) :
    ofBits (bits ++ [b]) = 2 * ofBits bits + b.toNat := by
  simp [ofBits]

/-- The first `m` of `m + k` bits form the number that is left when `k` bits are shifted out. -/
theorem ofBits_take_bitsDown (word : UInt32) (m k : Nat) :
    ofBits ((bitsDown word (m + k)).take m) = word.toNat >>> k % 2 ^ m := by
  rw [take_bitsDown]
  induction m generalizing k with
  | zero => simp [ofBits, Nat.mod_one]
  | succ m ih =>
    -- The last bit is the lowest; the bits before it are those of the list that is one longer
    -- below.
    have hinit : (List.range m).map (fun i => hasBit word (m + 1 + k - 1 - i)) =
        (List.range m).map (fun i => hasBit word (m + (k + 1) - 1 - i)) := by
      rw [show m + 1 + k = m + (k + 1) by omega]
    have hlast : hasBit word (m + 1 + k - 1 - m) = (word.toNat >>> k).testBit 0 := by
      rw [show m + 1 + k - 1 - m = k by omega, Nat.testBit_shiftRight, Nat.add_zero]
      rfl
    rw [List.range_succ, List.map_append, List.map_singleton, ofBits_concat, hinit, ih, hlast,
      Nat.shiftRight_succ, Nat.testBit_zero, Nat.pow_succ']
    generalize word.toNat >>> k = x
    have hbit : (decide (x % 2 = 1)).toNat = x % 2 := by
      rcases Nat.mod_two_eq_zero_or_one x with h | h <;> simp [h]
    rw [hbit, Nat.mod_mul]
    omega

end Word

/-! ## The characters of a text -/

namespace Operand

/-- The byte of the letter of an operand. -/
def code (op : Operand) : UInt8 :=
  op.letter.toNat.toUInt8

theorem ofLetter_eq_ok_iff {c : UInt8} {op : Operand} :
    ofLetter (Char.ofNat c.toNat) = .ok op ↔ c = op.code := by
  constructor
  · intro h
    unfold ofLetter at h
    split at h
    · next op' hfind =>
      obtain rfl := Except.ok.inj h
      have hletter : op'.letter = Char.ofNat c.toNat := by simpa using List.find?_some hfind
      have hvalid : c.toNat.isValidChar := .inl (Nat.lt_trans c.toNat_lt (by decide))
      have hnumber : (Char.ofNat c.toNat).toNat = c.toNat := by
        rw [Char.ofNat, dif_pos hvalid]
        exact UInt32.toNat_ofNatLT ..
      rw [code, hletter, hnumber]
      exact UInt8.ofNat_toNat.symm
    · cases h
  · rintro rfl
    have hletter : Char.ofNat op.code.toNat = op.letter := by cases op <;> rfl
    rw [hletter, ofLetter_letter]

end Operand

namespace Piece

/-- The character is one that the text of an encoding may have. -/
def Legal (c : UInt8) : Prop :=
  c = 0x30 ∨ c = 0x31 ∨ ∃ op : Operand, c = op.code

/-- The pieces that characters spell, up to the first one that is not legal. -/
def spell : List UInt8 → List Piece
  | [] => []
  | c :: rest =>
    if c = 0x30 then .fixed 1 0 :: spell rest
    else if c = 0x31 then .fixed 1 1 :: spell rest
    else
      match Operand.ofLetter (Char.ofNat c.toNat) with
      | .ok op => grow op (spell rest)
      | .error _ => []

/-- The number of runs of letters that begin in a text, after the character `previous`. -/
def begun (previous : UInt8) : List UInt8 → Nat
  | [] => 0
  | c :: rest => (if c = 0x30 ∨ c = 0x31 ∨ c = previous then 0 else 1) + begun c rest

theorem map_eq_ok_iff {ε α γ : Type} {f : α → γ} {x : Except ε α} {c : γ} :
    f <$> x = .ok c ↔ ∃ a, x = .ok a ∧ f a = c := by
  cases x <;> simp [Functor.map, Except.map]

/-- Blanks are skipped. -/
theorem parseFrom_filter (left fields : Nat) (previous : UInt8) (text : List UInt8) :
    parseFrom left fields previous (text.filter (· != 0x20)) =
      parseFrom left fields previous text := by
  induction text generalizing left fields previous with
  | nil => rfl
  | cons c rest ih =>
    by_cases hblank : c = 0x20
    · simp [hblank, parseFrom, ih]
    · simp [hblank, parseFrom, ih]

/-- A text without blanks is read when it has as many characters as there are bits left, all of them
legal, and not too many runs of letters; what is read is what it spells. -/
theorem parseFrom_eq_ok_iff {left fields : Nat} {previous : UInt8} {text : List UInt8}
    {pieces : List Piece} (hblank : 0x20 ∉ text) (hfields : fields ≤ maxFields) :
    parseFrom left fields previous text = .ok pieces ↔
      text.length = left ∧ (∀ c ∈ text, Legal c) ∧ fields + begun previous text ≤ maxFields ∧
        pieces = spell text := by
  -- Read from the front: each character ends the text, is one of the two digits, or is a letter.
  induction text generalizing left fields previous pieces with
  | nil =>
    simp only [parseFrom]
    split
    · next hleft => simp [hleft, begun, spell, hfields, eq_comm]
    · next hleft => simp [Ne.symm hleft]
  | cons c rest ih =>
    obtain ⟨hc, hrest⟩ := not_or.1 (mt List.mem_cons.2 hblank)
    rw [parseFrom, if_neg (Ne.symm hc)]
    by_cases hleft : left = 0
    · simp [hleft]
    have hlength : (c :: rest).length = left ↔ rest.length = left - 1 := by
      rw [List.length_cons]
      omega
    rw [if_neg hleft, hlength, List.forall_mem_cons]
    -- Whatever the character adds to the pieces, the rest is read as the induction says.
    have hmore {fields : Nat} (hfields : fields ≤ maxFields) (add : List Piece → List Piece) :
        (∃ rest', parseFrom (left - 1) fields c rest = .ok rest' ∧ add rest' = pieces) ↔
          rest.length = left - 1 ∧ (∀ c ∈ rest, Legal c) ∧ fields + begun c rest ≤ maxFields ∧
            pieces = add (spell rest) := by
      constructor
      · rintro ⟨rest', hrest', rfl⟩
        obtain ⟨hlength, hlegal, hruns, rfl⟩ := (ih hrest hfields).1 hrest'
        exact ⟨hlength, hlegal, hruns, rfl⟩
      · rintro ⟨hlength, hlegal, hruns, rfl⟩
        exact ⟨_, (ih hrest hfields).2 ⟨hlength, hlegal, hruns, rfl⟩, rfl⟩
    by_cases hzero : c = 0x30
    · rw [if_pos hzero, map_eq_ok_iff, hmore hfields]
      simp [hzero, Legal, begun, spell]
    by_cases hone : c = 0x31
    · rw [if_neg hzero, if_pos hone, map_eq_ok_iff, hmore hfields]
      simp [hone, Legal, begun, spell]
    rw [if_neg hzero, if_neg hone]
    by_cases hfull : c ≠ previous ∧ maxFields ≤ fields
    · -- One run too many begins here.
      have hmany : ¬fields + begun previous (c :: rest) ≤ maxFields := by
        simp only [begun, hzero, hone, hfull.1, or_self, if_false]
        omega
      rw [if_pos hfull]
      simp [hmany]
    rw [if_neg hfull]
    cases hletter : Operand.ofLetter (Char.ofNat c.toNat) with
    | error breach =>
      have hillegal : ¬Legal c := by
        rintro (h | h | ⟨op, h⟩)
        · exact hzero h
        · exact hone h
        · rw [Operand.ofLetter_eq_ok_iff.2 h] at hletter
          cases hletter
      simp [hillegal, bind, Except.bind]
    | ok op =>
      -- A letter begins a run unless it repeats the character in front of it.
      have hlegal : Legal c := .inr (.inr ⟨op, Operand.ofLetter_eq_ok_iff.1 hletter⟩)
      let met := if c = previous then fields else fields + 1
      have hmet : met ≤ maxFields := by
        simp only [met]
        split
        · exact hfields
        · next hnew => exact Nat.lt_of_not_le fun hle => hfull ⟨hnew, hle⟩
      have hruns : fields + begun previous (c :: rest) = met + begun c rest := by
        by_cases hsame : c = previous
        · simp [begun, met, hsame]
        · simp only [begun, met, hzero, hone, hsame, or_self, if_false]
          omega
      change (parseFrom (left - 1) met c rest >>= fun rest' => pure (grow op rest')) = _ ↔ _
      rw [bind_pure_comp, map_eq_ok_iff, hmore hmet, hruns]
      simp [hlegal, spell, hzero, hone, hletter]

/-- A text is read when it has 32 characters besides blanks, all of them legal, with six runs of
letters at most; what is read is what they spell. -/
theorem parse_eq_ok_iff {text : List UInt8} {pieces : List Piece} :
    parse text = .ok pieces ↔
      let letters := text.filter (· != 0x20)
      letters.length = 32 ∧ (∀ c ∈ letters, Legal c) ∧ begun 0x20 letters ≤ maxFields ∧
        pieces = spell letters := by
  rw [parse, ← parseFrom_filter, parseFrom_eq_ok_iff (by simp) (Nat.zero_le _), Nat.zero_add]

/-! ### Runs of letters -/

/-- The longest runs of equal letters, digits left out. -/
def letterRuns (text : List UInt8) : List (List UInt8) :=
  (text.splitBy (· == ·)).filter fun run => run.all fun c => c != 0x30 && c != 0x31

theorem begun_replicate {previous c : UInt8} (hc : c ≠ previous) (n : Nat) (rest : List UInt8) :
    begun previous (List.replicate (n + 1) c ++ rest) =
      (if c = 0x30 ∨ c = 0x31 then 0 else 1) + begun c rest := by
  have hsame : ∀ n, begun c (List.replicate n c ++ rest) = begun c rest := by
    intro n
    induction n with
    | zero => rfl
    | succ n ih => simp [List.replicate_succ, begun, ih]
  rw [List.replicate_succ, List.cons_append, begun, hsame]
  simp [hc]

theorem letterRuns_replicate {c : UInt8} {n : Nat} {rest : List UInt8}
    (hrest : rest.head? ≠ some c) :
    letterRuns (List.replicate (n + 1) c ++ rest) =
      if c = 0x30 ∨ c = 0x31 then letterRuns rest
      else List.replicate (n + 1) c :: letterRuns rest := by
  rw [letterRuns, splitBy_run hrest, List.filter_cons]
  by_cases hdigit : c = 0x30 ∨ c = 0x31
  · rw [if_pos hdigit, if_neg]
    · rfl
    · rcases hdigit with rfl | rfl <;> simp
  · rw [if_neg hdigit, if_pos]
    · rfl
    · simpa using hdigit

/-- Runs are counted where they begin. -/
theorem begun_eq_length_letterRuns {previous : UInt8} {text : List UInt8}
    (h : text.head? ≠ some previous) : begun previous text = (letterRuns text).length := by
  induction text using runs_induction generalizing previous with
  | nil => rfl
  | run c n rest hrest ih =>
    have hc : c ≠ previous := by simpa [List.replicate_succ] using h
    rw [begun_replicate hc, ih hrest, letterRuns_replicate hrest]
    split
    · exact Nat.zero_add _
    · rw [List.length_cons, Nat.add_comm]

/-! ### What a run of letters spells -/

theorem grow_of_ne {op : Operand} {pieces : List Piece}
    (h : ∀ width rest, pieces ≠ .field op width :: rest) :
    grow op pieces = .field op 1 :: pieces := by
  unfold grow
  split
  · next op' width rest =>
    rw [if_neg]
    rintro rfl
    exact h width rest rfl
  · rfl

theorem grow_ne {op op' : Operand} (hop : op' ≠ op) (pieces : List Piece) (width : Nat)
    (rest : List Piece) : grow op' pieces ≠ .field op width :: rest := by
  unfold grow
  split
  · split <;> simp [hop]
  · simp [hop]

theorem spell_code (op : Operand) (rest : List UInt8) :
    spell (op.code :: rest) = grow op (spell rest) := by
  rw [spell, if_neg (by cases op <;> decide), if_neg (by cases op <;> decide),
    Operand.ofLetter_eq_ok_iff.2 rfl]

/-- What does not begin with the letter of an operand does not spell a field of it. -/
theorem spell_ne {op : Operand} {text : List UInt8} (h : text.head? ≠ some op.code) (width : Nat)
    (rest : List Piece) : spell text ≠ .field op width :: rest := by
  cases text with
  | nil => simp [spell]
  | cons c text =>
    unfold spell
    split
    · simp
    split
    · simp
    split
    · next op' hletter =>
      apply grow_ne
      rintro rfl
      exact h (by rw [Operand.ofLetter_eq_ok_iff.1 hletter, List.head?_cons])
    · simp

/-- A run of one letter spells one field. -/
theorem spell_replicate {op : Operand} {rest : List UInt8} (hrest : rest.head? ≠ some op.code)
    (n : Nat) :
    spell (List.replicate (n + 1) op.code ++ rest) = .field op (n + 1) :: spell rest := by
  induction n with
  | zero =>
    rw [List.replicate_one, List.singleton_append, spell_code]
    exact grow_of_ne (spell_ne hrest)
  | succ n ih =>
    rw [List.replicate_succ, List.cons_append, spell_code, ih, grow, if_pos rfl]

/-- The digit of a fixed bit. -/
def digit (b : Bool) : UInt8 :=
  if b then 0x31 else 0x30

/-- Texts of digits and of runs of one letter, each run as long as it can be. -/
inductive Spelling : List UInt8 → Prop
  | nil : Spelling []
  | digit (b : Bool) {rest : List UInt8} (hrest : Spelling rest) : Spelling (digit b :: rest)
  | run (op : Operand) (n : Nat) {rest : List UInt8} (hhead : rest.head? ≠ some op.code)
      (hrest : Spelling rest) : Spelling (List.replicate (n + 1) op.code ++ rest)

/-- Every legal text is such a text. -/
theorem Spelling.of_legal {text : List UInt8} (h : ∀ c ∈ text, Legal c) : Spelling text := by
  -- Runs of digits are spelled digit by digit, runs of letters at once.
  have hdigits (b : Bool) {rest : List UInt8} (hrest : Spelling rest) (n : Nat) :
      Spelling (List.replicate n (Piece.digit b) ++ rest) := by
    induction n with
    | zero => exact hrest
    | succ n ih => exact .digit b ih
  induction text using runs_induction with
  | nil => exact .nil
  | run c n rest hrest ih =>
    have hspelling := ih fun c hc => h c (List.mem_append_right _ hc)
    rcases h c (by simp) with rfl | rfl | ⟨op, rfl⟩
    · exact hdigits false hspelling (n + 1)
    · exact hdigits true hspelling (n + 1)
    · exact .run op n hrest hspelling

end Piece

namespace Pattern

open Word Piece

/-! ## What a pattern read from a text means -/

/-- The pattern of the encoding that a text describes. -/
def ofText (text : List UInt8) : Except Breach Pattern :=
  ofPieces <$> Piece.parse text

/-- The pattern that characters spell, for the low bits of a word. -/
def spelled (text : List UInt8) : Pattern :=
  ofPiecesFrom text.length (spell text)

theorem spelled_digit (b : Bool) (rest : List UInt8) :
    spelled (digit b :: rest) =
      { spelled rest with
        mask := (spelled rest).mask ||| 1 <<< rest.length.toUInt32
        bits := (spelled rest).bits ||| (if b then 1 else 0) <<< rest.length.toUInt32 } := by
  cases b <;> rfl

theorem spelled_run {op : Operand} {rest : List UInt8} (hrest : rest.head? ≠ some op.code)
    (n : Nat) :
    spelled (List.replicate (n + 1) op.code ++ rest) =
      { spelled rest with fields := ⟨op, rest.length, n + 1⟩ :: (spelled rest).fields } := by
  have hlength : (List.replicate (n + 1) op.code ++ rest).length = rest.length + (n + 1) := by
    rw [List.length_append, List.length_replicate, Nat.add_comm]
  rw [spelled, spell_replicate hrest, ofPiecesFrom, hlength, Nat.add_sub_cancel]
  rfl

theorem hasBit_one_shiftLeft {k : Nat} (hk : k < 32) (i : Nat) :
    hasBit (1 <<< k.toUInt32) i = decide (i = k) := by
  have hone : hasBit 1 (i - k) = decide (i - k < 1) :=
    hasBit_ones Nat.zero_lt_one (Nat.le_of_ble_eq_true rfl) (i - k)
  rw [hasBit_shiftLeft _ hk, hone, ← Bool.decide_and, decide_eq_decide]
  omega

theorem code_ne_digit (op : Operand) (b : Bool) : op.code ≠ digit b := by
  cases op <;> cases b <;> decide

/-- The fixed bits are the digits, the last one lowest. -/
theorem hasBit_spelled {text : List UInt8} (h : Spelling text) (hlength : text.length ≤ 32)
    (i : Nat) :
    hasBit (spelled text).mask i = decide (∃ b, text.reverse[i]? = some (digit b)) ∧
      hasBit (spelled text).bits i = decide (text.reverse[i]? = some (digit true)) := by
  induction h with
  | nil => simp [spelled, ofPiecesFrom, spell]
  | @digit b rest hrest ih =>
    rw [List.length_cons] at hlength
    obtain ⟨hmask, hbits⟩ := ih (by omega)
    have hone := hasBit_one_shiftLeft (k := rest.length) (by omega) i
    have hdigit : hasBit ((if b then 1 else 0) <<< rest.length.toUInt32) i =
        (b && decide (i = rest.length)) := by
      cases b
      · simp
      · exact hone
    rw [spelled_digit, hasBit_or, hasBit_or, hmask, hbits, hone, hdigit, List.reverse_cons,
      List.getElem?_append, List.length_reverse]
    -- Counted from the end, the new digit is behind all the others.
    by_cases hi : i < rest.length
    · simp [hi, hi.ne]
    · by_cases heq : i = rest.length
      · cases b <;> simp [heq, digit]
      · have hnone' : [digit b][i - rest.length]? = none := by
          simp only [List.getElem?_eq_none_iff, List.length_singleton]
          omega
        simp [hi, hnone', heq]
  | @run op n rest hhead hrest ih =>
    rw [List.length_append] at hlength
    obtain ⟨hmask, hbits⟩ := ih (by omega)
    rw [spelled_run hhead, hmask, hbits, List.reverse_append, List.reverse_replicate,
      List.getElem?_append, List.length_reverse]
    by_cases hi : i < rest.length
    · simp [hi]
    · simp [hi, List.getElem?_replicate, code_ne_digit]

/-- The pattern of a text accepts the words that have its digits. -/
theorem accepts_spelled_iff {text : List UInt8} (h : Spelling text) (hlength : text.length ≤ 32)
    (word : UInt32) :
    (spelled text).accepts word = true ↔
      ∀ i < 32, ∀ b, text.reverse[i]? = some (digit b) → hasBit word i = b := by
  rw [accepts, beq_iff_eq]
  constructor
  · intro hword i _ b hb
    obtain ⟨hmask, hbits⟩ := hasBit_spelled h hlength i
    rw [decide_eq_true ⟨b, hb⟩] at hmask
    rw [← hword, hasBit_and, hmask, Bool.and_true, hb] at hbits
    rw [hbits]
    cases b <;> simp [digit]
  · intro hdigits
    apply eq_of_hasBit
    intro i hi
    obtain ⟨hmask, hbits⟩ := hasBit_spelled h hlength i
    rw [hasBit_and, hmask, hbits]
    by_cases hdigit : ∃ b, text.reverse[i]? = some (digit b)
    · obtain ⟨b, hb⟩ := hdigit
      rw [hdigits i hi b hb, hb]
      cases b <;> simp [digit]
    · have htrue : ¬text.reverse[i]? = some (digit true) := fun htrue => hdigit ⟨true, htrue⟩
      simp [hdigit, htrue]

/-! ### The first run of a letter -/

/-- The bits that stand under the first run of a letter, of bits that each stand under a
character. -/
def firstRun (letter : UInt8) (text : List UInt8) (bits : List Bool) : List Bool :=
  (((text.zip bits).dropWhile (·.1 != letter)).takeWhile (·.1 == letter)).map (·.2)

/-- Other characters in front are passed over. -/
theorem firstRun_skip {letter c : UInt8} (hc : c ≠ letter) {n : Nat} (rest : List UInt8)
    {bits : List Bool} (hbits : n ≤ bits.length) :
    firstRun letter (List.replicate n c ++ rest) bits = firstRun letter rest (bits.drop n) := by
  induction n generalizing bits with
  | zero => rfl
  | succ n ih =>
    cases bits with
    | nil => simp at hbits
    | cons b bits =>
      have hskip : firstRun letter (List.replicate (n + 1) c ++ rest) (b :: bits) =
          firstRun letter (List.replicate n c ++ rest) bits := by
        simp [firstRun, List.replicate_succ, hc]
      rw [hskip, ih (by simpa using hbits), List.drop_succ_cons]

/-- The run ends where another character follows. -/
theorem takeWhile_run {letter : UInt8} {rest : List UInt8} (hrest : rest.head? ≠ some letter)
    (n : Nat) (bits : List Bool) :
    (((List.replicate n letter ++ rest).zip bits).takeWhile (·.1 == letter)).map (·.2) =
      bits.take n := by
  induction n generalizing bits with
  | zero =>
    rcases rest with _ | ⟨c, rest⟩ <;> rcases bits with _ | ⟨b, bits⟩
    · rfl
    · rfl
    · rfl
    · have hc : c ≠ letter := by simpa using hrest
      simp [hc]
  | succ n ih =>
    cases bits with
    | nil => rfl
    | cons b bits => simp [List.replicate_succ, ih]

theorem firstRun_run {letter : UInt8} {rest : List UInt8} (hrest : rest.head? ≠ some letter)
    (n : Nat) (bits : List Bool) :
    firstRun letter (List.replicate (n + 1) letter ++ rest) bits = bits.take (n + 1) := by
  have hfront : ((List.replicate (n + 1) letter ++ rest).zip bits).dropWhile (·.1 != letter) =
      (List.replicate (n + 1) letter ++ rest).zip bits := by
    cases bits with
    | nil => simp
    | cons b bits => simp [List.replicate_succ]
  rw [firstRun, hfront, takeWhile_run hrest]

/-- Characters in front are passed over together with their bits. -/
theorem firstRun_bitsDown {letter c : UInt8} (hc : c ≠ letter) (n : Nat) (rest : List UInt8)
    (word : UInt32) :
    firstRun letter (List.replicate n c ++ rest)
        (bitsDown word (List.replicate n c ++ rest).length) =
      firstRun letter rest (bitsDown word rest.length) := by
  rw [List.length_append, List.length_replicate, firstRun_skip hc rest (by simp), drop_bitsDown]

/-- An operand is read from the first run of its letter. -/
theorem get?_spelled {text : List UInt8} (h : Spelling text) (hlength : text.length ≤ 32)
    (op : Operand) (word : UInt32) :
    ((spelled text).get? op word).map UInt32.toNat =
      if op.code ∈ text then
        some (ofBits (firstRun op.code text (bitsDown word text.length)))
      else none := by
  induction h with
  | nil => simp [spelled, ofPiecesFrom, spell, get?]
  | @digit b rest hrest ih =>
    rw [List.length_cons] at hlength
    have hget : (spelled (digit b :: rest)).get? op word = (spelled rest).get? op word := by
      rw [spelled_digit]
      rfl
    have hskip := firstRun_bitsDown (code_ne_digit op b).symm 1 rest word
    rw [List.replicate_one, List.singleton_append] at hskip
    rw [hget, ih (by omega), hskip]
    simp [code_ne_digit]
  | @run op' n rest hhead hrest ih =>
    rw [List.length_append, List.length_replicate] at hlength
    rw [spelled_run hhead, get?, List.find?_cons]
    -- The run is the first one of its letter, and for other letters it is passed over.
    by_cases hop : op' = op
    · subst hop
      have hstop : rest.length + (n + 1) ≤ 32 := by omega
      have hinside : Field.Inside ⟨op', rest.length, n + 1⟩ := ⟨Nat.succ_pos n, hstop⟩
      have hmem : op'.code ∈ List.replicate (n + 1) op'.code ++ rest := by simp
      rw [beq_self_eq_true, if_pos hmem, firstRun_run hhead, List.length_append,
        List.length_replicate, ofBits_take_bitsDown, ← Field.toNat_extract hinside]
      rfl
    · have hcode : op'.code ≠ op.code := by
        intro hcode
        have hletter := Operand.ofLetter_eq_ok_iff.2 hcode
        rw [Operand.ofLetter_eq_ok_iff.2 rfl] at hletter
        exact hop (Except.ok.inj hletter)
      have hmem : op.code ∈ List.replicate (n + 1) op'.code ++ rest ↔ op.code ∈ rest := by
        simp [hcode.symm]
      rw [beq_eq_false_iff_ne.2 hop, firstRun_bitsDown hcode, if_congr hmem rfl rfl]
      exact ih (by omega)

/-! ### All together -/

/-- The characters of a text, one for each bit of a word. -/
def letters (text : List UInt8) : List UInt8 :=
  text.filter (· != 0x20)

/-- The characters describe an encoding: a digit or the letter of an operand for each of the 32
bits, with six runs of equal letters at most. -/
structure WellFormed (letters : List UInt8) : Prop where
  length : letters.length = 32
  legal : ∀ c ∈ letters, Legal c
  runs : (letterRuns letters).length ≤ 6

theorem ofText_eq_ok_iff {text : List UInt8} {p : Pattern} :
    ofText text = .ok p ↔ WellFormed (letters text) ∧ p = spelled (letters text) := by
  have hruns : begun 0x20 (letters text) = (letterRuns (letters text)).length := by
    apply begun_eq_length_letterRuns
    intro hhead
    have := List.mem_of_mem_head? hhead
    simp [letters] at this
  rw [ofText, map_eq_ok_iff]
  constructor
  · rintro ⟨pieces, hparse, rfl⟩
    obtain ⟨hlength, hlegal, hbegun, rfl⟩ := parse_eq_ok_iff.1 hparse
    exact ⟨⟨hlength, hlegal, hruns ▸ hbegun⟩, by rw [spelled, letters, hlength]; rfl⟩
  · rintro ⟨⟨hlength, hlegal, hbegun⟩, rfl⟩
    refine ⟨_, parse_eq_ok_iff.2 ⟨hlength, hlegal, ?_, rfl⟩, by rw [spelled, hlength]; rfl⟩
    exact Nat.le_trans (Nat.le_of_eq hruns) hbegun

/-- The digits of a text of 32 characters, counted from its end or from its start. -/
theorem digits_iff {letters : List UInt8} (hlength : letters.length = 32) (word : UInt32) :
    (∀ i < 32, ∀ b, letters.reverse[i]? = some (digit b) → hasBit word i = b) ↔
      ∀ i < 32, (letters[i]? = some 0x30 → hasBit word (31 - i) = false) ∧
        (letters[i]? = some 0x31 → hasBit word (31 - i) = true) := by
  have hplace {i : Nat} (hi : i < 32) : letters.reverse[31 - i]? = letters[i]? := by
    rw [List.getElem?_reverse (by omega), hlength]
    congr 1
    omega
  constructor
  · intro h i hi
    have hdigit := h (31 - i) (by omega)
    rw [hplace hi] at hdigit
    exact ⟨hdigit false, hdigit true⟩
  · intro h i hi b
    have hdigit := h (31 - i) (by omega)
    rw [← hplace (by omega), show 31 - (31 - i) = i by omega] at hdigit
    cases b
    · exact hdigit.1
    · exact hdigit.2

/-- Blanks left out, a text is read exactly if it has 32 characters that are digits or letters of
operands, with six runs of equal letters at most, and else refused. The pattern accepts the words
that have every digit at its place, the first one standing for bit 31; and an operand is the number
that the bits of the first run of its letter form, the most significant first. -/
theorem ofText_spells (text : List UInt8) :
    ((∃ p, ofText text = .ok p) ↔ WellFormed (letters text)) ∧
    ((∃ breach, ofText text = .error breach) ↔ ¬WellFormed (letters text)) ∧
    ∀ p, ofText text = .ok p →
      (∀ word, p.accepts word = true ↔ ∀ i < 32,
        ((letters text)[i]? = some 0x30 → hasBit word (31 - i) = false) ∧
        ((letters text)[i]? = some 0x31 → hasBit word (31 - i) = true)) ∧
      ∀ op word, (p.get? op word).map UInt32.toNat =
        if op.code ∈ letters text then
          some (ofBits (firstRun op.code (letters text) (bitsDown word 32)))
        else none := by
  have hread : (∃ p, ofText text = .ok p) ↔ WellFormed (letters text) := by
    simp [ofText_eq_ok_iff]
  refine ⟨hread, ?_, ?_⟩
  · rw [← hread]
    cases ofText text <;> simp
  · intro p hp
    obtain ⟨⟨hlength, hlegal, -⟩, rfl⟩ := ofText_eq_ok_iff.1 hp
    have hspelling := Spelling.of_legal hlegal
    refine ⟨fun word => ?_, fun op word => ?_⟩
    · rw [accepts_spelled_iff hspelling hlength.le, digits_iff hlength]
    · rw [get?_spelled hspelling hlength.le, hlength]

end Pattern

end Recompiler
