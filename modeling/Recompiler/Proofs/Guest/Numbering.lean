import Mathlib.Tactic.ByContra
import Recompiler.Guest.Register

/-!
# Numbers of registers

Which integers name a register, for both kinds of registers and all types of integers. Only the low
byte of an integer is looked up. So the integers of one byte match the registers, while every wider
type has integers that name a register without being its number.

* `RegisterFile`: the registers of a kind, with their numbers and the conversion from integers.
* `RegisterFile.getElem?_all_iff`: the numbers are the places in the list of registers.
* `RegisterFile.LooksUpLowByte`: what the conversion answers, told by the low byte.
* `IntegerType`: the types of integers, by the values they have.
* `RegisterFile.Matches`: the registers and the integers of a type name each other.
* `registers_match_bytes`: both kinds of registers match the integers of one byte, and no others.
-/

namespace Recompiler

/-! ## Register files -/

/-- The registers of a kind, each of which has a number of its own. -/
structure RegisterFile (ρ : Type) where
  /-- The registers in order of their numbers. -/
  all : List ρ
  number : ρ → Nat
  ofInt : Int → Except InvalidRegister ρ
  numbered : all.map number = List.range all.length
  complete : ∀ r, r ∈ all
  ofInt_eq : ∀ value, ofInt value =
    match all[registerNumber value]? with
    | some r => .ok r
    | none => .error ⟨value⟩
  /-- There is a register, and no number of a register is longer than a byte. -/
  count_bounds : 0 < all.length ∧ all.length ≤ 256

/-- The general purpose registers. -/
def GeneralRegister.file : RegisterFile GeneralRegister where
  all := all
  number := number
  ofInt := ofInt
  numbered := by decide
  complete r := List.mem_of_getElem? (ofNumber?_number r)
  ofInt_eq value := by
    rw [ofInt, ofNumber?]
    cases all[registerNumber value]? <;> rfl
  count_bounds := by decide

/-- The special registers. -/
def SpecialRegister.file : RegisterFile SpecialRegister where
  all := all
  number := number
  ofInt := ofInt
  numbered := by decide
  complete r := List.mem_of_getElem? (ofNumber?_number r)
  ofInt_eq value := by
    rw [ofInt, ofNumber?]
    cases all[registerNumber value]? <;> rfl
  count_bounds := by decide

theorem natCast_registerNumber (value : Int) : (registerNumber value : Int) = value % 256 :=
  Int.toNat_of_nonneg (Int.emod_nonneg value (by decide))

/-- The types of integers that registers are converted from and to. -/
inductive IntegerType where
  /-- Eight bits. -/
  | byte
  /-- Sixteen bits. -/
  | half
  /-- Thirty-two bits. -/
  | word
  /-- Thirty-two bits, of which one is a sign. -/
  | signedWord
  /-- Sixty-four bits. -/
  | doubleWord
  deriving DecidableEq, Repr

namespace IntegerType

/-- The least value of a type. -/
def least : IntegerType → Int
  | signedWord => -0x80000000
  | byte | half | word | doubleWord => 0

/-- The number behind the greatest value of a type. -/
def bound : IntegerType → Int
  | byte => 0x100
  | half => 0x10000
  | word => 0x100000000
  | signedWord => 0x80000000
  | doubleWord => 0x10000000000000000

/-- The integer is a value of the type. -/
def Has (t : IntegerType) (value : Int) : Prop :=
  t.least ≤ value ∧ value < t.bound

variable {t : IntegerType} {value : Int}

/-- Every type has the values of a byte. -/
theorem has_of_lt (h : 0 ≤ value) (h' : value < 256) : t.Has value := by
  cases t <;> simp only [Has, least, bound] <;> omega

/-- Only the smallest type ends with the values of a byte. -/
theorem has_byteSize_iff : t.Has 256 ↔ t ≠ byte := by
  cases t <;> simp [Has, least, bound]

end IntegerType

namespace RegisterFile

variable {ρ : Type} (f : RegisterFile ρ)

/-- The number of registers. -/
def count : Nat :=
  f.all.length

/-- The number of a register is its place in the list. -/
theorem getElem?_all_iff {n : Nat} {r : ρ} : f.all[n]? = some r ↔ f.number r = n := by
  have hplace {i : Nat} (h : f.all[i]? = some r) : f.number r = i := by
    have hnumber : (f.all.map f.number)[i]? = some (f.number r) := by
      rw [List.getElem?_map, h, Option.map_some]
    rw [f.numbered] at hnumber
    obtain ⟨hi, heq⟩ := List.getElem?_eq_some_iff.1 hnumber
    rw [← heq, List.getElem_range]
  constructor
  · exact hplace
  · -- The register stands somewhere, and that is where its number says.
    intro hn
    obtain ⟨i, hi⟩ := List.getElem?_of_mem (f.complete r)
    rwa [← hn, hplace hi]

/-- An integer names the register whose number is its low byte. Without such a register the whole
integer is refused. The number of a register is a value of every type of integers. -/
structure LooksUpLowByte : Prop where
  ok_iff : ∀ value r, f.ofInt value = .ok r ↔ (f.number r : Int) = value % 256
  error_iff : ∀ value e, f.ofInt value = .error e ↔ f.count ≤ value % 256 ∧ e = ⟨value⟩
  number_has : ∀ (t : IntegerType) r, t.Has (f.number r)

/-- The registers and the integers of a type name each other: an integer names a register if it is
the number of one, and the number of the register is the integer again. -/
structure Matches (t : IntegerType) : Prop where
  succeeds_iff : ∀ value, t.Has value → ((∃ r, f.ofInt value = .ok r) ↔ 0 ≤ value ∧ value < f.count)
  number_of_ok : ∀ value r, t.Has value → f.ofInt value = .ok r → (f.number r : Int) = value
  injective : ∀ v w r, t.Has v → t.Has w → f.ofInt v = .ok r → f.ofInt w = .ok r → v = w

theorem number_lt (r : ρ) : f.number r < f.count := by
  obtain ⟨hlt, -⟩ := List.getElem?_eq_some_iff.1 (f.getElem?_all_iff.2 (rfl : f.number r = _))
  exact hlt

theorem ofInt_eq_ok_iff {value : Int} {r : ρ} :
    f.ofInt value = .ok r ↔ (f.number r : Int) = value % 256 := by
  rw [← natCast_registerNumber, Int.natCast_inj, ← f.getElem?_all_iff, f.ofInt_eq]
  cases f.all[registerNumber value]? with
  | none => simp
  | some s => simp

theorem ofInt_eq_error_iff {value : Int} {e : InvalidRegister} :
    f.ofInt value = .error e ↔ f.count ≤ value % 256 ∧ e = ⟨value⟩ := by
  rw [← natCast_registerNumber, Int.ofNat_le, count, ← List.getElem?_eq_none_iff, f.ofInt_eq]
  cases f.all[registerNumber value]? with
  | none => simp [eq_comm]
  | some s => simp

theorem looksUpLowByte : f.LooksUpLowByte where
  ok_iff _ _ := f.ofInt_eq_ok_iff
  error_iff _ _ := f.ofInt_eq_error_iff
  number_has t r := by
    have hlt := f.number_lt r
    have hcount := f.count_bounds.2
    apply IntegerType.has_of_lt
    · exact Int.natCast_nonneg _
    · rw [count] at hlt
      omega

/-- An integer names a register exactly if its low byte is below the number of registers. -/
theorem exists_ofInt_eq_ok_iff {value : Int} :
    (∃ r, f.ofInt value = .ok r) ↔ value % 256 < f.count := by
  constructor
  · rintro ⟨r, h⟩
    rw [← f.ofInt_eq_ok_iff.1 h]
    exact Int.ofNat_lt.2 (f.number_lt r)
  · intro h
    cases hof : f.ofInt value with
    | ok r => exact ⟨r, rfl⟩
    | error e =>
      have := (f.ofInt_eq_error_iff.1 hof).1
      omega

/-- The integers of one byte are their own low bytes. The next integer is in every other type, and
it names register zero. -/
theorem matches_iff {t : IntegerType} : f.Matches t ↔ t = .byte := by
  constructor
  · intro h
    by_contra hne
    have hwide : t.Has 256 := IntegerType.has_byteSize_iff.2 hne
    have hnamed : ∃ r, f.ofInt 256 = .ok r :=
      f.exists_ofInt_eq_ok_iff.2 (Int.ofNat_lt.2 f.count_bounds.1)
    have hsmall : (256 : Int) < f.count := ((h.succeeds_iff 256 hwide).1 hnamed).2
    have hcount := f.count_bounds.2
    rw [count] at hsmall
    omega
  · rintro rfl
    have hlow {value : Int} (h : IntegerType.byte.Has value) : value % 256 = value :=
      Int.emod_eq_of_lt h.1 h.2
    refine ⟨fun value h => ?_, fun value r h hr => ?_, fun v w r hv hw hr hr' => ?_⟩
    · rw [f.exists_ofInt_eq_ok_iff, hlow h]
      exact (and_iff_right h.1).symm
    · rw [f.ofInt_eq_ok_iff.1 hr, hlow h]
    · have hv' := f.ofInt_eq_ok_iff.1 hr
      have hw' := f.ofInt_eq_ok_iff.1 hr'
      rw [← hlow hv, ← hv', hw', hlow hw]

end RegisterFile

/-- For both kinds of registers, an integer of any type names the register whose number is its low
byte, if there is one. The registers therefore match the integers of one byte, and of no other
type. -/
theorem registers_match_bytes (t : IntegerType) :
    (GeneralRegister.file.LooksUpLowByte ∧ (GeneralRegister.file.Matches t ↔ t = .byte)) ∧
    (SpecialRegister.file.LooksUpLowByte ∧ (SpecialRegister.file.Matches t ↔ t = .byte)) :=
  ⟨⟨GeneralRegister.file.looksUpLowByte, GeneralRegister.file.matches_iff⟩,
    ⟨SpecialRegister.file.looksUpLowByte, SpecialRegister.file.matches_iff⟩⟩

/-- The integer behind the greatest byte names the first register. -/
example : GeneralRegister.ofInt 256 = .ok .zero ∧ SpecialRegister.ofInt (-256) = .ok .hi :=
  ⟨rfl, rfl⟩

end Recompiler
