import Mathlib.Tactic.IntervalCases
import Recompiler.Text.Numeral
import Recompiler.Text.Radix

/-!
# Numbers from their digits

A number whose digits were written out is read back from them, if it does not pass the limit.

* `Radix.toList_hex`, `Numeral.toList_toString_ofNat`: the characters of a number.
* `Numeral.digits_append`: the value of a run of digits is where the reading of the next run starts.
* `Numeral.natural_toDigits`: natural numbers in a radix.
* `Numeral.integer_toString`: integers in decimal, with the sign that was written.
-/

namespace Recompiler

theorem Radix.toList_hex (n : Nat) : (hex n).toList = '0' :: 'x' :: Nat.toDigits 16 n := by
  rw [hex, padded, String.toList_append, String.toList_ofList, String.toList_ofList,
    Nat.zero_sub, List.replicate_zero, List.nil_append]
  rfl

namespace Numeral

variable {radix limit n d : Nat} {overflow : NumeralError}

/-! ## Characters -/

theorem exists_digitChar_of_mem_toDigits (hr : 1 < radix) {c : Char}
    (hc : c ∈ Nat.toDigits radix n) : ∃ d, c = Nat.digitChar d := by
  induction n using Nat.strongRecOn with
  | ind n ih =>
    by_cases hlt : n < radix
    · rw [Nat.toDigits_of_lt_base hlt, List.mem_singleton] at hc
      exact ⟨n, hc⟩
    · -- The last digit is split off; those in front belong to the quotient.
      rw [Nat.toDigits_of_base_le hr (by omega), List.mem_append, List.mem_singleton] at hc
      obtain hfront | hlast := hc
      · exact ih (n / radix) (Nat.div_lt_self (by omega) hr) hfront
      · exact ⟨n % radix, hlast⟩

theorem notMem_toDigits (hr : 1 < radix) {c : Char} (hc : ∀ d, Nat.digitChar d ≠ c) :
    c ∉ Nat.toDigits radix n := by
  intro hmem
  obtain ⟨d, hd⟩ := exists_digitChar_of_mem_toDigits hr hmem
  exact hc d hd.symm

theorem plus_notMem_toDigits (hr : 1 < radix) : '+' ∉ Nat.toDigits radix n :=
  notMem_toDigits hr fun _ => Nat.digitChar_ne '+' rfl

theorem minus_notMem_toDigits (hr : 1 < radix) : '-' ∉ Nat.toDigits radix n :=
  notMem_toDigits hr fun _ => Nat.digitChar_ne '-' rfl

theorem digit?_digitChar (hr : radix ≤ 16) (hd : d < radix) :
    digit? radix (Nat.digitChar d) = some d := by
  have hd' : d < 16 := Nat.lt_of_lt_of_le hd hr
  -- Letters follow the figures, so that the sixteen digits are looked at one by one.
  interval_cases d <;> simpa [digit?, Nat.digitChar] using hd

theorem toList_toString_ofNat (m : Nat) :
    (toString (Int.ofNat m)).toList = Nat.toDigits 10 m := by
  change m.repr.toList = _
  rw [Nat.repr_eq_ofList_toDigits, String.toList_ofList]

theorem toList_toString_negSucc (m : Nat) :
    (toString (Int.negSucc m)).toList = '-' :: Nat.toDigits 10 (m + 1) := by
  change ("-" ++ (m + 1).repr).toList = _
  rw [Nat.repr_eq_ofList_toDigits, String.toList_append, String.toList_ofList,
    String.toList_ofList, List.singleton_append]

/-- A decimal text consists of digits and the minus. -/
theorem notMem_toString (n : Int) {c : Char} (hminus : c ≠ '-')
    (hc : ∀ d, Nat.digitChar d ≠ c) : c ∉ (toString n).toList := by
  have hdigits (m : Nat) : c ∉ Nat.toDigits 10 m := notMem_toDigits (by decide) hc
  cases n with
  | ofNat m =>
    rw [toList_toString_ofNat]
    exact hdigits m
  | negSucc m =>
    rw [toList_toString_negSucc, List.mem_cons, not_or]
    exact ⟨hminus, hdigits (m + 1)⟩

/-! ## Digits -/

/-- A run of digits goes on with the value of the run before it. -/
theorem digits_append (value : Nat) (cs ds : List Char) :
    digits radix limit overflow value (cs ++ ds) =
      digits radix limit overflow value cs >>= (digits radix limit overflow · ds) := by
  induction cs generalizing value with
  | nil => rfl
  | cons c cs ih =>
    rw [List.cons_append, digits, digits]
    cases digit? radix c with
    | none => rfl
    | some d =>
      by_cases hover : limit < value * radix + d
      · simp only [if_pos hover]
        rfl
      · simp only [if_neg hover]
        exact ih (value * radix + d)

/-- The digits in front spell the quotient by the radix, and the last one is the remainder. -/
theorem digits_toDigits (hr : 1 < radix) (hr' : radix ≤ 16) (hn : n ≤ limit) :
    digits radix limit overflow 0 (Nat.toDigits radix n) = .ok n := by
  induction n using Nat.strongRecOn with
  | ind n ih =>
    by_cases hlt : n < radix
    · rw [Nat.toDigits_of_lt_base hlt]
      simp [digits, digit?_digitChar hr' hlt, hn]
    · have hquotient : n / radix < n := Nat.div_lt_self (by omega) hr
      have hlast : digit? radix (Nat.digitChar (n % radix)) = some (n % radix) :=
        digit?_digitChar hr' (Nat.mod_lt n (by omega))
      have hwhole : n / radix * radix + n % radix = n := Nat.div_add_mod' n radix
      rw [Nat.toDigits_of_base_le hr (by omega), digits_append, ih _ hquotient (by omega)]
      change digits radix limit overflow (n / radix) [Nat.digitChar (n % radix)] = .ok n
      simp [digits, hlast, hwhole, hn]

theorem magnitude_toDigits (hr : 1 < radix) (hr' : radix ≤ 16) (hn : n ≤ limit) :
    magnitude radix limit overflow (Nat.toDigits radix n) = .ok n := by
  rw [magnitude]
  · exact digits_toDigits hr hr' hn
  · exact Nat.toDigits_ne_nil

/-! ## Numbers -/

theorem natural_toDigits (hr : 1 < radix) (hr' : radix ≤ 16) (hn : n ≤ limit) :
    natural radix limit (Nat.toDigits radix n) = .ok n := by
  rw [natural]
  · exact magnitude_toDigits hr hr' hn
  · exact Nat.toDigits_ne_nil
  · intro rest hplus
    exact plus_notMem_toDigits hr (hplus ▸ List.mem_cons_self)

/-- The decimal text of an integer is read back, between the limits and at them. -/
theorem integer_toString {below above : Nat} {n : Int} (hbelow : -(below : Int) ≤ n)
    (habove : n ≤ above) : integer 10 below above (toString n).toList = .ok n := by
  cases n with
  | ofNat m =>
    have hread : magnitude 10 above .tooLarge (Nat.toDigits 10 m) = .ok m :=
      magnitude_toDigits (by decide) (by decide) (Int.ofNat_le.1 habove)
    rw [toList_toString_ofNat, integer, hread]
    · rfl
    · exact Nat.toDigits_ne_nil
    · intro rest hminus
      exact minus_notMem_toDigits (by decide) (hminus ▸ List.mem_cons_self)
    · intro rest hplus
      exact plus_notMem_toDigits (by decide) (hplus ▸ List.mem_cons_self)
  | negSucc m =>
    have hread : magnitude 10 below .tooSmall (Nat.toDigits 10 (m + 1)) = .ok (m + 1) :=
      magnitude_toDigits (by decide) (by decide) (by omega)
    rw [toList_toString_negSucc, integer, hread]
    rfl

end Numeral

end Recompiler
