import Recompiler.Code.Assembly

/-!
# Words and their bytes

* `Word.ofBytes_bytes`, `Word.ofBytes64_bytes64`: a word is made up of its bytes.
* `Word.toInt_eq`: the signed value of a word.
* `toInt_jumpDistance`: the distance of a jump inside two gibibytes of code.
-/

namespace Recompiler

theorem UInt32.toNat_add_of_lt {a b : UInt32} (h : a.toNat + b.toNat < 0x100000000) :
    (a + b).toNat = a.toNat + b.toNat := by
  rw [UInt32.toNat_add, Nat.mod_eq_of_lt h]

namespace Word

/-- Bytes in front of others count least. -/
theorem toNat_ofBytes_cons (b : UInt8) (rest : List UInt8)
    (h : (ofBytes rest).toNat < 0x1000000) :
    (ofBytes (b :: rest)).toNat = b.toNat + 256 * (ofBytes rest).toNat := by
  have hb := b.toNat_lt
  have hshift : (ofBytes rest <<< 8).toNat = 2 ^ 8 * (ofBytes rest).toNat := by
    rw [UInt32.toNat_shiftLeft, Nat.shiftLeft_eq]
    change _ * 2 ^ 8 % 2 ^ 32 = _
    omega
  rw [ofBytes, UInt32.toNat_or, hshift, UInt8.toNat_toUInt32, Nat.or_comm,
    ← Nat.two_pow_add_eq_or_of_lt hb]
  omega

/-- The value of a word by its bytes. -/
theorem toNat_eq_bytes (w : UInt32) :
    w.toNat = w.toUInt8.toNat + 256 * ((w >>> 8).toUInt8.toNat +
      256 * ((w >>> 16).toUInt8.toNat + 256 * (w >>> 24).toUInt8.toNat)) := by
  have hw := w.toNat_lt
  have hbyte (n : UInt32) : (w >>> n).toUInt8.toNat = w.toNat / 2 ^ (n.toNat % 32) % 256 := by
    rw [UInt32.toNat_toUInt8, UInt32.toNat_shiftRight, Nat.shiftRight_eq_div_pow]
  have h0 : w.toUInt8.toNat = w.toNat % 256 := UInt32.toNat_toUInt8 w
  have h8 : (w >>> 8).toUInt8.toNat = w.toNat / 2 ^ 8 % 256 := hbyte 8
  have h16 : (w >>> 16).toUInt8.toNat = w.toNat / 2 ^ 16 % 256 := hbyte 16
  have h24 : (w >>> 24).toUInt8.toNat = w.toNat / 2 ^ 24 % 256 := hbyte 24
  omega

theorem ofBytes_bytes (w : UInt32) : ofBytes (bytes w) = w := by
  have hw := toNat_eq_bytes w
  have h8 := (w >>> 8).toUInt8.toNat_lt
  have h16 := (w >>> 16).toUInt8.toNat_lt
  have h24 := (w >>> 24).toUInt8.toNat_lt
  -- The bytes are put together from the last one on.
  have hnil : (ofBytes []).toNat = 0 := rfl
  have hone := toNat_ofBytes_cons (w >>> 24).toUInt8 [] (by omega)
  have htwo := toNat_ofBytes_cons (w >>> 16).toUInt8 [(w >>> 24).toUInt8] (by omega)
  have hthree := toNat_ofBytes_cons (w >>> 8).toUInt8
    [(w >>> 16).toUInt8, (w >>> 24).toUInt8] (by omega)
  have hfour := toNat_ofBytes_cons w.toUInt8
    [(w >>> 8).toUInt8, (w >>> 16).toUInt8, (w >>> 24).toUInt8] (by omega)
  apply UInt32.toNat_inj.1
  rw [bytes]
  omega

/-- Bytes in front of others count least. -/
theorem toNat_ofBytes64_cons (b : UInt8) (rest : List UInt8)
    (h : (ofBytes64 rest).toNat < 0x100000000000000) :
    (ofBytes64 (b :: rest)).toNat = b.toNat + 256 * (ofBytes64 rest).toNat := by
  have hb := b.toNat_lt
  have hshift : (ofBytes64 rest <<< 8).toNat = 2 ^ 8 * (ofBytes64 rest).toNat := by
    rw [UInt64.toNat_shiftLeft, Nat.shiftLeft_eq]
    change _ * 2 ^ 8 % 2 ^ 64 = _
    omega
  rw [ofBytes64, UInt64.toNat_or, hshift, UInt8.toNat_toUInt64, Nat.or_comm,
    ← Nat.two_pow_add_eq_or_of_lt hb]
  omega

/-- The lower bytes of a double word count least. -/
theorem toNat_ofBytes64_append (w : UInt32) (rest : List UInt8)
    (h : (ofBytes64 rest).toNat < 0x100000000) :
    (ofBytes64 (bytes w ++ rest)).toNat = w.toNat + 0x100000000 * (ofBytes64 rest).toNat := by
  have hw := toNat_eq_bytes w
  have h8 := (w >>> 8).toUInt8.toNat_lt
  have h16 := (w >>> 16).toUInt8.toNat_lt
  have h24 := (w >>> 24).toUInt8.toNat_lt
  have hone := toNat_ofBytes64_cons (w >>> 24).toUInt8 rest (by omega)
  have htwo := toNat_ofBytes64_cons (w >>> 16).toUInt8 ((w >>> 24).toUInt8 :: rest) (by omega)
  have hthree := toNat_ofBytes64_cons (w >>> 8).toUInt8
    ((w >>> 16).toUInt8 :: (w >>> 24).toUInt8 :: rest) (by omega)
  have hfour := toNat_ofBytes64_cons w.toUInt8
    ((w >>> 8).toUInt8 :: (w >>> 16).toUInt8 :: (w >>> 24).toUInt8 :: rest) (by omega)
  simp only [bytes, List.cons_append, List.nil_append]
  omega

theorem ofBytes64_bytes64 (w : UInt64) : ofBytes64 (bytes64 w) = w := by
  have hw := w.toNat_lt
  have hlow : w.toUInt32.toNat = w.toNat % 2 ^ 32 := UInt64.toNat_toUInt32 w
  have hhigh : (w >>> 32).toUInt32.toNat = w.toNat / 2 ^ 32 := by
    rw [UInt64.toNat_toUInt32, UInt64.toNat_shiftRight, Nat.shiftRight_eq_div_pow]
    change w.toNat / 2 ^ 32 % 2 ^ 32 = _
    omega
  have hnil : (ofBytes64 []).toNat = 0 := rfl
  have htop := toNat_ofBytes64_append (w >>> 32).toUInt32 [] (by omega)
  rw [List.append_nil] at htop
  have hall := toNat_ofBytes64_append w.toUInt32 (bytes (w >>> 32).toUInt32) (by omega)
  apply UInt64.toNat_inj.1
  rw [bytes64]
  omega

/-- The value of a word as a signed number, by its value as an unsigned one. -/
theorem toInt_eq (w : UInt32) : toInt w = (w.toNat : Int).bmod 0x100000000 := by
  rw [toInt, Int32.toInt, UInt32.toInt32, BitVec.toInt_eq_toNat_bmod]
  rfl

theorem lessSigned_eq_decide (a b : UInt32) : lessSigned a b = decide (toInt a < toInt b) :=
  decide_eq_decide.mpr Int32.lt_iff_toInt_lt

theorem toInt_of_lt {w : UInt32} (h : w.toNat < 0x80000000) : toInt w = w.toNat := by
  rw [toInt_eq, Int.bmod_def]
  omega

/-- Taking a small amount off a number that is not negative does not overflow. -/
theorem toInt_sub {a b : UInt32} (ha : 0 ≤ toInt a) (hb : b.toNat < 0x80000000) :
    toInt (a - b) = toInt a - b.toNat := by
  have hlt := a.toNat_lt
  rw [toInt_eq, Int.bmod_def] at ha ⊢
  rw [toInt_eq, Int.bmod_def, UInt32.toNat_sub]
  omega

/-- A word widened to 64 bits with its sign. -/
theorem toNat_signExtend (w : UInt32) :
    w.toInt32.toInt64.toUInt64.toNat =
      w.toNat + if w.toNat < 0x80000000 then 0 else 0xFFFFFFFF00000000 := by
  have hbits : w.toInt32.toInt64.toUInt64.toBitVec = w.toBitVec.signExtend 64 := rfl
  have hmsb : w.toBitVec.msb = decide (0x80000000 ≤ w.toNat) := BitVec.msb_eq_decide _
  have hlt := w.toNat_lt
  rw [← UInt64.toNat_toBitVec, hbits, BitVec.toNat_signExtend, BitVec.toNat_setWidth, hmsb,
    UInt32.toNat_toBitVec]
  by_cases hsign : w.toNat < 0x80000000
  · rw [if_pos hsign, decide_eq_false (by omega)]
    change w.toNat % 2 ^ 64 + 0 = _
    omega
  · rw [if_neg hsign, decide_eq_true (by omega)]
    change w.toNat % 2 ^ 64 + (2 ^ 64 - 2 ^ 32) = _
    omega

end Word

theorem toNat_toUInt64 {n : Nat} (h : n < UInt64.size) : n.toUInt64.toNat = n :=
  UInt64.toNat_ofNat_of_lt' h

/-- A jump to its own end covers no distance. -/
theorem jumpDistance_self (stop : Nat) : jumpDistance stop stop = 0 := by
  simp [jumpDistance]

/-- A jump of less than two gibibytes covers its distance. -/
theorem toInt_jumpDistance {target stop : Nat} (h : target < stop + 0x80000000)
    (h' : stop ≤ target + 0x80000000) :
    (stop : Int) + Word.toInt (jumpDistance target stop) = target := by
  have htarget : target.toUInt64.toNat = target % 2 ^ 64 := rfl
  have hstop : stop.toUInt64.toNat = stop % 2 ^ 64 := rfl
  rw [Word.toInt_eq, jumpDistance, UInt64.toNat_toUInt32, UInt64.toNat_sub, htarget, hstop,
    Int.bmod]
  split <;> omega

end Recompiler
