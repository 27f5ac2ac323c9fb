import AvroCodec.Wire.Fixed
import Mathlib.Data.Nat.Bitwise
import Mathlib.Tactic.Linarith
import Mathlib.Tactic.Ring

/-!
# Integers in two's complement

An integer that a number of bytes has room for is read back from them. More bytes than it needs repeat its
sign. The bits of a negative number can be had by complementing those of a number that is one less, up to any
width that holds them, and setting all bits above.
-/

namespace AvroCodec.Wire

variable {n count : Nat}

/-! ### Numbers of bytes -/

theorem pow_256_eq (count : Nat) : 256 ^ count = 2 ^ (8 * count) := by
  rw [show (256 : Nat) = 2 ^ 8 from rfl, ← pow_mul]

theorem bitLength_le_iff {k : Nat} : bitLength n ≤ k ↔ n < 2 ^ k := by
  unfold bitLength
  by_cases hn : n = 0
  · simp [hn]
  · rw [if_neg hn, Nat.succ_le_iff, Nat.log2_lt hn]

theorem lt_two_pow_bitLength (n : Nat) : n < 2 ^ bitLength n := bitLength_le_iff.1 le_rfl

theorem lt_two_pow_leastBits (n : Nat) : 2 * n < 256 ^ ((bitLength n + 8) / 8) := by
  have hroom : bitLength n + 1 ≤ 8 * ((bitLength n + 8) / 8) := by omega
  rw [pow_256_eq]
  calc 2 * n < 2 * 2 ^ bitLength n := by have := lt_two_pow_bitLength n; omega
    _ = 2 ^ (bitLength n + 1) := by ring
    _ ≤ 2 ^ (8 * ((bitLength n + 8) / 8)) := Nat.pow_le_pow_right (by decide) hroom

theorem littleEndian_mod (count n : Nat) : littleEndian count (n % 256 ^ count) = littleEndian count n := by
  induction count generalizing n with
  | zero => rfl
  | succ count ih =>
    have hlow : n % 256 ^ (count + 1) % 256 = n % 256 := by
      rw [pow_succ', Nat.mod_mul_right_mod]
    have hhigh : n % 256 ^ (count + 1) / 256 = n / 256 % 256 ^ count := by
      rw [pow_succ', Nat.mod_mul_right_div_self]
    rw [littleEndian, littleEndian, hlow, hhigh, ih]

theorem littleEndian_add (low high n : Nat) :
    littleEndian (low + high) n = littleEndian low n ++ littleEndian high (n / 256 ^ low) := by
  induction low generalizing n with
  | zero => simp [littleEndian]
  | succ low ih =>
    rw [Nat.succ_add, littleEndian, ih, Nat.div_div_eq_div_mul, littleEndian, pow_succ', List.cons_append]

theorem length_bigEndian (count n : Nat) : (bigEndian count n).length = count := by
  rw [bigEndian, List.length_reverse, length_littleEndian]

theorem bigEndian_mod (count n : Nat) : bigEndian count (n % 256 ^ count) = bigEndian count n := by
  rw [bigEndian, littleEndian_mod, bigEndian]

theorem bigEndian_add (high low n : Nat) :
    bigEndian (high + low) n = bigEndian high (n / 256 ^ low) ++ bigEndian low n := by
  rw [Nat.add_comm, bigEndian, littleEndian_add, List.reverse_append, bigEndian, bigEndian]

theorem ofBigEndian_bigEndian (h : n < 256 ^ count) : ofBigEndian (bigEndian count n) = n := by
  rw [ofBigEndian, bigEndian, List.reverse_reverse]
  exact ofLittleEndian_littleEndian count n h

theorem littleEndian_zero (count : Nat) : littleEndian count 0 = List.replicate count 0 := by
  induction count with
  | zero => rfl
  | succ count ih => rw [littleEndian, Nat.zero_div, ih, List.replicate_succ]; rfl

theorem bigEndian_zero (count : Nat) : bigEndian count 0 = List.replicate count 0 := by
  rw [bigEndian, littleEndian_zero, List.reverse_replicate]

theorem littleEndian_ones (count : Nat) : littleEndian count (256 ^ count - 1) = List.replicate count 255 := by
  induction count with
  | zero => rfl
  | succ count ih =>
    have hpos : 0 < 256 ^ count := by positivity
    have hpow : 256 ^ (count + 1) = 256 * 256 ^ count := pow_succ' _ _
    have hlow : (256 ^ (count + 1) - 1) % 256 = 255 := by omega
    have hhigh : (256 ^ (count + 1) - 1) / 256 = 256 ^ count - 1 := by omega
    rw [littleEndian, hlow, hhigh, ih, List.replicate_succ]
    rfl

/-! ### Two's complement -/

/-- The byte that the sign of an integer is repeated in. -/
def signByte (n : Int) : UInt8 := if n < 0 then 255 else 0

theorem length_signedBigEndian (count : Nat) (n : Int) : (signedBigEndian count n).length = count :=
  length_bigEndian _ _

theorem toNat_emod_pow (count : Nat) {n : Int} (hlo : -(256 ^ count : Int) ≤ 2 * n)
    (hhi : 2 * n < 256 ^ count) :
    ((n % (Nat.pow 256 count : Nat)).toNat : Int) = if n < 0 then n + 256 ^ count else n := by
  have hpow : ((Nat.pow 256 count : Nat) : Int) = 256 ^ count := Nat.cast_pow 256 count
  have hpos : (0 : Int) < 256 ^ count := by positivity
  rw [hpow, Int.toNat_of_nonneg (Int.emod_nonneg _ hpos.ne')]
  by_cases hn : n < 0
  · rw [if_pos hn, ← Int.add_emod_right, Int.emod_eq_of_lt (by omega) (by omega)]
  · rw [if_neg hn, Int.emod_eq_of_lt (by omega) (by omega)]

/-- An integer that a number of bytes has room for is read back from them. -/
theorem ofSignedBigEndian_signedBigEndian {n : Int} (hlo : -(256 ^ count : Int) ≤ 2 * n)
    (hhi : 2 * n < 256 ^ count) : ofSignedBigEndian (signedBigEndian count n) = n := by
  have hpow : ((Nat.pow 256 count : Nat) : Int) = 256 ^ count := Nat.cast_pow 256 count
  have hbits := toNat_emod_pow count hlo hhi
  have hlt : (n % (Nat.pow 256 count : Nat)).toNat < 256 ^ count := by
    have : ((n % (Nat.pow 256 count : Nat)).toNat : Int) < 256 ^ count := by
      rw [hbits]
      split_ifs <;> omega
    exact_mod_cast this
  rw [ofSignedBigEndian, length_signedBigEndian, signedBigEndian]
  simp only [ofBigEndian_bigEndian hlt]
  by_cases hn : n < 0
  · rw [if_pos hn] at hbits
    have hlarge : Nat.pow 256 count ≤ 2 * (n % (Nat.pow 256 count : Nat)).toNat := by omega
    rw [if_pos hlarge, hbits, hpow]
    omega
  · rw [if_neg hn] at hbits
    have hsmall : ¬Nat.pow 256 count ≤ 2 * (n % (Nat.pow 256 count : Nat)).toNat := by omega
    rw [if_neg hsmall, hbits]

/-- More bytes than an integer needs repeat its sign. -/
theorem signedBigEndian_add {n : Int} (hlo : -(256 ^ count : Int) ≤ 2 * n)
    (hhi : 2 * n < 256 ^ count) (more : Nat) :
    signedBigEndian (more + count) n = List.replicate more (signByte n) ++ signedBigEndian count n := by
  have hle : (256 ^ count : Int) ≤ 256 ^ (more + count) := by
    exact_mod_cast Nat.pow_le_pow_right (by decide) (Nat.le_add_left _ _)
  have hpow : 256 ^ (more + count) = 256 ^ more * 256 ^ count := pow_add _ _ _
  have hbits := toNat_emod_pow count hlo hhi
  have hwide := toNat_emod_pow (more + count) (n := n) (by omega) (by omega)
  unfold signedBigEndian
  generalize (n % (Nat.pow 256 count : Nat)).toNat = low at hbits ⊢
  generalize (n % (Nat.pow 256 (more + count) : Nat)).toNat = wide at hwide ⊢
  by_cases hn : n < 0
  · rw [if_pos hn] at hbits hwide
    have hmore : 0 < 256 ^ more := by positivity
    have hsplit : wide = 256 ^ count * (256 ^ more - 1) + low := by
      have : (wide : Int) = 256 ^ count * (256 ^ more - 1) + low := by
        rw [hwide, hbits, pow_add]
        ring
      zify [hmore]
      exact this
    have hlow : low < 256 ^ count := by zify; omega
    have hdiv : wide / 256 ^ count = 256 ^ more - 1 := by
      rw [hsplit, Nat.mul_add_div (by positivity), Nat.div_eq_of_lt hlow, Nat.add_zero]
    have hmod : wide % 256 ^ count = low := by
      rw [hsplit, Nat.mul_add_mod, Nat.mod_eq_of_lt hlow]
    rw [bigEndian_add, hdiv, ← bigEndian_mod count wide, hmod, bigEndian, littleEndian_ones,
      List.reverse_replicate, signByte, if_pos hn]
  · rw [if_neg hn] at hbits hwide
    have heq : wide = low := by omega
    have hlow : low < 256 ^ count := by zify; omega
    rw [bigEndian_add, heq, Nat.div_eq_of_lt hlow, bigEndian_zero, signByte, if_neg hn]

theorem signedBigEndian_natCast (h : n < 256 ^ count) :
    signedBigEndian count n = bigEndian count n := by
  have hmod : ((n : Int) % (Nat.pow 256 count : Nat)).toNat = n % 256 ^ count := by
    rw [← Int.natCast_mod, Int.toNat_natCast]
    rfl
  rw [signedBigEndian, hmod, Nat.mod_eq_of_lt h]

theorem signedBigEndian_neg (hpos : 0 < n) (h : n ≤ 256 ^ count) :
    signedBigEndian count (-(n : Int)) = bigEndian count (256 ^ count - n) := by
  have hpow : ((Nat.pow 256 count : Nat) : Int) = ((256 ^ count : Nat) : Int) := rfl
  have hmod : (-(n : Int) % (Nat.pow 256 count : Nat)).toNat = 256 ^ count - n := by
    rw [hpow, ← Int.add_emod_right, Int.emod_eq_of_lt (by omega) (by omega)]
    omega
  rw [signedBigEndian, hmod]

/-! ### Complements -/

/-- The complement of a number that some bits hold, with all bits above them set, is the complement in any
number of bits. -/
theorem mask_or_complement_mod (width : Nat) {bits : Nat} (hpos : 0 < n) (hwidth : n ≤ 2 ^ width)
    (hbits : n ≤ 2 ^ bits) :
    (((2 ^ width - 1) ^^^ (2 ^ bits - 1)) ||| (2 ^ bits - n)) % 2 ^ width = 2 ^ width - n := by
  obtain ⟨x, rfl⟩ := Nat.exists_eq_add_of_lt hpos
  rw [Nat.zero_add] at hwidth hbits ⊢
  apply Nat.eq_of_testBit_eq
  intro i
  rw [Nat.testBit_mod_two_pow, Nat.testBit_or, Nat.testBit_xor, Nat.testBit_two_pow_sub_one,
    Nat.testBit_two_pow_sub_one, Nat.testBit_two_pow_sub_succ hbits, Nat.testBit_two_pow_sub_succ hwidth]
  by_cases hi : i < bits
  · by_cases hw : i < width <;> simp [hi, hw]
  · -- Above the bits of the number there is nothing to complement.
    have hclear : x.testBit i = false := by
      apply Nat.testBit_lt_two_pow
      exact lt_of_lt_of_le hbits (Nat.pow_le_pow_right (by decide) (Nat.le_of_not_lt hi))
    by_cases hw : i < width <;> simp [hi, hw, hclear]

end AvroCodec.Wire
