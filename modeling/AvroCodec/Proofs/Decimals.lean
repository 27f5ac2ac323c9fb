import AvroCodec.Logical.Decimal
import AvroCodec.Proofs.Signed
import AvroCodec.Proofs.Wire
import Mathlib.Algebra.Order.Field.Power
import Mathlib.Data.Nat.Digits.Defs
import Mathlib.Tactic.FieldSimp

/-!
# Decimals as integers

A decimal is written as the integer that it is when shifted up by the scale, in two's complement. Over bytes
it is read back with the scale as its exponent, if the integer has no more digits than it may have. Over a
type of fixed size it is written in exactly that size; the negative zero is not.
-/

namespace AvroCodec

open Decimal

/-- The integer with the sign and the digits of a decimal, shifted up so many places. -/
def Decimal.shifted (negative : Bool) (coefficient places : Nat) : Int :=
  (if negative then -1 else 1) * coefficient * 10 ^ places

theorem Value.toRat?_decimal (negative : Bool) (m : Nat) (e : Int) :
    (Value.decimal (.finite negative m e)).toRat? =
      some ((if negative then -1 else 1) * m * (10 : ℚ) ^ e) := by
  have hsign : ∀ size : ℚ,
      some (if negative then -size else size) = some ((if negative then -1 else 1) * size) := by
    intro size
    cases negative <;> simp
  cases e with
  | ofNat n =>
    have hsize : ((m * Nat.pow 10 n : Nat) : ℚ) = m * 10 ^ n := by
      rw [Nat.cast_mul]
      exact congrArg ((m : ℚ) * ·) (Nat.cast_pow 10 n)
    rw [Int.ofNat_eq_natCast, zpow_natCast, mul_assoc, ← hsize, ← hsign]
    rfl
  | negSucc n =>
    have hsize : mkRat m (Nat.pow 10 (n + 1)) = m * ((10 : ℚ) ^ (n + 1))⁻¹ := by
      rw [Rat.mkRat_eq_div, Int.cast_natCast, div_eq_mul_inv]
      exact congrArg (fun x => (m : ℚ) * x⁻¹) (Nat.cast_pow 10 (n + 1))
    rw [zpow_negSucc, mul_assoc, ← hsize, ← hsign]
    rfl

namespace Logical

open Wire

variable {n precision scale size : Nat}

theorem shifted_eq (negative : Bool) (m places : Nat) :
    (if negative then -(unscaled m places : Int) else unscaled m places) =
      shifted negative m places := by
  have hpow : (unscaled m places : Int) = 10 ^ places * m := by
    rw [unscaled, Nat.cast_mul]
    exact congrArg (· * (m : Int)) (Nat.cast_pow 10 places)
  rw [hpow, shifted]
  cases negative
  · simp only [Bool.false_eq_true, if_false]
    ring
  · simp only [if_true]
    ring

theorem natAbs_shifted (negative : Bool) (m places : Nat) :
    (shifted negative m places).natAbs = unscaled m places := by
  rw [← shifted_eq]
  cases negative <;> simp

/-! ### Over bytes -/

theorem prepareBytesDecimal_eq (scale : Nat) (negative : Bool) (m : Nat) (e : Int) :
    prepareBytesDecimal (.int scale) (.decimal (.finite negative m e)) =
      if e + scale < 0 then .error .scaleMismatch
      else .ok (.bytes (leastBytes negative (unscaled m (e + scale).toNat))) := by
  change (shiftOf e (.int scale) >>= fun shift => _) = _
  simp only [shiftOf, Json.toInt?]
  by_cases he : e + scale < 0
  · rw [if_pos he, if_pos he]
    rfl
  · rw [if_neg he, if_neg he]
    rfl

theorem leastBytes_eq (negative : Bool) (m places : Nat) :
    leastBytes negative (unscaled m places) =
      signedBigEndian ((bitLength (unscaled m places) + 8) / 8) (shifted negative m places) := by
  rw [leastBytes, shifted_eq]

theorem shifted_in_leastBytes (negative : Bool) (m places : Nat) :
    -(256 ^ ((bitLength (unscaled m places) + 8) / 8) : Int) ≤ 2 * shifted negative m places ∧
      2 * shifted negative m places < 256 ^ ((bitLength (unscaled m places) + 8) / 8) := by
  have hroom : (2 * unscaled m places : Int) <
      256 ^ ((bitLength (unscaled m places) + 8) / 8) := by
    exact_mod_cast lt_two_pow_leastBits (unscaled m places)
  rw [← shifted_eq]
  cases negative <;> simp only [Bool.false_eq_true, if_true, if_false] <;> constructor <;> omega

theorem ofSignedBigEndian_leastBytes (negative : Bool) (m places : Nat) :
    ofSignedBigEndian (leastBytes negative (unscaled m places)) =
      shifted negative m places := by
  obtain ⟨hlo, hhi⟩ := shifted_in_leastBytes negative m places
  rw [leastBytes_eq, ofSignedBigEndian_signedBigEndian hlo hhi]

theorem digitCount_le_iff {k : Nat} (hk : 0 < k) : digitCount n ≤ k ↔ n < 10 ^ k :=
  Nat.length_toDigits_le_iff (by decide) hk

/-- A decimal that has no more digits than it may have, and whose powers of ten are neither too small nor too large,
is kept. -/
theorem fit_eq {e : Int} (hdigits : digitCount n ≤ precision) (hlo : -mostPower ≤ e)
    (hhi : e + digitCount n ≤ mostPower + 1) (negative : Bool) :
    fit precision negative n e = some (.finite negative n e) := by
  have hpos : 0 < digitCount n := Nat.length_toDigits_pos
  have hleast : leastExponent precision ≤ e := by
    rw [leastExponent]
    omega
  unfold fit
  split_ifs with hzero
  · rw [hzero, max_eq_left hleast, min_eq_left (by omega)]
  · have htop : ¬mostPower - precision + 1 <
        max (e + digitCount n - precision) (leastExponent precision) := by
      have hpower : 0 ≤ mostPower := by decide
      rw [not_lt, max_le_iff, leastExponent]
      omega
    have hkept : max (e + digitCount n - precision) (leastExponent precision) ≤ e := by
      rw [max_le_iff]
      omega
    simp only [if_neg htop, if_pos hkept]

theorem fit_eq_none {e : Int} (hn : n ≠ 0) (h : mostPower + 1 < e + digitCount n) (negative : Bool) :
    fit precision negative n e = none := by
  have htop : mostPower - precision + 1 <
      max (e + digitCount n - precision) (leastExponent precision) :=
    lt_max_of_lt_left (by omega)
  rw [fit, if_neg hn]
  exact if_pos htop

/-- The most digits that an integer can have as a decimal. -/
def mostDigits : Nat := 1000000

theorem mostDigits_eq : (mostDigits : Int) = mostPower + 1 := by decide

theorem ofUnscaled_of_lt {n : Int} (hp : 0 < precision) (h : n.natAbs < 10 ^ precision)
    (hmost : n.natAbs < 10 ^ mostDigits) (hscale : scale < 1000000) :
    ofUnscaled precision scale n = .ok (.finite (n < 0) n.natAbs (-scale)) := by
  have hdigits := (digitCount_le_iff hp).2 h
  have hlength := (digitCount_le_iff (by decide)).2 hmost
  have hpower : mostPower = 999999 := rfl
  have hmade := fit_eq (e := 0) hdigits (by omega) (by rw [← mostDigits_eq]; omega) (n < 0)
  have hshifted := fit_eq (e := 0 - scale) hdigits (by omega) (by rw [← mostDigits_eq]; omega) (n < 0)
  have hnear : ¬2 * (mostPower + precision) < ((scale : Int).natAbs : Int) := by
    rw [Int.natAbs_natCast]
    omega
  simp only [ofUnscaled, hmade, if_neg hnear, hshifted]
  rw [zero_sub]
  rfl

theorem ofUnscaled_of_le {n : Int} (h : 10 ^ mostDigits ≤ n.natAbs) (scale : Int) :
    ofUnscaled precision scale n = .error .tooLarge := by
  have hlength : mostDigits < digitCount n.natAbs := by
    rw [← not_le, digitCount_le_iff (by decide), not_lt]
    exact h
  have hzero : n.natAbs ≠ 0 := (lt_of_lt_of_le (Nat.pow_pos (by decide)) h).ne'
  have hnone : fit precision (n < 0) n.natAbs 0 = none :=
    fit_eq_none hzero (by rw [← mostDigits_eq]; omega) (n < 0)
  simp only [ofUnscaled, hnone]
  rfl

theorem readDecimal_bytes (hp : 1 ≤ precision) (hmax : precision ≤ maxPrecision) (scale : Nat) (data : List UInt8) :
    readDecimal (.int scale) (.int precision) (.bytes data) =
      (ofUnscaled precision scale (ofSignedBigEndian data)).map .decimal := by
  have hlimit : maxPrecision < Varint.limit := by decide
  have hfits : ¬Varint.modulus ≤ Varint.zigzag precision := by
    rw [not_le, Varint.zigzag_lt_modulus_iff]
    omega
  have hallowed : ¬((decide ((precision : Int) < 1) || decide ((maxPrecision : Int) < precision)) = true) := by
    simp only [Bool.or_eq_true, decide_eq_true_eq]
    omega
  simp only [readDecimal, Json.toInt?, if_neg hfits, if_neg hallowed, Int.toNat_natCast]
  rfl

theorem toRat?_shifted {e : Int} (he : 0 ≤ e + scale) (negative : Bool) (m : Nat) :
    (Value.decimal (.finite (shifted negative m (e + scale).toNat < 0)
      (shifted negative m (e + scale).toNat).natAbs (-scale))).toRat? =
      (Value.decimal (.finite negative m e)).toRat? := by
  generalize hu : shifted negative m (e + scale).toNat = u
  have hsign : (if decide (u < 0) then (-1 : ℚ) else 1) * (u.natAbs : ℚ) = u := by
    by_cases hneg : u < 0
    · simp only [hneg, decide_true, if_true, Nat.cast_natAbs, abs_of_neg hneg]
      push_cast
      ring
    · simp only [hneg, decide_false, Bool.false_eq_true, if_false, Nat.cast_natAbs,
        abs_of_nonneg (not_lt.1 hneg), one_mul]
  have hvalue : (u : ℚ) = (if negative then -1 else 1) * m * (10 : ℚ) ^ (e + scale) := by
    rw [← hu, shifted]
    conv_rhs => rw [← Int.toNat_of_nonneg he, zpow_natCast]
    push_cast
    cases negative <;> simp
  rw [Value.toRat?_decimal, Value.toRat?_decimal, hsign, hvalue, mul_assoc, ← zpow_add₀ (by norm_num),
    add_neg_cancel_right]

/-- A decimal that fits its scale is written over bytes as the integer that it is when shifted up, and read
back as the same number if the integer has no more digits than it may have, nor than any decimal has. -/
theorem bytesDecimal_written_and_read (scale : Fin 1000000) (precision : Nat) (hp : 1 ≤ precision)
    (hmax : precision ≤ maxPrecision) (negative : Bool) (m : Nat) (e : Int) :
    (prepareBytesDecimal (.int scale) (.decimal (.finite negative m e)) = .error .scaleMismatch ↔
      e + scale < 0) ∧
    (0 ≤ e + scale → ∃ data,
      prepareBytesDecimal (.int scale) (.decimal (.finite negative m e)) = .ok (.bytes data) ∧
      ofSignedBigEndian data = shifted negative m (e + scale).toNat ∧
      ((shifted negative m (e + scale).toNat).natAbs < 10 ^ precision →
        ((shifted negative m (e + scale).toNat).natAbs < 10 ^ mostDigits → ∃ d,
          readDecimal (.int scale) (.int precision) (.bytes data) = .ok (.decimal d) ∧
          d = .finite (shifted negative m (e + scale).toNat < 0)
            (shifted negative m (e + scale).toNat).natAbs (-scale) ∧
          (Value.decimal d).toRat? = (Value.decimal (.finite negative m e)).toRat?) ∧
        (10 ^ mostDigits ≤ (shifted negative m (e + scale).toNat).natAbs →
          readDecimal (.int scale) (.int precision) (.bytes data) = .error .tooLarge))) := by
  have hprepared := prepareBytesDecimal_eq scale negative m e
  refine ⟨⟨?_, ?_⟩, ?_⟩
  · intro h
    by_contra he
    rw [hprepared, if_neg he] at h
    cases h
  · intro he
    rw [hprepared, if_pos he]
  · intro he
    have hdata := ofSignedBigEndian_leastBytes negative m (e + scale).toNat
    refine ⟨_, hprepared.trans (if_neg (not_lt.2 he)), hdata, ?_⟩
    intro hdigits
    rw [readDecimal_bytes hp hmax, hdata]
    constructor
    · intro hmost
      rw [ofUnscaled_of_lt hp hdigits hmost scale.isLt]
      exact ⟨_, rfl, rfl, toRat?_shifted he negative m⟩
    · intro hmost
      rw [ofUnscaled_of_le hmost]
      rfl

/-- One hundred and a quarter, below zero, with two places and five digits. -/
theorem quarter_written_and_read :
    prepareBytesDecimal (.int 2) (.decimal (.finite true 10025 (-2))) = .ok (.bytes [216, 215]) ∧
      readDecimal (.int 2) (.int 5) (.bytes [216, 215]) = .ok (.decimal (.finite true 10025 (-2))) := by
  obtain ⟨-, hfits⟩ := bytesDecimal_written_and_read 2 5 (by decide) (by decide) true 10025 (-2)
  obtain ⟨data, hprepared, -, hread⟩ := hfits (by decide)
  have hdata : prepareBytesDecimal (.int 2) (.decimal (.finite true 10025 (-2))) = .ok (.bytes [216, 215]) := by
    rfl
  obtain rfl : [216, 215] = data := by
    have := hdata.symm.trans hprepared
    injection this with h
    injection h
  have hmost : (shifted true 10025 0).natAbs < 10 ^ mostDigits :=
    lt_of_lt_of_le (show _ < 10 ^ 5 by decide) (Nat.pow_le_pow_right (by decide) (by decide))
  obtain ⟨d, hd, rfl, -⟩ := (hread (by decide)).1 hmost
  exact ⟨hdata, hd⟩

/-- A decimal cannot be asked to have any number of digits. -/
theorem one_not_read : prepareBytesDecimal (.int 0) (.decimal (.finite false 1 0)) = .ok (.bytes [1]) ∧
    readDecimal (.int 0) (.int 1000000000000000000) (.bytes [1]) = .error .invalid := by
  constructor <;> rfl

/-! ### Over a fixed size -/

theorem prepareFixedDecimal_eq {e : Int} (he : 0 ≤ e + scale) (size : Nat) (negative : Bool) (m : Nat) :
    prepareFixedDecimal (.int scale) (.int size) (.decimal (.finite negative m e)) =
      .ok (.buffer (sizedBytes size negative (unscaled m (e + scale).toNat))) := by
  change (sizedShiftOf e (.int scale) >>= fun shift => _) = _
  simp only [sizedShiftOf, shiftOf, Json.toInt?, if_neg (not_lt.2 he)]
  rfl

theorem sizedBytes_true (hpos : 0 < n) (h : 2 * n ≤ 256 ^ size) :
    sizedBytes size true n = signedBigEndian size (-(n : Int)) := by
  have hwidth : 256 ^ size = 2 ^ (size * 8) := by rw [pow_256_eq, Nat.mul_comm]
  have hbits : n ≤ 2 ^ (bitLength n + 1) :=
    le_trans (lt_two_pow_bitLength n).le (Nat.pow_le_pow_right (by decide) (Nat.le_succ _))
  have hmask := mask_or_complement_mod (size * 8) hpos (by omega) hbits
  rw [signedBigEndian_neg hpos (by omega), sizedBytes, if_pos rfl, ← bigEndian_mod, hwidth]
  exact congrArg (bigEndian size) hmask

theorem sizedBytes_false (hsize : 0 < size) (h : 2 * n < 256 ^ size) :
    sizedBytes size false n = signedBigEndian size n := by
  have hbits : bitLength n + 1 ≤ 8 * size := by
    have hn : n < 2 ^ (8 * size - 1) := by
      have hpow : 2 ^ (8 * size) = 2 * 2 ^ (8 * size - 1) := by
        rw [← pow_succ']
        congr 1
        omega
      rw [pow_256_eq] at h
      omega
    have := bitLength_le_iff.2 hn
    omega
  have hsum : (size * 8 - (bitLength n + 1)) / 8 + (bitLength n + 1 + 7) / 8 = size := by omega
  have hlow : n < 256 ^ ((bitLength n + 1 + 7) / 8) := by
    have := lt_two_pow_leastBits n
    exact lt_of_le_of_lt (by omega) this
  rw [signedBigEndian_natCast (by omega), sizedBytes, if_neg (by decide)]
  conv_rhs => rw [← hsum, bigEndian_add, Nat.div_eq_of_lt hlow]
  rw [bigEndian_zero]

theorem sizedBytes_eq (hsize : 0 < size) {negative : Bool} {m places : Nat} (hzero : ¬(negative = true ∧ m = 0))
    (hlo : -(256 ^ size : Int) ≤ 2 * shifted negative m places)
    (hhi : 2 * shifted negative m places < 256 ^ size) :
    sizedBytes size negative (unscaled m places) =
      signedBigEndian size (shifted negative m places) := by
  rw [← shifted_eq] at hlo hhi ⊢
  cases negative with
  | true =>
    have hpos : 0 < unscaled m places := by
      apply Nat.mul_pos (Nat.pow_pos (by decide))
      exact Nat.pos_of_ne_zero fun hm => hzero ⟨rfl, hm⟩
    simp only [if_true] at hlo ⊢
    apply sizedBytes_true hpos
    zify
    omega
  | false =>
    simp only [Bool.false_eq_true, if_false] at hhi ⊢
    apply sizedBytes_false hsize
    zify
    omega

theorem two_mul_two_pow (hsize : 1 ≤ size) : (2 * 2 ^ (8 * size - 1) : Int) = 256 ^ size := by
  have hpow : (256 : Int) ^ size = 2 ^ (8 * size) := by exact_mod_cast pow_256_eq size
  rw [hpow, ← pow_succ']
  congr 1
  omega

/-- A decimal that fits its scale and its size is written over a type of fixed size in exactly that size, as
the integer that it is when shifted up. The bytes are those that it is written in over bytes with its sign
repeated in front, or one byte of the sign less. The negative zero is left out. -/
theorem fixedDecimal_written (size scale : Nat) (hsize : 1 ≤ size) (negative : Bool) (m : Nat) (e : Int)
    (hzero : ¬(negative = true ∧ m = 0)) (he : 0 ≤ e + scale)
    (hlo : -(2 ^ (8 * size - 1) : Int) ≤ shifted negative m (e + scale).toNat)
    (hhi : shifted negative m (e + scale).toNat < (2 ^ (8 * size - 1) : Int)) :
    ∃ data bytes,
      prepareFixedDecimal (.int scale) (.int size) (.decimal (.finite negative m e)) = .ok (.buffer data) ∧
      data.length = size ∧ ofSignedBigEndian data = shifted negative m (e + scale).toNat ∧
      prepareBytesDecimal (.int scale) (.decimal (.finite negative m e)) = .ok (.bytes bytes) ∧
      ((∃ more, data = List.replicate more
          (signByte (shifted negative m (e + scale).toNat)) ++ bytes) ∨
        bytes = signByte (shifted negative m (e + scale).toNat) :: data) := by
  have hpow := two_mul_two_pow hsize
  have hlo' : -(256 ^ size : Int) ≤ 2 * shifted negative m (e + scale).toNat := by omega
  have hhi' : 2 * shifted negative m (e + scale).toNat < 256 ^ size := by omega
  have hbytes := (prepareBytesDecimal_eq scale negative m e).trans (if_neg (not_lt.2 he))
  refine ⟨_, _, prepareFixedDecimal_eq he size negative m, ?_, ?_, hbytes, ?_⟩
  · rw [sizedBytes_eq hsize hzero hlo' hhi', length_signedBigEndian]
  · rw [sizedBytes_eq hsize hzero hlo' hhi', ofSignedBigEndian_signedBigEndian hlo' hhi']
  · obtain ⟨hlo'', hhi''⟩ := shifted_in_leastBytes negative m (e + scale).toNat
    have hbits : bitLength (unscaled m (e + scale).toNat) ≤ 8 * size := by
      rw [bitLength_le_iff, ← pow_256_eq, ← natAbs_shifted negative]
      zify
      rw [abs_lt]
      have hpos : (0 : Int) < 256 ^ size := by positivity
      omega
    rw [sizedBytes_eq hsize hzero hlo' hhi', leastBytes_eq]
    generalize hcount : (bitLength (unscaled m (e + scale).toNat) + 8) / 8 = count at hlo'' hhi''
    by_cases hle : count ≤ size
    · obtain ⟨more, rfl⟩ := Nat.exists_eq_add_of_le' hle
      exact .inl ⟨more, signedBigEndian_add hlo'' hhi'' more⟩
    · -- The least negative number that the size has room for takes one byte more over bytes.
      obtain rfl : count = 1 + size := by omega
      exact .inr (signedBigEndian_add hlo' hhi' 1)

/-- The least negative number of two bytes. -/
theorem least_fixedDecimal_written :
    prepareFixedDecimal (.int 1) (.int 2) (.decimal (.finite true 32768 (-1))) = .ok (.buffer [128, 0]) ∧
      ofSignedBigEndian [128, 0] = -32768 := by
  obtain ⟨data, bytes, hprepared, -, hvalue, -⟩ := fixedDecimal_written 2 1 (by decide) true 32768 (-1)
    (by decide) (by decide) (by decide) (by decide)
  have hdata : prepareFixedDecimal (.int 1) (.int 2) (.decimal (.finite true 32768 (-1))) =
      .ok (.buffer [128, 0]) := by
    rfl
  obtain rfl : [128, 0] = data := by
    have := hdata.symm.trans hprepared
    injection this with h
    injection h
  exact ⟨hdata, hvalue⟩

/-- The negative zero is written as another number. -/
theorem negative_zero_not_written :
    prepareFixedDecimal (.int 0) (.int 1) (.decimal (.finite true 0 0)) = .ok (.buffer [254]) ∧
      ofSignedBigEndian [254] = -2 ∧
      prepareBytesDecimal (.int 0) (.decimal (.finite true 0 0)) = .ok (.bytes [0]) := by
  refine ⟨?_, ?_, ?_⟩ <;> rfl

end Logical

end AvroCodec
