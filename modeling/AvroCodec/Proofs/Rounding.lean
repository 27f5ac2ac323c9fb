import AvroCodec.Binary
import Mathlib.Algebra.Order.Field.Power
import Mathlib.Data.Rat.Floor
import Mathlib.Tactic.FieldSimp
import Mathlib.Tactic.Linarith
import Mathlib.Tactic.Ring

/-!
# Exact rounding

Rounding a number that a format has gives that number, so a number goes through any format that has it
without a change. The bits of a format and its numbers correspond, what is not a number apart.
-/

namespace AvroCodec.Binary

theorem twoPow_eq (e : Int) : twoPow e = (2 : ℚ) ^ e := by
  cases e with
  | ofNat n =>
    change ((Nat.pow 2 n : ℕ) : ℚ) = (2 : ℚ) ^ (n : ℤ)
    rw [zpow_natCast]
    exact Nat.cast_pow 2 n
  | negSucc n =>
    change mkRat 1 (Nat.pow 2 (n + 1)) = (2 : ℚ) ^ (Int.negSucc n)
    rw [zpow_negSucc, Rat.mkRat_eq_div]
    simp

namespace Format

theorem unit_pos (f : Format) : 0 < f.unit := Nat.pow_pos (by decide)

theorem top_add_one (f : Format) : f.top + 1 = 2 ^ f.width :=
  Nat.sub_add_cancel (Nat.pow_pos (by decide))

theorem signUnit_eq (f : Format) : f.signUnit = (f.top + 1) * f.unit := by
  rw [top_add_one]
  change 2 ^ (f.precision - 1 + f.width) = 2 ^ f.width * 2 ^ (f.precision - 1)
  rw [← pow_add, Nat.add_comm]

end Format

theorem nearest_natCast (m : Nat) : nearest (m : ℚ) = m := by
  have hfloor : ((m : ℤ) : ℚ).floor = (m : ℤ) := Rat.floor_intCast m
  rw [← Int.cast_natCast]
  simp only [nearest, hfloor, sub_self]
  rw [if_pos (by rw [Rat.mkRat_eq_div]; norm_num)]

theorem leading_bounds {x : ℚ} (h : 0 < x) :
    (2 : ℚ) ^ leading x ≤ x ∧ x < (2 : ℚ) ^ (leading x + 1) := by
  have hnum : 0 < x.num := Rat.num_pos.2 h
  let n := x.num.natAbs
  let d := x.den
  have hn : n ≠ 0 := by omega
  have hd : d ≠ 0 := x.den_nz
  have hx : x = (n : ℚ) / d := by
    have hc : ((n : ℤ) : ℚ) = x.num := by rw [Int.natAbs_of_nonneg hnum.le]
    rw [← Int.cast_natCast, hc]
    exact (Rat.num_div_den x).symm
  have hdpos : (0 : ℚ) < d := by exact_mod_cast Nat.pos_of_ne_zero hd
  have hn1 : (2 : ℚ) ^ n.log2 ≤ n := by exact_mod_cast Nat.log2_self_le hn
  have hn2 : (n : ℚ) < 2 ^ (n.log2 + 1) := by exact_mod_cast Nat.lt_log2_self
  have hd1 : (2 : ℚ) ^ d.log2 ≤ d := by exact_mod_cast Nat.log2_self_le hd
  have hd2 : (d : ℚ) < 2 ^ (d.log2 + 1) := by exact_mod_cast Nat.lt_log2_self
  let a : ℤ := (n.log2 : ℤ) - d.log2
  have hup : x < (2 : ℚ) ^ (a + 1) := by
    have hpow : (2 : ℚ) ^ (a + 1) * 2 ^ d.log2 = 2 ^ (n.log2 + 1) := by
      rw [← zpow_natCast, ← zpow_natCast, ← zpow_add₀ (by norm_num)]
      congr 1
      simp only [a]
      push_cast
      ring
    rw [hx, div_lt_iff₀ hdpos]
    calc (n : ℚ) < 2 ^ (n.log2 + 1) := hn2
      _ = (2 : ℚ) ^ (a + 1) * 2 ^ d.log2 := hpow.symm
      _ ≤ (2 : ℚ) ^ (a + 1) * d := mul_le_mul_of_nonneg_left hd1 (by positivity)
  have hlow : (2 : ℚ) ^ (a - 1) ≤ x := by
    have hpow : (2 : ℚ) ^ (a - 1) * 2 ^ (d.log2 + 1) = 2 ^ n.log2 := by
      rw [← zpow_natCast, ← zpow_natCast, ← zpow_add₀ (by norm_num)]
      congr 1
      simp only [a]
      push_cast
      ring
    rw [hx, le_div_iff₀ hdpos]
    calc (2 : ℚ) ^ (a - 1) * d ≤ (2 : ℚ) ^ (a - 1) * 2 ^ (d.log2 + 1) :=
          mul_le_mul_of_nonneg_left hd2.le (by positivity)
      _ = 2 ^ n.log2 := hpow
      _ ≤ n := hn1
  by_cases hest : twoPow a ≤ x
  · have hl : leading x = a := if_pos hest
    rw [hl]
    exact ⟨twoPow_eq a ▸ hest, hup⟩
  · have hl : leading x = a - 1 := if_neg hest
    rw [hl, sub_add_cancel]
    exact ⟨hlow, twoPow_eq a ▸ not_le.1 hest⟩

theorem leading_eq {x : ℚ} {a : ℤ} (hlow : (2 : ℚ) ^ a ≤ x) (hup : x < (2 : ℚ) ^ (a + 1)) :
    leading x = a := by
  have hpos : 0 < x := lt_of_lt_of_le (by positivity) hlow
  obtain ⟨h1, h2⟩ := leading_bounds hpos
  have hle : a < leading x + 1 := (zpow_lt_zpow_iff_right₀ (by norm_num)).1 (hlow.trans_lt h2)
  have hge : leading x < a + 1 := (zpow_lt_zpow_iff_right₀ (by norm_num)).1 (h1.trans_lt hup)
  omega

namespace Number

variable {f : Format}

variable {bits m : Nat} {e : Int} {x y : Number}

def assemble (f : Format) (negative : Bool) (field fraction : Nat) : Nat :=
  (if negative then f.signUnit else 0) + (field * f.unit + fraction)

theorem exists_assemble (h : bits < 2 * f.signUnit) :
    ∃ negative field fraction, field ≤ f.top ∧ fraction < f.unit ∧
      bits = assemble f negative field fraction := by
  have hlow : bits % f.signUnit < f.signUnit := Nat.mod_lt _ (by omega)
  have hfield : bits % f.signUnit / f.unit < f.top + 1 := by
    rw [Nat.div_lt_iff_lt_mul f.unit_pos, ← f.signUnit_eq]
    exact hlow
  have hparts := Nat.div_add_mod' (bits % f.signUnit) f.unit
  refine ⟨decide (f.signUnit ≤ bits), bits % f.signUnit / f.unit, bits % f.signUnit % f.unit,
    by omega, Nat.mod_lt _ f.unit_pos, ?_⟩
  unfold assemble
  rw [hparts]
  by_cases hs : f.signUnit ≤ bits
  · have hm : bits % f.signUnit = bits - f.signUnit := by
      rw [Nat.mod_eq_sub_mod hs, Nat.mod_eq_of_lt (by omega)]
    simp only [hs, decide_true, if_true]
    omega
  · simp only [hs, decide_false, Bool.false_eq_true, if_false]
    rw [Nat.mod_eq_of_lt (by omega)]
    omega

theorem ofBits_assemble (negative : Bool) {field fraction : Nat} (hfield : field ≤ f.top)
    (hfraction : fraction < f.unit) :
    ofBits f (assemble f negative field fraction) =
      if field = f.top then if fraction = 0 then infinite negative else nan
      else if field = 0 then finite negative fraction f.least
      else finite negative (f.unit + fraction) (f.least + field - 1) := by
  have hu := f.unit_pos
  let s : Nat := if negative then 1 else 0
  have hs : s < 2 := by cases negative <;> simp [s]
  have hbits : assemble f negative field fraction = (s * (f.top + 1) + field) * f.unit + fraction := by
    unfold assemble
    rw [f.signUnit_eq]
    cases negative <;> simp only [s, Bool.false_eq_true, if_true, if_false] <;> ring
  have hq : assemble f negative field fraction / f.unit = s * (f.top + 1) + field := by
    rw [hbits, Nat.mul_comm, Nat.mul_add_div hu, Nat.div_eq_of_lt hfraction, Nat.add_zero]
  have hr : assemble f negative field fraction % f.unit = fraction := by
    rw [hbits, Nat.mul_add_mod_self_right, Nat.mod_eq_of_lt hfraction]
  have hsign : assemble f negative field fraction / f.signUnit = s := by
    rw [f.signUnit_eq, Nat.mul_comm (f.top + 1), ← Nat.div_div_eq_div_mul, hq, Nat.mul_comm,
      Nat.mul_add_div (Nat.succ_pos _), Nat.div_eq_of_lt (by omega), Nat.add_zero]
  have hf : (s * (f.top + 1) + field) % (f.top + 1) = field := by
    rw [Nat.mul_add_mod_self_right, Nat.mod_eq_of_lt (by omega)]
  have hnegative : (s % 2 == 1) = negative := by cases negative <;> rfl
  unfold ofBits
  simp only [hq, hr, hsign, hf, hnegative]

/-- Bits are the bits of their number. -/
theorem toBits_ofBits (hw : 0 < f.width) (h : bits < 2 * f.signUnit)
    (hn : ofBits f bits ≠ nan) : (ofBits f bits).toBits f = bits := by
  obtain ⟨negative, field, fraction, hfield, hfraction, rfl⟩ := exists_assemble h
  have htop : 1 ≤ f.top := by
    have h2 : 2 ^ 1 ≤ 2 ^ f.width := Nat.pow_le_pow_right (by decide) hw
    have := f.top_add_one
    omega
  have hle : f.unit ≤ f.top * f.unit := Nat.le_mul_of_pos_left _ htop
  rw [ofBits_assemble negative hfield hfraction] at hn ⊢
  unfold assemble
  by_cases ht : field = f.top
  · by_cases hz : fraction = 0
    · simp only [ht, hz, if_true, toBits, Nat.add_zero]
    · simp only [ht, hz, if_true, if_false, ne_eq, not_true_eq_false] at hn
  · rw [if_neg ht]
    by_cases hz : field = 0
    · simp only [hz, if_true, toBits, sub_self, Int.toNat_zero, Nat.zero_mul, Nat.zero_add]
      omega
    · have hexp : (f.least + field - 1 - f.least).toNat = field - 1 := by omega
      have hsplit : (field - 1) * f.unit + f.unit = field * f.unit := by
        rw [← Nat.succ_mul, Nat.succ_eq_add_one, Nat.sub_add_cancel (by omega)]
      have hbelow : (field + 1) * f.unit ≤ f.top * f.unit := Nat.mul_le_mul_right _ (by omega)
      have hstep : (field + 1) * f.unit = field * f.unit + f.unit := Nat.succ_mul ..
      simp only [if_neg hz, toBits, hexp]
      omega

/-- Significand and exponent are those of a number of the format. -/
structure Canonical (f : Format) (m : Nat) (e : Int) : Prop where
  least_le : f.least ≤ e
  significand_lt : m < 2 * f.unit
  normal : e = f.least ∨ f.unit ≤ m
  below_top : (e - f.least).toNat + 1 < f.top

theorem ofBits_toBits (h : Canonical f m e) (negative : Bool) :
    ofBits f ((finite negative m e).toBits f) = finite negative m e := by
  obtain ⟨hle, hm, hnormal, htop⟩ := h
  by_cases hsmall : m < f.unit
  · obtain rfl : e = f.least := by omega
    have hle : f.unit ≤ f.top * f.unit := Nat.le_mul_of_pos_left _ (by omega)
    have hbits : (finite negative m f.least).toBits f = assemble f negative 0 m := by
      simp only [toBits, assemble, sub_self, Int.toNat_zero]
      omega
    rw [hbits, ofBits_assemble negative (Nat.zero_le _) hsmall, if_neg (by omega), if_pos rfl]
  · let j := (e - f.least).toNat
    have he : e = f.least + j := by omega
    have hj : (j + 1) * f.unit = j * f.unit + f.unit := Nat.succ_mul ..
    have hbelow : (j + 2) * f.unit ≤ f.top * f.unit := Nat.mul_le_mul_right _ (by omega)
    have hstep : (j + 2) * f.unit = j * f.unit + 2 * f.unit := Nat.add_mul ..
    have hbits : (finite negative m e).toBits f = assemble f negative (j + 1) (m - f.unit) := by
      simp only [toBits, assemble, show (e - f.least).toNat = j from rfl]
      omega
    rw [hbits, ofBits_assemble negative (by omega) (by omega), if_neg (by omega), if_neg (by omega)]
    congr 1 <;> omega

theorem canonical_of_ofBits {negative : Bool} (hw : 1 < f.width)
    (hbits : bits < 2 * f.signUnit) (h : ofBits f bits = finite negative m e) : Canonical f m e := by
  have htop : 3 ≤ f.top := by
    have h4 : 2 ^ 2 ≤ 2 ^ f.width := Nat.pow_le_pow_right (by decide) hw
    have := f.top_add_one
    omega
  obtain ⟨s, field, fraction, hfield, hfraction, rfl⟩ := exists_assemble hbits
  rw [ofBits_assemble s hfield hfraction] at h
  split_ifs at h with ht hz hzero
  · injection h with _ hm he
    exact ⟨by omega, by omega, .inl he.symm, by omega⟩
  · injection h with _ hm he
    exact ⟨by omega, by omega, .inr (by omega), by omega⟩

theorem Canonical.lastExponent_eq (hp : 0 < f.precision)
    (h : Canonical f m e) (hm : 0 < m) : lastExponent f ((m : ℚ) * 2 ^ e) = e := by
  have hunit : f.unit = 2 ^ (f.precision - 1) := rfl
  have hlog : leading ((m : ℚ) * 2 ^ e) = m.log2 + e := by
    have h1 : (2 : ℚ) ^ m.log2 ≤ m := by exact_mod_cast Nat.log2_self_le hm.ne'
    have h2 : (m : ℚ) < 2 ^ (m.log2 + 1) := by exact_mod_cast Nat.lt_log2_self
    have hpos : (0 : ℚ) < 2 ^ e := by positivity
    apply leading_eq
    · rw [zpow_add₀ (by norm_num), zpow_natCast]
      exact mul_le_mul_of_nonneg_right h1 hpos.le
    · rw [show (m.log2 : ℤ) + e + 1 = ((m.log2 + 1 : ℕ) : ℤ) + e by push_cast; ring,
        zpow_add₀ (by norm_num), zpow_natCast]
      exact mul_lt_mul_of_pos_right h2 hpos
  have hlt : m.log2 < f.precision := by
    rw [Nat.log2_lt hm.ne', ← Nat.sub_add_cancel hp, pow_succ, ← hunit]
    have := h.significand_lt
    omega
  unfold lastExponent
  rw [hlog]
  rcases h.normal with he | hnormal
  · rw [he]
    omega
  · have hge : f.precision - 1 ≤ m.log2 := (Nat.le_log2 hm.ne').2 (hunit ▸ hnormal)
    have := h.least_le
    omega

/-- Rounding leaves a number of the format as it is. -/
theorem round_canonical (hp : 0 < f.precision) (h : Canonical f m e)
    (negative : Bool) :
    round f negative (if negative then -((m : ℚ) * twoPow e) else (m : ℚ) * twoPow e) =
      finite negative m e := by
  rw [twoPow_eq]
  rcases Nat.eq_zero_or_pos m with rfl | hm
  · have he : e = f.least := h.normal.resolve_right (by have := f.unit_pos; omega)
    simp [round, he]
  · have hpos : (0 : ℚ) < (m : ℚ) * 2 ^ e := by positivity
    have hexact : nearest ((m : ℚ) * 2 ^ e / twoPow e) = m := by
      rw [twoPow_eq, mul_div_assoc, div_self (by positivity), mul_one, nearest_natCast]
    cases negative with
    | true =>
      have hneg : -((m : ℚ) * 2 ^ e) < 0 := by linarith
      simp only [round, if_true, hneg.ne, if_false, hneg, neg_neg, decide_true,
        h.lastExponent_eq hp hm, hexact, Int.toNat_natCast]
      exact ofBits_toBits h true
    | false =>
      simp only [round, Bool.false_eq_true, if_false, hpos.ne', hpos.not_gt, decide_false,
        h.lastExponent_eq hp hm, hexact, Int.toNat_natCast]
      exact ofBits_toBits h false

/-- Two numbers are the same, sign of zero included. -/
def Agrees : Number → Number → Prop
  | finite n m e, finite n' m' e' => n = n' ∧ (m : ℚ) * twoPow e = m' * twoPow e'
  | infinite n, infinite n' => n = n'
  | _, _ => False

theorem Agrees.symm (h : Agrees x y) : Agrees y x := by
  cases x <;> cases y <;> simp_all [Agrees]

theorem Agrees.ne_nan (h : Agrees x y) : x ≠ nan := by
  rintro rfl
  cases y <;> exact h

theorem convert_of_agrees (hp : 0 < f.precision) (hw : 1 < f.width)
    (hbits : bits < 2 * f.signUnit) (h : Agrees x (ofBits f bits)) :
    x.convert f = ofBits f bits := by
  cases hy : ofBits f bits with
  | nan => exact absurd hy h.symm.ne_nan
  | infinite n =>
    rw [hy] at h
    cases x <;> simp_all [Agrees, convert]
  | finite n m e =>
    rw [hy] at h
    cases x with
    | finite n' m' e' =>
      obtain ⟨rfl, hvalue⟩ := h
      simp only [convert, toRat?, hvalue]
      exact round_canonical hp (canonical_of_ofBits hw hbits hy) n'
    | infinite n' => exact h.elim
    | nan => exact h.elim

end Number

end AvroCodec.Binary
