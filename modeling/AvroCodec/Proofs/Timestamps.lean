import AvroCodec.Codec.Read
import AvroCodec.Proofs.Calendar
import AvroCodec.Proofs.Readable
import AvroCodec.Proofs.Wire

/-!
# Points of time

A point of time is written by way of a floating-point number of seconds, which is multiplied by the units of a
second and cut. `Binary.Kept` tells numbers of units that come through this without a change. In other cases
the number that is written may be one too small.

Within 272 years of 1970 every number of units is read as the point of time that it stands for.
-/

namespace AvroCodec

open Varint

namespace Binary

/-- A number of units that is kept when it is divided by the units of a second and multiplied by them again.
The seconds have few digits after the point, or the leading digits of the number are below those of the
units. -/
def Kept (units n : Nat) : Prop := units ∣ n * 64 ∨ n * 2 ^ units.log2 < units * 2 ^ n.log2

instance (units n : Nat) : Decidable (Kept units n) := inferInstanceAs (Decidable (_ ∨ _))

namespace Number

variable {x : ℚ} {a : ℤ}

theorem abs_grid_sub_le_of_lt (ha : -1000 ≤ a) (hx : 0 ≤ x) (h : x < 2 ^ a) :
    |grid .double x - x| ≤ 2 ^ (a - 54) := by
  rcases hx.eq_or_lt with rfl | hpos
  · rw [grid_zero, sub_self, abs_zero]
    positivity
  · have hleast : Format.double.least = -1074 := rfl
    have hprecision : ((Format.double.precision - 1 : Nat) : Int) = 52 := rfl
    have hlead := leading_lt hpos h
    refine (abs_grid_sub_le .double x).trans (zpow_le_zpow_right₀ (by norm_num) ?_)
    rw [lastExponent, hleast, hprecision]
    omega

theorem abs_rounded_sub_le (ha : -1000 ≤ a) (h : |x| < 2 ^ a) : |rounded x - x| ≤ 2 ^ (a - 54) := by
  by_cases hx : x < 0
  · rw [abs_of_neg hx] at h
    have herror := abs_grid_sub_le_of_lt ha (by linarith) h
    rw [rounded, if_pos hx, ← abs_neg]
    rwa [show -(-grid .double (-x) - x) = grid .double (-x) - -x by ring]
  · rw [abs_of_nonneg (not_lt.1 hx)] at h
    rw [rounded_of_nonneg (not_lt.1 hx)]
    exact abs_grid_sub_le_of_lt ha (not_lt.1 hx) h

theorem rounded_intCast {t : Int} (h : t.natAbs < 2 ^ 53) : rounded t = t := by
  obtain ⟨n, rfl | rfl⟩ := t.eq_nat_or_neg
  · rw [Int.natAbs_natCast] at h
    rw [Int.cast_natCast, rounded_of_nonneg (by positivity), grid_natCast h]
  · rw [Int.natAbs_neg, Int.natAbs_natCast] at h
    rw [Int.cast_neg, Int.cast_natCast, rounded_neg (by positivity), rounded_of_nonneg (by positivity),
      grid_natCast h]

/-! ### Divided and multiplied -/

section

variable {u W n : Nat}

theorem quotient_bounds (hup : u < 2 ^ (W + 1)) (hpos : 0 < n) (hn : n * 2 ^ W < u * 2 ^ n.log2) :
    (2 : ℚ) ^ ((n.log2 : ℤ) - W - 1) ≤ n / u ∧ (n : ℚ) / u < 2 ^ ((n.log2 : ℤ) - W - 1 + 1) := by
  have hu : (0 : ℚ) < u := by
    have : 0 < u := Nat.pos_of_ne_zero fun hzero => by simp [hzero] at hn
    exact_mod_cast this
  have hu2 : (u : ℚ) < 2 ^ ((W : ℤ) + 1) := by exact_mod_cast hup
  have hn1 : (2 : ℚ) ^ (n.log2 : ℤ) ≤ n := by exact_mod_cast Nat.log2_self_le hpos.ne'
  have hcross : (n : ℚ) * 2 ^ (W : ℤ) < u * 2 ^ (n.log2 : ℤ) := by exact_mod_cast hn
  constructor
  · rw [le_div_iff₀ hu]
    calc (2 : ℚ) ^ ((n.log2 : ℤ) - W - 1) * u ≤ 2 ^ ((n.log2 : ℤ) - W - 1) * 2 ^ ((W : ℤ) + 1) :=
          mul_le_mul_of_nonneg_left hu2.le (by positivity)
      _ = 2 ^ (n.log2 : ℤ) := by rw [← zpow_add₀ (by norm_num)]; congr 1; ring
      _ ≤ n := hn1
  · rw [sub_add_cancel, div_lt_iff₀ hu, zpow_sub₀ (by norm_num), div_mul_eq_mul_div,
      lt_div_iff₀ (by positivity)]
    linarith

/-- The error of the quotient, multiplied again, is less than half a unit of the last digit of the number. -/
theorem abs_grid_div_mul_sub_lt (hup : u < 2 ^ (W + 1)) (hW : W ≤ 100) (hpos : 0 < n)
    (hn : n * 2 ^ W < u * 2 ^ n.log2) :
    |grid .double ((n : ℚ) / u) * u - n| < 2 ^ ((n.log2 : ℤ) - 53) := by
  have hu : (0 : ℚ) < u := by
    have : 0 < u := Nat.pos_of_ne_zero fun hzero => by simp [hzero] at hn
    exact_mod_cast this
  have hu2 : (u : ℚ) < 2 ^ ((W : ℤ) + 1) := by exact_mod_cast hup
  obtain ⟨hxlow, hxup⟩ := quotient_bounds hup hpos hn
  have herror := abs_grid_sub_le_of_bounds (by omega) hxlow hxup
  have hsplit : grid .double ((n : ℚ) / u) * u - n = (grid .double ((n : ℚ) / u) - n / u) * u := by
    rw [sub_mul, div_mul_cancel₀ _ hu.ne']
  rw [hsplit, abs_mul, abs_of_pos hu]
  calc |grid .double ((n : ℚ) / u) - n / u| * u ≤ 2 ^ ((n.log2 : ℤ) - W - 1 - 53) * u :=
        mul_le_mul_of_nonneg_right herror hu.le
    _ < 2 ^ ((n.log2 : ℤ) - W - 1 - 53) * 2 ^ ((W : ℤ) + 1) := mul_lt_mul_of_pos_left hu2 (by positivity)
    _ = 2 ^ ((n.log2 : ℤ) - 53) := by rw [← zpow_add₀ (by norm_num)]; congr 1; ring

/-- The quotients of all powers of two have the same digits `q`. If these are close enough, the error is half
of that of other numbers, as the last digit right under a power of two asks for. -/
theorem abs_grid_two_pow_div_mul_sub_lt {q L : Nat} (hlow : 2 ^ W ≤ u) (hup : u < 2 ^ (W + 1)) (hW : W ≤ 100)
    (hq : 2 * |(q * u : ℚ) - 2 ^ (W + 53)| < 2 ^ W) (hn : 2 ^ L * 2 ^ W < u * 2 ^ L) :
    |grid .double (((2 ^ L : Nat) : ℚ) / u) * u - 2 ^ (L : ℤ)| < 2 ^ ((L : ℤ) - 54) := by
  have hu1 : (2 : ℚ) ^ (W : ℤ) ≤ u := by exact_mod_cast hlow
  have hu : (0 : ℚ) < u := lt_of_lt_of_le (by positivity) hu1
  obtain ⟨hxlow, hxup⟩ := quotient_bounds (n := 2 ^ L) hup (by positivity) (by rwa [Nat.log2_two_pow])
  rw [Nat.log2_two_pow] at hxlow hxup
  have hdistance : |q * u * (2 : ℚ) ^ ((L : ℤ) - W - 53) - 2 ^ (L : ℤ)| < 2 ^ ((L : ℤ) - 54) := by
    have hpow : (2 : ℚ) ^ (L : ℤ) = 2 ^ (W + 53) * 2 ^ ((L : ℤ) - W - 53) := by
      rw [← zpow_natCast, ← zpow_add₀ (by norm_num)]
      congr 1
      push_cast
      ring
    have hhalf : (2 : ℚ) ^ ((L : ℤ) - 54) = 2 ^ W / 2 * 2 ^ ((L : ℤ) - W - 53) := by
      rw [show (L : ℤ) - 54 = W + -1 + (L - W - 53) by ring, zpow_add₀ (by norm_num), zpow_add₀ (by norm_num),
        zpow_natCast, zpow_neg_one, div_eq_mul_inv]
    have hpos : (0 : ℚ) < 2 ^ ((L : ℤ) - W - 53) := by positivity
    rw [hpow, ← sub_mul, abs_mul, abs_of_pos hpos, hhalf]
    exact mul_lt_mul_of_pos_right (by linarith) hpos
  have hclose : |((2 ^ L : Nat) : ℚ) / u - q * 2 ^ ((L : ℤ) - W - 53)| < 2 ^ ((L : ℤ) - W - 1 - 53) := by
    have hsplit : ((2 ^ L : Nat) : ℚ) / u - q * 2 ^ ((L : ℤ) - W - 53) =
        -(q * u * (2 : ℚ) ^ ((L : ℤ) - W - 53) - 2 ^ (L : ℤ)) / u := by
      rw [Nat.cast_pow, Nat.cast_ofNat, zpow_natCast]
      field_simp
      ring
    rw [hsplit, abs_div, abs_neg, abs_of_pos hu, div_lt_iff₀ hu]
    calc _ < (2 : ℚ) ^ ((L : ℤ) - 54) := hdistance
      _ = 2 ^ ((L : ℤ) - W - 1 - 53) * 2 ^ (W : ℤ) := by rw [← zpow_add₀ (by norm_num)]; congr 1; ring
      _ ≤ 2 ^ ((L : ℤ) - W - 1 - 53) * u := mul_le_mul_of_nonneg_left hu1 (by positivity)
  have hmultiple : (q : ℚ) * 2 ^ ((L : ℤ) - W - 53) = (q : Int) * 2 ^ ((L : ℤ) - W - 1 - 52) := by
    rw [Int.cast_natCast, show (L : ℤ) - W - 53 = L - W - 1 - 52 by ring]
  rw [grid_eq_of_abs_lt (by omega) hxlow hxup hmultiple hclose]
  rwa [mul_right_comm]

/-- A number whose leading digits are below those of the units is kept. -/
theorem grid_div_mul_eq {q : Nat} (hlow : 2 ^ W ≤ u) (hup : u < 2 ^ (W + 1)) (hW : W ≤ 100)
    (hq : 2 * |(q * u : ℚ) - 2 ^ (W + 53)| < 2 ^ W) (hpos : 0 < n) (hsmall : n < 2 ^ 53)
    (hn : n * 2 ^ W < u * 2 ^ n.log2) : grid .double (grid .double ((n : ℚ) / u) * u) = n := by
  have hlog : n.log2 ≤ 52 := by
    have := (Nat.log2_lt hpos.ne').2 hsmall
    omega
  have hn1 : 2 ^ n.log2 ≤ n := Nat.log2_self_le hpos.ne'
  have hn2 : n + 1 ≤ 2 ^ (n.log2 + 1) := Nat.lt_log2_self
  have hhalf : (2 : ℚ) ^ ((n.log2 : ℤ) - 53) ≤ 1 / 2 := by
    calc (2 : ℚ) ^ ((n.log2 : ℤ) - 53) ≤ 2 ^ (-1 : ℤ) := zpow_le_zpow_right₀ (by norm_num) (by omega)
      _ = 1 / 2 := by norm_num
  have herror := abs_grid_div_mul_sub_lt hup hW hpos hn
  by_cases hy : (2 : ℚ) ^ (n.log2 : ℤ) ≤ grid .double ((n : ℚ) / u) * u
  · have hyup : grid .double ((n : ℚ) / u) * u < 2 ^ ((n.log2 : ℤ) + 1) := by
      have hn2' : (n : ℚ) + 1 ≤ 2 ^ ((n.log2 : ℤ) + 1) := by exact_mod_cast hn2
      linarith [(abs_lt.1 herror).2]
    have hmultiple : (n : ℚ) = ((n * 2 ^ (52 - n.log2) : Nat) : Int) * 2 ^ ((n.log2 : ℤ) - 52) := by
      have hcancel : (2 : ℚ) ^ (52 - n.log2) * 2 ^ ((n.log2 : ℤ) - 52) = 1 := by
        rw [← zpow_natCast, ← zpow_add₀ (by norm_num), show ((52 - n.log2 : Nat) : ℤ) + (n.log2 - 52) = 0 by omega,
          zpow_zero]
      push_cast
      rw [mul_assoc, hcancel, mul_one]
    exact grid_eq_of_abs_lt (by omega) hy hyup hmultiple herror
  · -- Only a power of two can come out below the power that it begins with.
    have heq : n = 2 ^ n.log2 := by
      have hlt : (n : ℚ) < 2 ^ (n.log2 : ℤ) + 1 := by linarith [(abs_lt.1 herror).1]
      have : n < 2 ^ n.log2 + 1 := by exact_mod_cast hlt
      omega
    generalize n.log2 = L at *
    subst heq
    have herror' := abs_grid_two_pow_div_mul_sub_lt hlow hup hW hq hn
    have hcast : (((2 ^ L : Nat) : ℚ)) = 2 ^ (L : ℤ) := by rw [Nat.cast_pow, Nat.cast_ofNat, zpow_natCast]
    have hmultiple : (2 : ℚ) ^ (L : ℤ) = ((2 ^ 53 : Int) : ℚ) * 2 ^ ((L : ℤ) - 1 - 52) := by
      rw [Int.cast_pow, Int.cast_ofNat, ← zpow_natCast, ← zpow_add₀ (by norm_num)]
      congr 1
      push_cast
      ring
    have hylow : (2 : ℚ) ^ ((L : ℤ) - 1) ≤ grid .double (((2 ^ L : Nat) : ℚ) / u) * u := by
      have hdouble : (2 : ℚ) ^ (L : ℤ) = 2 ^ ((L : ℤ) - 1) + 2 ^ ((L : ℤ) - 1) := by
        rw [zpow_sub₀ (by norm_num), zpow_one]
        ring
      have hless : (2 : ℚ) ^ ((L : ℤ) - 54) ≤ 2 ^ ((L : ℤ) - 1) := zpow_le_zpow_right₀ (by norm_num) (by omega)
      linarith [(abs_lt.1 herror').1]
    have hyup : grid .double (((2 ^ L : Nat) : ℚ) / u) * u < 2 ^ ((L : ℤ) - 1 + 1) := by
      rw [sub_add_cancel]
      exact not_le.1 hy
    have hexp : (L : ℤ) - 54 = L - 1 - 53 := by ring
    rw [hexp] at herror'
    rw [grid_eq_of_abs_lt (by omega) hylow hyup hmultiple herror', hcast]

theorem grid_div_mul_eq_of_dvd (hu : 64 ≤ u) (hsmall : n < 2 ^ 53) (hdvd : u ∣ n * 64) :
    grid .double (grid .double ((n : ℚ) / u) * u) = n := by
  obtain ⟨k, hk⟩ := hdvd
  have hupos : (0 : ℚ) < u := by
    have : 0 < u := by omega
    exact_mod_cast this
  have hle : k ≤ n := by
    by_contra! hlt
    have : 64 * k ≤ u * k := Nat.mul_le_mul_right k hu
    omega
  have hquotient : (n : ℚ) / u = k * 2 ^ (-6 : ℤ) := by
    have hcross : (n : ℚ) * 64 = u * k := by exact_mod_cast hk
    rw [div_eq_iff hupos.ne', zpow_neg, show (2 : ℚ) ^ (6 : ℤ) = 64 by norm_num]
    linarith
  rw [hquotient, grid_eq_self (by omega) (by norm_num), ← hquotient, div_mul_cancel₀ _ hupos.ne',
    grid_natCast hsmall]

/-- Division and multiplication together are less than one off. -/
theorem abs_grid_div_mul_grid_sub_lt_one (hu : 0 < u) (hu' : u < 2 ^ 53) (hpos : 0 < n) (hsmall : n < 2 ^ 52) :
    |grid .double (grid .double ((n : ℚ) / u) * u) - n| < 1 := by
  have hupos : (0 : ℚ) < u := by exact_mod_cast hu
  have hn1 : (1 : ℚ) ≤ n := by exact_mod_cast hpos
  have hn2 : (n : ℚ) + 1 ≤ 2 ^ 52 := by exact_mod_cast hsmall
  have hquotient : (2 : ℚ) ^ (-1000 : ℤ) ≤ n / u := by
    have hu2 : (u : ℚ) ≤ 2 ^ (53 : ℤ) := by
      have : (u : ℚ) < 2 ^ 53 := by exact_mod_cast hu'
      exact_mod_cast this.le
    calc (2 : ℚ) ^ (-1000 : ℤ) ≤ 2 ^ (-53 : ℤ) := zpow_le_zpow_right₀ (by norm_num) (by norm_num)
      _ = 1 / 2 ^ (53 : ℤ) := by rw [zpow_neg, one_div]
      _ ≤ n / u := by gcongr
  have hfirst : |grid .double ((n : ℚ) / u) * u - n| ≤ n * 2 ^ (-53 : ℤ) := by
    have hsplit : grid .double ((n : ℚ) / u) * u - n = (grid .double ((n : ℚ) / u) - n / u) * u := by
      rw [sub_mul, div_mul_cancel₀ _ hupos.ne']
    rw [hsplit, abs_mul, abs_of_pos hupos]
    calc _ ≤ (n : ℚ) / u * 2 ^ (-53 : ℤ) * u :=
          mul_le_mul_of_nonneg_right (abs_grid_sub_le_mul hquotient) hupos.le
      _ = n * 2 ^ (-53 : ℤ) := by field_simp
  generalize grid .double ((n : ℚ) / u) * u = y at hfirst ⊢
  have hpow : (2 : ℚ) ^ (-53 : ℤ) = 1 / 2 ^ 53 := by norm_num
  rw [hpow, abs_le] at hfirst
  have hylow : (2 : ℚ) ^ (-1000 : ℤ) ≤ y := by
    have hhalf : (2 : ℚ) ^ (-1 : ℤ) ≤ y := by
      norm_num at hfirst ⊢
      linarith
    exact le_trans (zpow_le_zpow_right₀ (by norm_num) (by norm_num)) hhalf
  have hsecond := abs_grid_sub_le_mul hylow
  rw [hpow, abs_le] at hsecond
  rw [abs_lt]
  norm_num at hfirst hsecond hn2
  constructor <;> linarith

end

/-- The number that comes out for one below zero is that of its opposite, below zero. -/
theorem truncate_rounded_div_mul (t : Int) (u : Nat) :
    truncate (rounded (rounded ((t : ℚ) / u) * u)) =
      t.sign * ⌊grid .double (grid .double ((t.natAbs : ℚ) / u) * u)⌋ := by
  have hnat : ∀ n : Nat, truncate (rounded (rounded ((n : ℚ) / u) * u)) =
      ⌊grid .double (grid .double ((n : ℚ) / u) * u)⌋ ∧
      truncate (rounded (rounded (-(n : ℚ) / u) * u)) = -⌊grid .double (grid .double ((n : ℚ) / u) * u)⌋ := by
    intro n
    have hquotient : (0 : ℚ) ≤ n / u := by positivity
    have hproduct : 0 ≤ grid .double ((n : ℚ) / u) * u := mul_nonneg (grid_nonneg hquotient) (by positivity)
    constructor
    · rw [rounded_of_nonneg hquotient, rounded_of_nonneg hproduct, truncate_of_nonneg (grid_nonneg hproduct)]
    · rw [neg_div, rounded_neg hquotient, neg_mul, rounded_of_nonneg hquotient, rounded_neg hproduct,
        rounded_of_nonneg hproduct, truncate_neg (grid_nonneg hproduct), truncate_of_nonneg (grid_nonneg hproduct)]
  rcases lt_trichotomy t 0 with ht | rfl | ht
  · obtain ⟨n, rfl⟩ : ∃ n : Nat, t = -(n : Int) := ⟨t.natAbs, by omega⟩
    rw [Int.sign_eq_neg_one_of_neg ht, Int.natAbs_neg, Int.natAbs_natCast, Int.cast_neg, Int.cast_natCast,
      (hnat n).2]
    ring
  · have hzero := (hnat 0).1
    rw [Int.sign_zero, zero_mul, Int.cast_zero]
    rw [Nat.cast_zero, zero_div, grid_zero, zero_mul, grid_zero, Int.floor_zero] at hzero
    rwa [zero_div]
  · obtain ⟨n, rfl⟩ := Int.eq_ofNat_of_zero_le ht.le
    rw [Int.sign_eq_one_of_pos ht, Int.natAbs_natCast, Int.cast_natCast, (hnat n).1, one_mul]

end Number

end Binary

namespace Logical

open Binary Binary.Number

variable {d : DateTime}

/-- The units of a second that points of time are counted in. -/
def IsUnits (units : Nat) : Prop := units = 1000 ∨ units = 1000000

variable {units : Nat} {t : Int}

theorem IsUnits.bounds (hunits : IsUnits units) : 64 ≤ units ∧ units < 2 ^ 53 := by
  rcases hunits with rfl | rfl <;> decide

theorem grid_of_kept (hunits : IsUnits units) {n : Nat} (hpos : 0 < n) (hsmall : n < 2 ^ 53)
    (hkept : Kept units n) : grid .double (grid .double ((n : ℚ) / units) * units) = n := by
  rcases hkept with hdvd | hdigits
  · exact grid_div_mul_eq_of_dvd hunits.bounds.1 hsmall hdvd
  · rcases hunits with rfl | rfl
    · have hlog : Nat.log2 1000 = 9 := by decide
      rw [hlog] at hdigits
      exact grid_div_mul_eq (q := 4611686018427388) (by decide) (by decide) (by decide) (by norm_num) hpos hsmall
        hdigits
    · have hlog : Nat.log2 1000000 = 19 := by decide
      rw [hlog] at hdigits
      exact grid_div_mul_eq (q := 4722366482869645) (by decide) (by decide) (by decide) (by norm_num) hpos hsmall
        hdigits

/-! ### Writing -/

theorem floor_eq_or {y : ℚ} {n : Nat} (h : |y - n| < 1) : ⌊y⌋ = n ∨ ⌊y⌋ = (n : Int) - 1 := by
  rw [abs_lt] at h
  by_cases hy : (n : ℚ) ≤ y
  · refine .inl (Int.floor_eq_iff.2 ?_)
    push_cast
    constructor <;> linarith
  · refine .inr (Int.floor_eq_iff.2 ?_)
    push_cast
    constructor <;> linarith

theorem truncate_of_kept (hunits : IsUnits units) (hsmall : t.natAbs < 2 ^ 53) (hkept : Kept units t.natAbs) :
    truncate (rounded (rounded ((t : ℚ) / units) * units)) = t := by
  rw [truncate_rounded_div_mul]
  by_cases hzero : t = 0
  · simp [hzero]
  · rw [grid_of_kept hunits (by omega) hsmall hkept, Int.floor_natCast, Int.sign_mul_natAbs]

theorem truncate_near (hunits : IsUnits units) (hsmall : t.natAbs < 2 ^ 52) :
    truncate (rounded (rounded ((t : ℚ) / units) * units)) = t ∨
      truncate (rounded (rounded ((t : ℚ) / units) * units)) = t - t.sign := by
  rw [truncate_rounded_div_mul]
  by_cases hzero : t = 0
  · simp [hzero]
  · have hbounds := hunits.bounds
    have herror := abs_grid_div_mul_grid_sub_lt_one (u := units) (by omega) hbounds.2
      (n := t.natAbs) (by omega) hsmall
    rcases floor_eq_or herror with hfloor | hfloor
    · exact .inl (by rw [hfloor, Int.sign_mul_natAbs])
    · exact .inr (by rw [hfloor, mul_sub, Int.sign_mul_natAbs, mul_one])

/-- A whole number of seconds and its number of units are not rounded at any date. -/
theorem rounded_whole (hunits : IsUnits units) {k : Int} (hk : k.natAbs < 2 ^ 38) :
    rounded k = k ∧ rounded ((k : ℚ) * units) = k * units := by
  obtain ⟨odd, j, hodd, hsplit⟩ : ∃ odd j : Nat, odd < 2 ^ 15 ∧ units = odd * 2 ^ j := by
    rcases hunits with rfl | rfl
    · exact ⟨125, 3, by decide, rfl⟩
    · exact ⟨15625, 6, by decide, rfl⟩
  have hnat : ∀ n : Nat, n < 2 ^ 38 → grid .double ((n : ℚ) * units) = n * units := by
    intro n hn
    have hproduct : n * odd < 2 ^ 53 := by
      calc n * odd < 2 ^ 38 * 2 ^ 15 := Nat.mul_lt_mul'' hn hodd
        _ = 2 ^ 53 := by norm_num
    have hexact := grid_eq_self (j := j) hproduct (by omega)
    rw [zpow_natCast, Nat.cast_mul] at hexact
    rw [hsplit, Nat.cast_mul, Nat.cast_pow, Nat.cast_ofNat, ← mul_assoc]
    exact hexact
  refine ⟨rounded_intCast (by omega), ?_⟩
  obtain ⟨n, rfl | rfl⟩ := k.eq_nat_or_neg
  · rw [Int.natAbs_natCast] at hk
    rw [Int.cast_natCast, rounded_of_nonneg (by positivity), hnat n hk]
  · rw [Int.natAbs_neg, Int.natAbs_natCast] at hk
    rw [Int.cast_neg, Int.cast_natCast, neg_mul, rounded_neg (by positivity), rounded_of_nonneg (by positivity),
      hnat n hk]

theorem abs_div_units_lt (hunits : IsUnits units) (hsmall : t.natAbs < 2 ^ 63) :
    |(t : ℚ) / units| < 2 ^ (63 : ℤ) := by
  have hone : (1 : ℚ) ≤ units := by
    have := hunits.bounds.1
    exact_mod_cast (by omega : 1 ≤ units)
  have habs : |(t : ℚ)| < 2 ^ (63 : ℤ) := by
    rw [← Int.cast_abs, Int.abs_eq_natAbs, Int.cast_natCast]
    exact_mod_cast hsmall
  rw [abs_div, abs_of_nonneg (by positivity : (0 : ℚ) ≤ units)]
  exact lt_of_le_of_lt (div_le_self (abs_nonneg _) hone) habs

theorem prepareTimestamp_dateTime (hunits : IsUnits units) {offset : Int}
    (hoffset : d.offset = some offset) (ht : t * 1000000 = d.microseconds * units)
    (hsmall : t.natAbs < 2 ^ 63) :
    prepareTimestamp units (.dateTime d) =
      .ok (.int (truncate (rounded (rounded ((t : ℚ) / units) * units)))) := by
  have hbounds := hunits.bounds
  have hupos : (0 : ℚ) < units := by exact_mod_cast (by omega : 0 < units)
  have hseconds : mkRat d.microseconds 1000000 = (t : ℚ) / units := by
    have hcross : (t : ℚ) * 1000000 = d.microseconds * units := by exact_mod_cast ht
    rw [Rat.mkRat_eq_div, div_eq_div_iff (by norm_num) hupos.ne', ← hcross, Nat.cast_ofNat]
  have hquotient := abs_div_units_lt hunits hsmall
  have hlarge : (2 : ℚ) ^ (63 : ℤ) < 2 ^ (1000 : ℤ) := zpow_lt_zpow_right₀ (by norm_num) (by norm_num)
  have hvalue := toRat?_ofRat (hquotient.trans hlarge)
  have hproduct : |rounded ((t : ℚ) / units) * units| < 2 ^ (1000 : ℤ) := by
    have herror := abs_rounded_sub_le (by norm_num) hquotient
    have hclose : |rounded ((t : ℚ) / units)| < 2 ^ (64 : ℤ) := by
      have htriangle := abs_sub_abs_le_abs_sub (rounded ((t : ℚ) / units)) ((t : ℚ) / units)
      norm_num at herror hquotient htriangle ⊢
      linarith
    have hu2 : (units : ℚ) < 2 ^ (53 : ℤ) := by exact_mod_cast hbounds.2
    rw [abs_mul, abs_of_pos hupos]
    calc _ < (2 : ℚ) ^ (64 : ℤ) * 2 ^ (53 : ℤ) := mul_lt_mul'' hclose hu2 (abs_nonneg _) hupos.le
      _ = 2 ^ (117 : ℤ) := by rw [← zpow_add₀ (by norm_num)]; rfl
      _ ≤ 2 ^ (1000 : ℤ) := zpow_le_zpow_right₀ (by norm_num) (by norm_num)
  have hscaled := toRat?_scale hvalue hproduct
  have hsecondsOf : secondsOf d = .ok (.ofRat .double ((t : ℚ) / units)) := by
    rw [secondsOf, hoffset, ← hseconds]
  rw [prepareTimestamp, hsecondsOf, ok_bind, integerPart_of_toRat? hscaled, ok_bind]
  rfl

/-! ### Reading -/

theorem abs_sub_truncate_lt (x : ℚ) : |x - truncate x| < 1 := by
  have hnonneg : ∀ y : ℚ, 0 ≤ y → |y - truncate y| < 1 := by
    intro y hy
    rw [truncate_of_nonneg hy, abs_of_nonneg (by linarith [Int.floor_le y])]
    linarith [Int.lt_floor_add_one y]
  by_cases hx : x < 0
  · have hopposite := hnonneg (-x) (by linarith)
    have htruncate := truncate_neg (x := -x) (by linarith)
    rw [neg_neg] at htruncate
    rw [htruncate, ← abs_neg]
    push_cast
    rwa [show -(x - -(truncate (-x) : ℚ)) = -x - truncate (-x) by ring]
  · exact hnonneg x (not_lt.1 hx)

/-- Seconds that are far enough from the middle between two microseconds are read as the nearest. -/
theorem microsecondsOf_eq {x : Number} {seconds : ℚ} (hx : x.toRat? = some seconds) {n : Int}
    (h : |seconds * 1000000 - n| ≤ 1000000 * 2 ^ (-21 : ℤ)) : microsecondsOf x = .ok n := by
  have hfraction : |(seconds - truncate seconds) * 1000000| < 2 ^ (20 : ℤ) := by
    have hlt := abs_sub_truncate_lt seconds
    rw [abs_mul]
    norm_num
    linarith
  have hlarge : (2 : ℚ) ^ (20 : ℤ) < 2 ^ (1000 : ℤ) := zpow_lt_zpow_right₀ (by norm_num) (by norm_num)
  have hpart := toRat?_ofRat (hfraction.trans hlarge)
  have herror := abs_rounded_sub_le (by norm_num) hfraction
  have hnearest : nearest ((truncate seconds * 1000000 : Int) +
      rounded ((seconds - truncate seconds) * 1000000)) = n := by
    apply nearest_eq_of_abs_lt
    have hsplit : ((truncate seconds * 1000000 : Int) : ℚ) +
        rounded ((seconds - truncate seconds) * 1000000) - n =
        (rounded ((seconds - truncate seconds) * 1000000) - (seconds - truncate seconds) * 1000000) +
          (seconds * 1000000 - n) := by
      push_cast
      ring
    rw [hsplit]
    refine (abs_add_le _ _).trans_lt (lt_of_le_of_lt (add_le_add herror h) ?_)
    norm_num
  cases x with
  | finite negative m e =>
    simp only [microsecondsOf, hx, Option.getD_some, hpart, hnearest]
  | infinite negative => cases hx
  | nan => cases hx

theorem numberOfValue_int (hsmall : t.natAbs < 2 ^ 63) (hexact : rounded t = t) :
    ∃ x, numberOfValue (.int t) = .ok x ∧ x.toRat? = some (t : ℚ) := by
  have habs : |(t : ℚ)| < 2 ^ (1000 : ℤ) := by
    have hlt : |(t : ℚ)| < 2 ^ (63 : ℤ) := by
      rw [← Int.cast_abs, Int.abs_eq_natAbs, Int.cast_natCast]
      exact_mod_cast hsmall
    exact hlt.trans (zpow_lt_zpow_right₀ (by norm_num) (by norm_num))
  have hvalue : (Number.ofInt .double t).toRat? = some (t : ℚ) := by
    rw [Number.ofInt, toRat?_ofRat habs, hexact]
  refine ⟨Number.ofInt .double t, ?_, hvalue⟩
  cases hx : Number.ofInt .double t with
  | finite negative m e => simp only [numberOfValue, Value.toInt?, hx]
  | infinite negative =>
    rw [hx] at hvalue
    cases hvalue
  | nan =>
    rw [hx] at hvalue
    cases hvalue

/-- A number of units is read as the point of time that it stands for if its seconds are rounded by less than
half a microsecond. -/
theorem readTimestamp_int (hunits : IsUnits units) (hdate : d.date.isValid = true)
    (hclock : d.clock.isValid = true) (hoffset : d.offset = some 0)
    (ht : t * 1000000 = d.microseconds * units) (hsmall : t.natAbs < 2 ^ 63) (hexact : rounded t = t)
    (herror : |rounded ((t : ℚ) / units) - t / units| ≤ 2 ^ (-21 : ℤ)) :
    readTimestamp units (.int t) = .ok (.dateTime d) := by
  have hupos : (0 : ℚ) < units := by exact_mod_cast (by have := hunits.bounds.1; omega : 0 < units)
  obtain ⟨x, hx, hvalue⟩ := numberOfValue_int hsmall hexact
  have hfactor : (t : ℚ) * mkRat 1 units = t / units := by
    rw [Rat.mkRat_eq_div, Int.cast_one, mul_one_div]
  have hlarge : (2 : ℚ) ^ (63 : ℤ) < 2 ^ (1000 : ℤ) := zpow_lt_zpow_right₀ (by norm_num) (by norm_num)
  have hproduct : |(t : ℚ) * mkRat 1 units| < 2 ^ (1000 : ℤ) := by
    rw [hfactor]
    exact (abs_div_units_lt hunits hsmall).trans hlarge
  have hscaled := toRat?_scale hvalue hproduct
  rw [hfactor] at hscaled
  have hmicroseconds : |rounded ((t : ℚ) / units) * 1000000 - d.microseconds| ≤ 1000000 * 2 ^ (-21 : ℤ) := by
    have hcount : (d.microseconds : ℚ) = t / units * 1000000 := by
      have hcross : (t : ℚ) * 1000000 = d.microseconds * units := by exact_mod_cast ht
      rw [div_mul_eq_mul_div, hcross, mul_div_cancel_right₀ _ hupos.ne']
    rw [hcount, ← sub_mul, abs_mul, mul_comm, abs_of_pos (by norm_num : (0 : ℚ) < 1000000)]
    exact mul_le_mul_of_nonneg_left herror (by norm_num)
  rw [readTimestamp, hx, ok_bind, microsecondsOf_eq hscaled hmicroseconds, ok_bind,
    DateTime.ofMicroseconds?_microseconds hdate hclock hoffset]
  rfl

/-- Within 272 years of 1970 the seconds are rounded by less than half a microsecond. -/
theorem readTimestamp_int_of_lt (hunits : IsUnits units) (hdate : d.date.isValid = true)
    (hclock : d.clock.isValid = true) (hoffset : d.offset = some 0)
    (ht : t * 1000000 = d.microseconds * units) (hsmall : t.natAbs < 2 ^ 33 * units) :
    t.natAbs < 2 ^ 63 ∧ readTimestamp units (.int t) = .ok (.dateTime d) := by
  have hmax : 0 < units ∧ units ≤ 1000000 := by rcases hunits with rfl | rfl <;> decide
  have hlimit := Nat.mul_le_mul_left (2 ^ 33) hmax.2
  have hupos : (0 : ℚ) < units := by exact_mod_cast hmax.1
  have hseconds : |(t : ℚ) / units| < 2 ^ (33 : ℤ) := by
    rw [abs_div, abs_of_pos hupos, div_lt_iff₀ hupos, ← Int.cast_abs, Int.abs_eq_natAbs, Int.cast_natCast]
    exact_mod_cast hsmall
  exact ⟨by omega, readTimestamp_int hunits hdate hclock hoffset ht (by omega) (rounded_intCast (by omega))
    (abs_rounded_sub_le (by norm_num) hseconds)⟩

/-- Whole seconds come through in every year. -/
theorem whole_prepared_and_read (hunits : IsUnits units) (hdate : d.date.isValid = true)
    (hclock : d.clock.isValid = true) (hoffset : d.offset = some 0) (ht : t * 1000000 = d.microseconds * units)
    (hdvd : (units : Int) ∣ t) :
    t.natAbs < 2 ^ 63 ∧ prepareTimestamp units (.dateTime d) = .ok (.int t) ∧
      readTimestamp units (.int t) = .ok (.dateTime d) := by
  obtain ⟨k, hwhole⟩ := hdvd
  rw [Int.mul_comm] at hwhole
  have hmax : 0 < units ∧ units ≤ 1000000 := by rcases hunits with rfl | rfl <;> decide
  have hk : k.natAbs < 2 ^ 38 := by
    have hmicroseconds : k * 1000000 = d.microseconds := by
      apply Int.eq_of_mul_eq_mul_right (a := units) (by omega)
      rw [← ht, hwhole]
      ring
    have hbound := DateTime.natAbs_microseconds_lt hdate hclock hoffset
    omega
  have hsmall : t.natAbs < 2 ^ 63 := by
    rw [hwhole, Int.natAbs_mul, Int.natAbs_natCast]
    calc k.natAbs * units ≤ k.natAbs * 1000000 := Nat.mul_le_mul_left _ hmax.2
      _ < 2 ^ 63 := by omega
  have hcast : (k : ℚ) * units = t := by
    rw [hwhole, Int.cast_mul, Int.cast_natCast]
  have hquotient : (t : ℚ) / units = k := by
    have hne : (units : ℚ) ≠ 0 := by exact_mod_cast hmax.1.ne'
    rw [← hcast, mul_div_cancel_right₀ _ hne]
  obtain ⟨hseconds, hcount⟩ := rounded_whole hunits hk
  rw [hcast] at hcount
  refine ⟨hsmall, ?_, readTimestamp_int hunits hdate hclock hoffset ht hsmall hcount ?_⟩
  · rw [prepareTimestamp_dateTime hunits hoffset ht hsmall, hquotient, hseconds, hcast, hcount, truncate_intCast]
  · rw [hquotient, hseconds, sub_self, abs_zero]
    positivity

end Logical

namespace Code

open Binary AvroCodec.Logical

/-- A type of points of time, which are long integers, and its units of a second. -/
def Logical.IsTimestamp (l : Logical) (units : Nat) : Prop :=
  l.base = .str "long" ∧ (LogicalKind.ofName? l.kind = some .timestampMillis ∧ units = 1000 ∨
    LogicalKind.ofName? l.kind = some .timestampMicros ∧ units = 1000000)

namespace Logical.IsTimestamp

variable {l : Logical} {units : Nat} {v : Value}

theorem isUnits (h : l.IsTimestamp units) : IsUnits units := by
  rcases h.2 with ⟨-, rfl⟩ | ⟨-, rfl⟩
  · exact .inl rfl
  · exact .inr rfl

theorem writeLogical_eq (h : l.IsTimestamp units) {t : Int} (hprepare : prepareTimestamp units v = .ok (.int t))
    (hsmall : t.natAbs < 2 ^ 63) : Encoder.writeLogical l v = .ok (bytesOf t) := by
  have hlimit : limit = 2 ^ 63 := rfl
  have hencode : Primitive.write "long" (.int t) = .ok (bytesOf t) :=
    encode_of_range (by omega) (by omega)
  have hprepared : l.prepare v = .ok (.int t) := by
    rcases h.2 with ⟨hkind, rfl⟩ | ⟨hkind, rfl⟩ <;> simp only [Logical.prepare, hkind, hprepare]
  rw [Encoder.writeLogical, hprepared, ok_bind, h.1]
  exact hencode

theorem reads_readLogical (h : l.IsTimestamp units) {t : Int} (hread : readTimestamp units (.int t) = .ok v)
    (hsmall : t.natAbs < 2 ^ 63) : Reads (Decoder.readLogical l) (bytesOf t) v := by
  intro rest
  have hlimit : limit = 2 ^ 63 := rfl
  have hdecode : Primitive.read "long" (.obj l.params) (bytesOf t ++ rest) = .ok (.int t, rest) := by
    change Primitive.readInt _ = _
    rw [Primitive.readInt, reads_bytesOf ((zigzag_lt_modulus_iff t).2 ⟨by omega, by omega⟩), ok_bind]
    rfl
  have hinterpret : l.interpret (.int t) = .ok v := by
    rcases h.2 with ⟨hkind, rfl⟩ | ⟨hkind, rfl⟩ <;> simp only [Logical.interpret, hkind, hread]
  rw [Decoder.readLogical, h.1]
  dsimp only
  rw [hdecode, ok_bind]
  dsimp only
  rw [hinterpret, ok_bind]
  rfl

end Logical.IsTimestamp

/-- A point of time in universal time that is a whole number of units since 1970: the number is written
exactly if it is kept by the division into seconds, and may be one too small otherwise. It is read as the point
of time within 272 years of 1970. Whole seconds are written and read exactly in every year. -/
theorem timestamp_written_and_read {l : Logical} {units : Nat} (hl : l.IsTimestamp units) {d : DateTime}
    (hdate : d.date.isValid = true) (hclock : d.clock.isValid = true) (hoffset : d.offset = some 0) {t : Int}
    (ht : t * 1000000 = d.microseconds * units) :
    (t.natAbs < 2 ^ 53 → Kept units t.natAbs →
      Encoder.writeLogical l (.dateTime d) = .ok (bytesOf t)) ∧
    (t.natAbs < 2 ^ 52 → ∃ n, (n = t ∨ n = t - t.sign) ∧
      Encoder.writeLogical l (.dateTime d) = .ok (bytesOf n)) ∧
    (t.natAbs < 2 ^ 33 * units → Reads (Decoder.readLogical l) (bytesOf t) (.dateTime d)) ∧
    ((units : Int) ∣ t → Encoder.writeLogical l (.dateTime d) = .ok (bytesOf t) ∧
      Reads (Decoder.readLogical l) (bytesOf t) (.dateTime d)) := by
  have hunits := hl.isUnits
  refine ⟨?_, ?_, ?_, ?_⟩
  · intro hsmall hkept
    have hprepared := prepareTimestamp_dateTime hunits hoffset ht (by omega)
    rw [truncate_of_kept hunits hsmall hkept] at hprepared
    exact hl.writeLogical_eq hprepared (by omega)
  · intro hsmall
    have hprepared := prepareTimestamp_dateTime hunits hoffset ht (by omega)
    have hnear := truncate_near hunits hsmall
    refine ⟨_, hnear, hl.writeLogical_eq hprepared ?_⟩
    have hsign := Int.sign_trichotomy t
    omega
  · intro hsmall
    obtain ⟨hlimit, hread⟩ := readTimestamp_int_of_lt hunits hdate hclock hoffset ht hsmall
    exact hl.reads_readLogical hread hlimit
  · intro hdvd
    obtain ⟨hsmall, hprepared, hread⟩ := whole_prepared_and_read hunits hdate hclock hoffset ht hdvd
    exact ⟨hl.writeLogical_eq hprepared hsmall, hl.reads_readLogical hread hsmall⟩

def millis : Logical := { kind := "timestamp_millis", base := .str "long", params := [] }

theorem millis_isTimestamp : millis.IsTimestamp 1000 := ⟨rfl, .inl ⟨by decide, rfl⟩⟩

/-- A point of time of the year 2021. -/
theorem spring_written_and_read :
    Encoder.writeLogical millis (.dateTime ⟨⟨2021, 3, 4⟩, ⟨5, 6, 7, 89000⟩, some 0⟩) =
      .ok (bytesOf 1614834367089) ∧
    Decoder.readLogical millis (bytesOf 1614834367089) =
      .ok (.dateTime ⟨⟨2021, 3, 4⟩, ⟨5, 6, 7, 89000⟩, some 0⟩, []) := by
  obtain ⟨hwritten, -, hread, -⟩ := timestamp_written_and_read millis_isTimestamp
    (d := ⟨⟨2021, 3, 4⟩, ⟨5, 6, 7, 89000⟩, some 0⟩) (t := 1614834367089) (by decide) (by decide) rfl (by decide)
  have hrest := hread (by decide) []
  rw [List.append_nil] at hrest
  exact ⟨hwritten (by decide) (by decide), hrest⟩

/-- One second and one millisecond after the start of 1970 is written as one second. -/
theorem millisecond_lost :
    Encoder.writeLogical millis (.dateTime ⟨⟨1970, 1, 1⟩, ⟨0, 0, 1, 1000⟩, some 0⟩) =
      .ok (bytesOf 1000) ∧ bytesOf 1000 ≠ bytesOf 1001 := by
  have hwritten : (Encoder.writeLogical millis (.dateTime ⟨⟨1970, 1, 1⟩, ⟨0, 0, 1, 1000⟩, some 0⟩)).toOption =
      some (bytesOf 1000) := by
    decide +kernel
  exact ⟨Codec.eq_ok_of_toOption hwritten, by decide +kernel⟩

end Code

end AvroCodec
