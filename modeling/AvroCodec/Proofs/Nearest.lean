import AvroCodec.Proofs.Rounding
import Mathlib.Algebra.Order.Floor.Ring
import Mathlib.Tactic.Positivity

/-!
# The error of rounding

A rational is rounded to a multiple of the last digit of the numbers around it, so the error is half a unit of
that digit at most. A rational that is closer than that to such a multiple is rounded to it.
-/

namespace AvroCodec.Binary

variable {x : ℚ} {n : Int}

/-! ### Integers near a rational -/

theorem nearest_eq_floor_or (x : ℚ) :
    (nearest x = ⌊x⌋ ∧ x - ⌊x⌋ ≤ 1 / 2) ∨ (nearest x = ⌊x⌋ + 1 ∧ 1 / 2 ≤ x - ⌊x⌋) := by
  have hfloor : x.floor = ⌊x⌋ := rfl
  have hhalf : mkRat 1 2 = (1 / 2 : ℚ) := by rw [Rat.mkRat_eq_div]; norm_num
  unfold nearest
  simp only [hfloor, hhalf]
  split_ifs with hlow hhigh heven
  · exact .inl ⟨rfl, hlow.le⟩
  · exact .inr ⟨rfl, hhigh.le⟩
  · exact .inl ⟨rfl, not_lt.1 hhigh⟩
  · exact .inr ⟨rfl, not_lt.1 hlow⟩

theorem abs_nearest_sub_le (x : ℚ) : |(nearest x : ℚ) - x| ≤ 1 / 2 := by
  have hlow := Int.floor_le x
  have hhigh := Int.lt_floor_add_one x
  rw [abs_le]
  rcases nearest_eq_floor_or x with ⟨h, hx⟩ | ⟨h, hx⟩
  · rw [h]
    constructor <;> linarith
  · rw [h]
    push_cast
    constructor <;> linarith

theorem nearest_eq_of_abs_lt (h : |x - n| < 1 / 2) : nearest x = n := by
  have herror := abs_nearest_sub_le x
  rw [abs_lt] at h
  rw [abs_le] at herror
  have hlow : (nearest x : ℚ) < n + 1 := by linarith
  have hhigh : (n : ℚ) < nearest x + 1 := by linarith
  have hlow' : nearest x < n + 1 := by exact_mod_cast hlow
  have hhigh' : n < nearest x + 1 := by exact_mod_cast hhigh
  omega

theorem nearest_nonneg (h : 0 ≤ x) : 0 ≤ nearest x := by
  have hfloor : 0 ≤ ⌊x⌋ := Int.floor_nonneg.2 h
  rcases nearest_eq_floor_or x with ⟨hn, -⟩ | ⟨hn, -⟩ <;> omega

theorem nearest_le (h : x ≤ n) : nearest x ≤ n := by
  have herror := (abs_le.1 (abs_nearest_sub_le x)).2
  have hlt : (nearest x : ℚ) < n + 1 := by linarith
  have : nearest x < n + 1 := by exact_mod_cast hlt
  omega

theorem le_nearest (h : (n : ℚ) ≤ x) : n ≤ nearest x := by
  have herror := (abs_le.1 (abs_nearest_sub_le x)).1
  have hlt : (n : ℚ) < nearest x + 1 := by linarith
  have : n < nearest x + 1 := by exact_mod_cast hlt
  omega

theorem truncate_of_nonneg (h : 0 ≤ x) : truncate x = ⌊x⌋ := if_neg (not_lt.2 h)

theorem truncate_neg (h : 0 ≤ x) : truncate (-x) = -truncate x := by
  rcases h.eq_or_lt with rfl | hpos
  · rfl
  · have hneg : -x < 0 := by linarith
    rw [truncate, if_pos hneg, neg_neg, truncate_of_nonneg h]
    rfl

theorem truncate_intCast (n : Int) : truncate n = n := by
  obtain ⟨m, rfl | rfl⟩ := n.eq_nat_or_neg
  · rw [Int.cast_natCast, truncate_of_nonneg (by positivity), Int.floor_natCast]
  · rw [Int.cast_neg, Int.cast_natCast, truncate_neg (by positivity), truncate_of_nonneg (by positivity),
      Int.floor_natCast]

/-! ### Multiples of the last digit -/

namespace Number

/-- The multiple of the last digit of the numbers around it that a rational is rounded to. -/
def grid (f : Format) (x : ℚ) : ℚ :=
  nearest (x / 2 ^ lastExponent f x) * 2 ^ lastExponent f x

variable {f : Format} {x : ℚ}

theorem grid_zero (f : Format) : grid f 0 = 0 := by
  have hzero : nearest 0 = 0 := nearest_natCast 0
  rw [grid, zero_div, hzero, Int.cast_zero, zero_mul]

theorem grid_nonneg (h : 0 ≤ x) : 0 ≤ grid f x := by
  have hn : 0 ≤ nearest (x / 2 ^ lastExponent f x) := nearest_nonneg (by positivity)
  have hn' : (0 : ℚ) ≤ nearest (x / 2 ^ lastExponent f x) := by exact_mod_cast hn
  exact mul_nonneg hn' (by positivity)

theorem abs_grid_sub_le (f : Format) (x : ℚ) : |grid f x - x| ≤ 2 ^ (lastExponent f x - 1) := by
  have hpos : (0 : ℚ) < 2 ^ lastExponent f x := by positivity
  have hsplit : grid f x - x =
      ((nearest (x / 2 ^ lastExponent f x) : ℚ) - x / 2 ^ lastExponent f x) * 2 ^ lastExponent f x := by
    rw [grid, sub_mul, div_mul_cancel₀ _ hpos.ne']
  rw [hsplit, abs_mul, abs_of_pos hpos, zpow_sub₀ (by norm_num), zpow_one]
  calc _ ≤ 1 / 2 * (2 : ℚ) ^ lastExponent f x :=
        mul_le_mul_of_nonneg_right (abs_nearest_sub_le _) hpos.le
    _ = 2 ^ lastExponent f x / 2 := by ring

theorem div_lastExponent_lt (hp : 0 < f.precision) (hx : 0 < x) :
    x / 2 ^ lastExponent f x < (2 * f.unit : Nat) := by
  have hunit : ((2 * f.unit : Nat) : ℚ) = 2 ^ (f.precision : ℤ) := by
    have : 2 * f.unit = 2 ^ f.precision := by
      change 2 * 2 ^ (f.precision - 1) = _
      rw [← pow_succ', Nat.sub_add_cancel hp]
    rw [this, zpow_natCast, Nat.cast_pow, Nat.cast_ofNat]
  rw [hunit, div_lt_iff₀ (by positivity), ← zpow_add₀ (by norm_num)]
  calc x < 2 ^ (leading x + 1) := (leading_bounds hx).2
    _ ≤ 2 ^ ((f.precision : ℤ) + lastExponent f x) := by
      apply zpow_le_zpow_right₀ (by norm_num)
      unfold lastExponent
      omega

theorem unit_le_div_lastExponent (hx : 0 < x) (he : lastExponent f x ≠ f.least) :
    (f.unit : ℚ) ≤ x / 2 ^ lastExponent f x := by
  have hunit : (f.unit : ℚ) = 2 ^ ((f.precision - 1 : Nat) : ℤ) := by
    rw [zpow_natCast]
    exact Nat.cast_pow 2 _
  rw [hunit, le_div_iff₀ (by positivity), ← zpow_add₀ (by norm_num)]
  calc (2 : ℚ) ^ (((f.precision - 1 : Nat) : ℤ) + lastExponent f x) ≤ 2 ^ leading x := by
        apply zpow_le_zpow_right₀ (by norm_num)
        unfold lastExponent at he ⊢
        omega
    _ ≤ x := (leading_bounds hx).1

theorem toRat?_ofBits {m : Nat} {e : Int} (hle : f.least ≤ e) (hm : m ≤ 2 * f.unit)
    (hnormal : e = f.least ∨ f.unit ≤ m) (htop : (e - f.least).toNat + 2 < f.top) (negative : Bool) :
    (ofBits f ((finite negative m e).toBits f)).toRat? = (finite negative m e).toRat? := by
  by_cases hlt : m < 2 * f.unit
  · rw [ofBits_toBits ⟨hle, hlt, hnormal, by omega⟩]
  · have hunit := f.unit_pos
    have hm' : m = 2 * f.unit := by omega
    have hexp : (e + 1 - f.least).toNat = (e - f.least).toNat + 1 := by omega
    have hbits : (finite negative m e).toBits f = (finite negative f.unit (e + 1)).toBits f := by
      have hsum : (e - f.least).toNat * f.unit + m = (e + 1 - f.least).toNat * f.unit + f.unit := by
        rw [hexp, hm']
        ring
      simp only [toBits, hsum]
    rw [hbits, ofBits_toBits ⟨by omega, by omega, .inr le_rfl, by omega⟩]
    simp only [toRat?, twoPow_eq, hm']
    rw [zpow_add₀ (by norm_num)]
    push_cast
    ring_nf

theorem toRat?_round_of_pos (hp : 0 < f.precision) (hx : 0 < x)
    (htop : (lastExponent f x - f.least).toNat + 2 < f.top) (negative : Bool) :
    (round f negative x).toRat? = some (grid f x) ∧ (round f negative (-x)).toRat? = some (-grid f x) := by
  have hneg : -x < 0 := by linarith
  have hquotient : x / twoPow (lastExponent f x) = x / 2 ^ lastExponent f x := by rw [twoPow_eq]
  obtain ⟨m, hm⟩ := Int.eq_ofNat_of_zero_le
    (nearest_nonneg (x := x / 2 ^ lastExponent f x) (by positivity))
  have hmle : m ≤ 2 * f.unit := by
    have hle : nearest (x / 2 ^ lastExponent f x) ≤ (2 * f.unit : Nat) :=
      nearest_le (by exact_mod_cast (div_lastExponent_lt hp hx).le)
    omega
  have hnormal : lastExponent f x = f.least ∨ f.unit ≤ m := by
    by_cases he : lastExponent f x = f.least
    · exact .inl he
    · have hle : (f.unit : Int) ≤ nearest (x / 2 ^ lastExponent f x) :=
        le_nearest (by exact_mod_cast unit_le_div_lastExponent hx he)
      exact .inr (by omega)
  have hleast : f.least ≤ lastExponent f x := le_max_left _ _
  constructor
  · simp only [round, hx.ne', if_false, hx.not_gt, decide_false, hquotient, hm, Int.toNat_natCast]
    rw [toRat?_ofBits hleast hmle hnormal htop]
    simp only [toRat?, twoPow_eq, grid, hm, Bool.false_eq_true, if_false, Int.cast_natCast]
  · simp only [round, hneg.ne, if_false, hneg, if_true, decide_true, neg_neg, hquotient, hm,
      Int.toNat_natCast]
    rw [toRat?_ofBits hleast hmle hnormal htop]
    simp only [toRat?, twoPow_eq, grid, hm, if_true, Int.cast_natCast]

/-! ### Numbers of 64 bits -/

/-- The value that a rational has as a floating-point number of 64 bits. -/
def rounded (x : ℚ) : ℚ := if x < 0 then -grid .double (-x) else grid .double x

theorem rounded_of_nonneg (h : 0 ≤ x) : rounded x = grid .double x := if_neg (not_lt.2 h)

theorem rounded_neg (h : 0 ≤ x) : rounded (-x) = -rounded x := by
  rcases h.eq_or_lt with rfl | hpos
  · rw [neg_zero, rounded_of_nonneg le_rfl, grid_zero, neg_zero]
  · rw [rounded, if_pos (by linarith), neg_neg, rounded_of_nonneg h]

theorem leading_lt (hx : 0 < x) {a : ℤ} (h : x < 2 ^ a) : leading x < a :=
  (zpow_lt_zpow_iff_right₀ (by norm_num)).1 ((leading_bounds hx).1.trans_lt h)

theorem toRat?_round (negative : Bool) (h : |x| < 2 ^ (1000 : ℤ)) :
    (round .double negative x).toRat? = some (rounded x) := by
  have hleast : Format.double.least = -1074 := rfl
  have htop : Format.double.top = 2047 := rfl
  have hbound : ∀ y : ℚ, 0 < y → y < 2 ^ (1000 : ℤ) →
      (lastExponent .double y - Format.double.least).toNat + 2 < Format.double.top := by
    intro y hy hlt
    have hlead := leading_lt hy hlt
    have hprecision : ((Format.double.precision - 1 : Nat) : Int) = 52 := rfl
    rw [lastExponent, hleast, htop, hprecision]
    omega
  rcases lt_trichotomy x 0 with hx | rfl | hx
  · have hpos : 0 < -x := by linarith
    rw [abs_of_neg hx] at h
    have hround := (toRat?_round_of_pos (by decide) hpos (hbound _ hpos h) negative).2
    rw [neg_neg] at hround
    rw [hround, rounded, if_pos hx]
  · rw [rounded_of_nonneg le_rfl, grid_zero, round, if_pos rfl]
    cases negative <;> simp [toRat?]
  · rw [abs_of_pos hx] at h
    rw [(toRat?_round_of_pos (by decide) hx (hbound _ hx h) negative).1, rounded_of_nonneg hx.le]

theorem toRat?_ofRat (h : |x| < 2 ^ (1000 : ℤ)) : (ofRat .double x).toRat? = some (rounded x) :=
  toRat?_round _ h

theorem toRat?_scale {n : Number} (hn : n.toRat? = some x) {factor : ℚ} (h : |x * factor| < 2 ^ (1000 : ℤ)) :
    (n.scale .double factor).toRat? = some (rounded (x * factor)) := by
  cases n with
  | finite negative m e =>
    simp only [scale, hn]
    exact toRat?_round negative h
  | infinite negative => cases hn
  | nan => cases hn

variable {a : ℤ}

theorem lastExponent_double (ha : -1000 ≤ a) (hlow : 2 ^ a ≤ x) (hup : x < 2 ^ (a + 1)) :
    lastExponent .double x = a - 52 := by
  have hleast : Format.double.least = -1074 := rfl
  have hprecision : ((Format.double.precision - 1 : Nat) : Int) = 52 := rfl
  rw [lastExponent, leading_eq hlow hup, hleast, hprecision]
  omega

theorem abs_grid_sub_le_of_bounds (ha : -1000 ≤ a) (hlow : 2 ^ a ≤ x) (hup : x < 2 ^ (a + 1)) :
    |grid .double x - x| ≤ 2 ^ (a - 53) := by
  have herror := abs_grid_sub_le .double x
  rw [lastExponent_double ha hlow hup, show a - 52 - 1 = a - 53 by ring] at herror
  exact herror

theorem abs_grid_sub_le_mul (hx : 2 ^ (-1000 : ℤ) ≤ x) : |grid .double x - x| ≤ x * 2 ^ (-53 : ℤ) := by
  have hpos : 0 < x := lt_of_lt_of_le (by positivity) hx
  obtain ⟨hlow, hup⟩ := leading_bounds hpos
  have ha : -1000 < leading x + 1 := (zpow_lt_zpow_iff_right₀ (by norm_num)).1 (hx.trans_lt hup)
  calc |grid .double x - x| ≤ 2 ^ (leading x - 53) := abs_grid_sub_le_of_bounds (by omega) hlow hup
    _ = 2 ^ leading x * 2 ^ (-53 : ℤ) := by rw [← zpow_add₀ (by norm_num)]; rfl
    _ ≤ x * 2 ^ (-53 : ℤ) := mul_le_mul_of_nonneg_right hlow (by positivity)

theorem grid_eq_of_abs_lt {y : ℚ} {k : Int} (ha : -1000 ≤ a) (hlow : 2 ^ a ≤ x) (hup : x < 2 ^ (a + 1))
    (hy : y = k * 2 ^ (a - 52)) (h : |x - y| < 2 ^ (a - 53)) : grid .double x = y := by
  have hpos : (0 : ℚ) < 2 ^ (a - 52) := by positivity
  have hhalf : (2 : ℚ) ^ (a - 53) = 1 / 2 * 2 ^ (a - 52) := by
    rw [show a - 53 = -1 + (a - 52) by ring, zpow_add₀ (by norm_num)]
    norm_num
  have hclose : |x / 2 ^ (a - 52) - k| < 1 / 2 := by
    have hsplit : x - y = (x / 2 ^ (a - 52) - k) * 2 ^ (a - 52) := by
      rw [hy, sub_mul, div_mul_cancel₀ _ hpos.ne']
    rw [hsplit, abs_mul, abs_of_pos hpos, hhalf] at h
    exact lt_of_mul_lt_mul_right h hpos.le
  rw [grid, lastExponent_double ha hlow hup, nearest_eq_of_abs_lt hclose, hy]

/-- A number with at most 53 digits is kept. -/
theorem grid_eq_self {k : Nat} {j : ℤ} (hk : k < 2 ^ 53) (hj : -900 ≤ j) :
    grid .double (k * 2 ^ j) = k * 2 ^ j := by
  rcases Nat.eq_zero_or_pos k with rfl | hpos
  · rw [Nat.cast_zero, zero_mul, grid_zero]
  · have hlog : k.log2 ≤ 52 := by
      have := (Nat.log2_lt hpos.ne').2 hk
      omega
    have h1 : (2 : ℚ) ^ k.log2 ≤ k := by exact_mod_cast Nat.log2_self_le hpos.ne'
    have h2 : (k : ℚ) < 2 ^ (k.log2 + 1) := by exact_mod_cast Nat.lt_log2_self
    have hlow : (2 : ℚ) ^ (k.log2 + j) ≤ k * 2 ^ j := by
      rw [zpow_add₀ (by norm_num), zpow_natCast]
      exact mul_le_mul_of_nonneg_right h1 (by positivity)
    have hup : (k : ℚ) * 2 ^ j < 2 ^ (k.log2 + j + 1) := by
      rw [show (k.log2 : ℤ) + j + 1 = ((k.log2 + 1 : ℕ) : ℤ) + j by push_cast; ring,
        zpow_add₀ (by norm_num), zpow_natCast]
      exact mul_lt_mul_of_pos_right h2 (by positivity)
    have hsplit : (k : ℚ) * 2 ^ j =
        ((k * 2 ^ (52 - k.log2) : Nat) : Int) * 2 ^ ((k.log2 : ℤ) + j - 52) := by
      have hexp : j = ((52 - k.log2 : Nat) : ℤ) + ((k.log2 : ℤ) + j - 52) := by omega
      conv_lhs => rw [hexp, zpow_add₀ (by norm_num), zpow_natCast]
      push_cast
      ring
    apply grid_eq_of_abs_lt (by omega) hlow hup hsplit
    rw [sub_self, abs_zero]
    positivity

theorem grid_natCast {n : Nat} (h : n < 2 ^ 53) : grid .double n = n := by
  have hself := grid_eq_self (j := 0) h (by norm_num)
  rwa [zpow_zero, mul_one] at hself

/-- The integer part of a quotient is not changed by rounding. -/
theorem floor_grid_div {n d : Nat} (hn : n < 2 ^ 53) (hd : 0 < d) (hd' : d < 2 ^ 53) :
    ⌊grid .double ((n : ℚ) / d)⌋ = ((n / d : Nat) : Int) := by
  have hdpos : (0 : ℚ) < d := by exact_mod_cast hd
  have hparts := Nat.div_add_mod n d
  have hmod := Nat.mod_lt n hd
  generalize hq : n / d = q at hparts ⊢
  generalize n % d = r at hparts hmod
  have hn' : (n : ℚ) = d * q + r := by exact_mod_cast hparts.symm
  rcases Nat.eq_zero_or_pos r with rfl | hr
  · have hexact : (n : ℚ) / d = q := by
      rw [hn', Nat.cast_zero, add_zero, mul_div_cancel_left₀ _ hdpos.ne']
    have hle : q ≤ n := hq ▸ Nat.div_le_self n d
    rw [hexact, grid_natCast (by omega), Int.floor_natCast]
  · -- Between two integers the error is less than the distance to either.
    have hr1 : (1 : ℚ) ≤ r := by exact_mod_cast hr
    have hr2 : (r : ℚ) + 1 ≤ d := by exact_mod_cast hmod
    have hx : (n : ℚ) / d = q + r / d := by
      rw [hn', add_div, mul_div_cancel_left₀ _ hdpos.ne']
    have hone : (1 : ℚ) / d ≤ r / d := by gcongr
    have hlast : (r : ℚ) / d + 1 / d ≤ 1 := by
      rw [← add_div, div_le_one hdpos]
      exact hr2
    have hlarge : (2 : ℚ) ^ (-1000 : ℤ) ≤ n / d := by
      have hpow : (d : ℚ) ≤ 2 ^ (53 : ℤ) := by
        have : (d : ℚ) < 2 ^ 53 := by exact_mod_cast hd'
        exact_mod_cast this.le
      calc (2 : ℚ) ^ (-1000 : ℤ) ≤ 2 ^ (-53 : ℤ) := zpow_le_zpow_right₀ (by norm_num) (by norm_num)
        _ = 1 / 2 ^ (53 : ℤ) := by rw [zpow_neg, one_div]
        _ ≤ 1 / d := by gcongr
        _ ≤ r / d := hone
        _ ≤ n / d := by rw [hx]; linarith [Nat.cast_nonneg (α := ℚ) q]
    have herror : |grid .double ((n : ℚ) / d) - n / d| < 1 / d := by
      refine (abs_grid_sub_le_mul hlarge).trans_lt ?_
      have hlt : (n : ℚ) * 2 ^ (-53 : ℤ) < 1 := by
        have : (n : ℚ) < 2 ^ 53 := by exact_mod_cast hn
        rw [zpow_neg, ← div_eq_mul_inv, div_lt_one (by positivity)]
        exact_mod_cast this
      rw [div_mul_eq_mul_div]
      gcongr
    rw [hx, abs_lt] at herror
    rw [Int.floor_eq_iff, hx]
    push_cast
    constructor <;> linarith

end Number

end AvroCodec.Binary
