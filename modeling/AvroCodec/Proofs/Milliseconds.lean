import AvroCodec.Proofs.Timestamps

/-!
# Times of day in milliseconds

A time of day is written as its milliseconds since midnight. The hour is read from them as a quotient by sixty
that is multiplied by sixty and by a thousand again, so it comes to a thousand for every millisecond. Only the
first millisecond of a day is read.
-/

namespace AvroCodec

namespace Binary.Number

/-- The relative error of a number that is multiplied and rounded grows by two units of the last digit at
most. -/
theorem abs_grid_mul_sub_le {x y e k : ℚ} (hy : |y - x| ≤ x * e) (he : e ≤ 1 / 2)
    (hk : 0 < k) (hx : 1 ≤ x * k) :
    |grid .double (y * k) - x * k| ≤ x * k * (e + 2 ^ (-52 : ℤ)) := by
  have hxpos : 0 < x := pos_of_mul_pos_left (by linarith) hk.le
  have hxe : x * e ≤ x * (1 / 2) := mul_le_mul_of_nonneg_left he hxpos.le
  obtain ⟨hlow, hup⟩ := abs_le.1 hy
  have hlarge : (2 : ℚ) ^ (-1000 : ℤ) ≤ y * k :=
    calc (2 : ℚ) ^ (-1000 : ℤ) ≤ 2 ^ (-1 : ℤ) := zpow_le_zpow_right₀ (by norm_num) (by norm_num)
      _ ≤ x * k * (1 / 2) := by norm_num; linarith
      _ = x * (1 / 2) * k := by ring
      _ ≤ y * k := mul_le_mul_of_nonneg_right (by linarith) hk.le
  have hround := abs_grid_sub_le_mul hlarge
  have hsmall : y ≤ 2 * x := by linarith
  have hsplit : grid .double (y * k) - x * k =
      (grid .double (y * k) - y * k) + (y - x) * k := by ring
  calc |grid .double (y * k) - x * k|
      ≤ |grid .double (y * k) - y * k| + |(y - x) * k| := hsplit ▸ abs_add_le _ _
    _ ≤ y * k * 2 ^ (-53 : ℤ) + x * e * k := by
      rw [abs_mul, abs_of_pos hk]
      exact add_le_add hround (mul_le_mul_of_nonneg_right hy hk.le)
    _ ≤ 2 * x * k * 2 ^ (-53 : ℤ) + x * e * k := by gcongr
    _ = x * k * (e + 2 ^ (-52 : ℤ)) := by
      have hpow : (2 : ℚ) ^ (-52 : ℤ) = 2 * 2 ^ (-53 : ℤ) := by norm_num
      rw [hpow]
      ring

theorem grid_sixtieth_bounds {n : Nat} (hpos : 0 < n) :
    (2 : ℚ) ^ (-1000 : ℤ) ≤ n / 60 ∧ (n : ℚ) / 120 ≤ grid .double ((n : ℚ) / 60) ∧
      grid .double ((n : ℚ) / 60) ≤ n / 30 := by
  have hn : (1 : ℚ) ≤ n := by exact_mod_cast hpos
  have hlarge : (2 : ℚ) ^ (-1000 : ℤ) ≤ n / 60 :=
    calc (2 : ℚ) ^ (-1000 : ℤ) ≤ 2 ^ (-6 : ℤ) := zpow_le_zpow_right₀ (by norm_num) (by norm_num)
      _ ≤ n / 60 := by norm_num; linarith
  obtain ⟨hlow, hup⟩ := abs_le.1 (abs_grid_sub_le_mul hlarge)
  norm_num at hlow hup
  exact ⟨hlarge, by linarith, by linarith⟩

theorem abs_grid_grid_grid_sub_lt_one {n : Nat} (hpos : 0 < n) (hn : n < 2 ^ 40) :
    |grid .double (grid .double (grid .double ((n : ℚ) / 60) * 60) * 1000) - (n * 1000 : Nat)| < 1 := by
  have hn1 : (1 : ℚ) ≤ n := by exact_mod_cast hpos
  have hn2 : (n : ℚ) < 1099511627776 := by exact_mod_cast hn
  have hminute := abs_grid_sub_le_mul (grid_sixtieth_bounds hpos).1
  have hmillis := abs_grid_mul_sub_le hminute (by norm_num) (k := 60) (by norm_num)
    (by rw [div_mul_cancel₀ _ (by norm_num)]; exact hn1)
  rw [div_mul_cancel₀ _ (by norm_num)] at hmillis
  have hhour := abs_grid_mul_sub_le hmillis (by norm_num) (k := 1000) (by norm_num) (by linarith)
  rw [Nat.cast_mul, Nat.cast_ofNat]
  refine hhour.trans_lt ?_
  norm_num
  linarith

end Binary.Number

namespace Logical

open Binary Binary.Number

theorem toRat?_scale_of_lt {x : Number} {y k : ℚ} (hx : x.toRat? = some y) (hy : 0 ≤ y)
    (hk : 0 ≤ k) (hlt : y * k < 2 ^ 53) :
    (x.scale .double k).toRat? = some (grid .double (y * k)) := by
  have hnonneg : 0 ≤ y * k := mul_nonneg hy hk
  have hpow : (2 : ℚ) ^ 53 ≤ 2 ^ (1000 : ℤ) := by
    exact_mod_cast pow_le_pow_right₀ (by norm_num) (by norm_num)
  rw [toRat?_scale hx ((abs_of_nonneg hnonneg).trans_lt (hlt.trans_le hpow)), rounded_of_nonneg hnonneg]

theorem integerPart_grid {x : Number} {y : ℚ} (hx : x.toRat? = some (grid .double y)) (hy : 0 ≤ y) :
    integerPart x = .ok ⌊grid .double y⌋ := by
  rw [integerPart_of_toRat? hx, truncate_of_nonneg (grid_nonneg hy)]

theorem fits32_of_lt {n : Nat} (hn : n < 2147483648) : fits32 n = true := by
  simp only [fits32, Bool.and_eq_true, decide_eq_true_eq]
  omega

theorem clockOf_of_hour {hour minute second microsecond : Nat} (hh : 24 ≤ hour) (hm : minute < 60)
    (hs : second < 60) (hu : microsecond < 1000000) :
    clockOf hour minute second microsecond =
      .error (if hour < 2147483648 then .invalid else .outOfRange) := by
  rw [clockOf, fits32_of_lt (n := minute) (by omega), fits32_of_lt (n := second) (by omega),
    fits32_of_lt (n := microsecond) (by omega)]
  by_cases hfits : hour < 2147483648
  · have hinvalid : ¬ hour < 24 := by omega
    simp [fits32_of_lt hfits, hfits, Clock.isValid, hinvalid]
  · have hlarge : fits32 (hour : Int) = false := by
      simp only [fits32, Bool.and_eq_false_iff, decide_eq_false_iff_not]
      omega
    simp [hlarge, hfits]

/-- A number of milliseconds of a day, other than zero, is read as an hour beyond the day. -/
theorem exists_clockOf_of_readMillis {n : Nat} (hpos : 0 < n) (hn : n < 86400000) :
    ∃ hour minute : Nat, (hour = n * 1000 ∨ hour = n * 1000 - 1) ∧ minute < 60 ∧
      readMillis (.int n) = clockOf hour minute (n / 1000 % 60 : Nat) (n % 1000 * 1000 : Nat) := by
  have hsmall : n < 2 ^ 53 := by omega
  have hn0 : (0 : ℚ) ≤ n := n.cast_nonneg
  have hn1 : (n : ℚ) < 86400000 := by exact_mod_cast hn
  obtain ⟨x, hx, hvalue⟩ := exists_quotient hsmall (d := 60) (by decide)
  obtain ⟨z, hz, hsecond⟩ := exists_integerPart_quotient hsmall (d := 1000) (by decide) (by decide)
  obtain ⟨-, hlow, hup⟩ := grid_sixtieth_bounds hpos
  have hproduct := abs_grid_div_mul_grid_sub_lt_one (u := 60) (by decide) (by decide) hpos (by omega)
  have hclose := abs_grid_grid_grid_sub_lt_one hpos (by omega)
  rw [Nat.cast_ofNat] at hvalue hproduct
  generalize grid .double ((n : ℚ) / 60) = y at hvalue hlow hup hproduct hclose
  have hy : 0 ≤ y := by linarith
  have hmillis := toRat?_scale_of_lt hvalue hy (k := 60) (by norm_num) (by linarith)
  have hminute := toRat?_scale_of_lt hvalue hy (k := 1000) (by norm_num) (by linarith)
  have hz0 : 0 ≤ grid .double (y * 60) := grid_nonneg (by linarith)
  generalize grid .double (y * 60) = z' at hmillis hproduct hclose hz0
  have hhour := toRat?_scale_of_lt hmillis hz0 (k := 1000) (by norm_num)
    (by linarith [(abs_lt.1 hproduct).2])
  have hhourPart := integerPart_grid hhour (by linarith)
  have hminutePart := integerPart_grid hminute (by linarith)
  obtain ⟨hour, hour_eq⟩ : ∃ hour : Nat, ⌊grid .double (z' * 1000)⌋ = (hour : Int) :=
    Int.eq_ofNat_of_zero_le (Int.floor_nonneg.2 (grid_nonneg (by linarith)))
  obtain ⟨minute, minute_eq⟩ : ∃ minute : Nat, ⌊grid .double (y * 1000)⌋ = (minute : Int) :=
    Int.eq_ofNat_of_zero_le (Int.floor_nonneg.2 (grid_nonneg (by linarith)))
  have hnear : hour = n * 1000 ∨ hour = n * 1000 - 1 := by
    rcases floor_eq_or hclose with h | h <;> omega
  have hremainder : remainder (.int n) 1000 = .ok ((n % 1000 : Nat) : Int) := by
    simp only [remainder, Value.toInt?, fmod_natCast]
  have hsixty : (60 : Int) = ((60 : Nat) : Int) := rfl
  refine ⟨hour, minute % 60, hnear, Nat.mod_lt _ (by decide), ?_⟩
  rw [readMillis, hx, ok_bind, hhourPart, ok_bind, hminutePart, ok_bind, hz, ok_bind, hsecond, ok_bind,
    hremainder, ok_bind, hour_eq, minute_eq, hsixty, fmod_natCast, fmod_natCast]
  push_cast
  rfl

theorem readMillis_of_pos {n : Nat} (hpos : 0 < n) (hn : n < 86400000) :
    readMillis (.int n) = .error (if n < 2147484 then .invalid else .outOfRange) := by
  obtain ⟨hour, minute, hnear, hminute, hread⟩ := exists_clockOf_of_readMillis hpos hn
  rw [hread, clockOf_of_hour (by omega) hminute (by omega) (by omega)]
  congr 1
  by_cases hlt : n < 2147484
  · rw [if_pos hlt, if_pos (by omega)]
  · rw [if_neg hlt, if_neg (by omega)]

def isMidnight : Except CodecError Value → Bool
  | .ok (.clock c) => c == ⟨0, 0, 0, 0⟩
  | _ => false

theorem eq_of_isMidnight {o : Except CodecError Value} (h : isMidnight o = true) :
    o = .ok (.clock ⟨0, 0, 0, 0⟩) := by
  rcases o with e | v
  · cases h
  · cases v with
    | clock c => exact congrArg (fun c => Except.ok (Value.clock c)) (eq_of_beq h)
    | _ => cases h

theorem readMillis_zero : readMillis (.int 0) = .ok (.clock ⟨0, 0, 0, 0⟩) :=
  eq_of_isMidnight (by decide +kernel)

/-- A time of day is written as its milliseconds since midnight. It is read back, with its microseconds cut to
whole milliseconds, if there are none of these; any other is refused as an hour that does not exist, or that has
no room in 32 bits. -/
theorem millis_written_and_read {c : Clock} (hh : c.hour < 24) (hm : c.minute < 60) (hs : c.second < 60)
    (hu : c.microsecond < 1000000) :
    ∃ n : Nat, n = c.hour * 3600000 + c.minute * 60000 + c.second * 1000 + c.microsecond / 1000 ∧
      prepareMillis (.clock c) = .ok (.int n) ∧
      readMillis (.int n) =
        if n = 0 then .ok (.clock { c with microsecond := c.microsecond / 1000 * 1000 })
        else .error (if n < 2147484 then .invalid else .outOfRange) := by
  obtain ⟨hour, minute, second, microsecond⟩ := c
  simp only at *
  refine ⟨_, rfl, ?_, ?_⟩
  · have hsum : (hour * 3600 + minute * 60 + second) * 1000 + microsecond / 1000 =
        hour * 3600000 + minute * 60000 + second * 1000 + microsecond / 1000 := by omega
    rw [← hsum]
    rfl
  · generalize hn : hour * 3600000 + minute * 60000 + second * 1000 + microsecond / 1000 = n
    by_cases hzero : n = 0
    · obtain ⟨rfl, rfl, rfl, hmicro⟩ : hour = 0 ∧ minute = 0 ∧ second = 0 ∧ microsecond / 1000 = 0 := by omega
      rw [if_pos hzero, hzero, hmicro]
      exact readMillis_zero
    · rw [if_neg hzero, readMillis_of_pos (by omega) (by omega)]

/-- A minute after midnight, and a time in the first millisecond. -/
theorem minute_written_not_read :
    (prepareMillis (.clock ⟨0, 1, 0, 0⟩) = .ok (.int 60000) ∧ readMillis (.int 60000) = .error .invalid) ∧
      readMillis (.int 0) = .ok (.clock ⟨0, 0, 0, 0⟩) := by
  obtain ⟨n, rfl, hprepared, hread⟩ := millis_written_and_read (c := ⟨0, 1, 0, 0⟩)
    (by decide) (by decide) (by decide) (by decide)
  obtain ⟨m, rfl, -, hread'⟩ := millis_written_and_read (c := ⟨0, 0, 0, 999⟩)
    (by decide) (by decide) (by decide) (by decide)
  exact ⟨⟨hprepared, hread⟩, hread'⟩

/-- The first time of day, in whole milliseconds, that is not read back. -/
theorem millisecond_not_read :
    prepareMillis (.clock ⟨0, 0, 0, 1000⟩) = .ok (.int 1) ∧
      readMillis (.int 1) ≠ .ok (.clock ⟨0, 0, 0, 1000⟩) := by
  have hread := readMillis_of_pos (n := 1) (by decide) (by decide)
  rw [Nat.cast_one] at hread
  rw [hread]
  exact ⟨rfl, nofun⟩

end Logical

end AvroCodec
