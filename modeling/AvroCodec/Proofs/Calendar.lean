import AvroCodec.Calendar
import AvroCodec.Proofs.TimeOfDay

/-!
# Days by their number

A day of the calendar is found again from its number, and a point of time from its microseconds since 1970.
-/

namespace AvroCodec

namespace Date

variable {month : Nat} {d : Date}

/-! ### Years -/

theorem exists_year_parts {year : Nat} (h : 1 ≤ year) : ∃ a b c r, b ≤ 3 ∧ c ≤ 24 ∧ r ≤ 3 ∧
    year = 400 * a + 100 * b + 4 * c + r + 1 :=
  ⟨(year - 1) / 400, (year - 1) % 400 / 100, (year - 1) % 100 / 4, (year - 1) % 4,
    by omega, by omega, by omega, by omega⟩

variable {a b c r : Nat}

theorem daysBeforeYear_parts (hb : b ≤ 3) (hc : c ≤ 24) (hr : r ≤ 3) :
    daysBeforeYear (400 * a + 100 * b + 4 * c + r + 1) = 146097 * a + 36524 * b + 1461 * c + 365 * r := by
  have hfour : (400 * a + 100 * b + 4 * c + r) / 4 = 100 * a + 25 * b + c := by omega
  have hhundred : (400 * a + 100 * b + 4 * c + r) / 100 = 4 * a + b := by omega
  have hfourHundred : (400 * a + 100 * b + 4 * c + r) / 400 = a := by omega
  simp only [daysBeforeYear, Nat.add_sub_cancel, hfour, hhundred, hfourHundred]
  omega

theorem isLeap_parts (hb : b ≤ 3) (hc : c ≤ 24) (hr : r ≤ 3) :
    isLeap (400 * a + 100 * b + 4 * c + r + 1) = true ↔ r = 3 ∧ (c ≠ 24 ∨ b = 3) := by
  simp only [isLeap, Bool.and_eq_true, Bool.or_eq_true, beq_iff_eq, bne_iff_ne]
  omega

def daysInYear (year : Nat) : Nat := if isLeap year then 366 else 365

/-- The year of a day is found from the days before it. -/
theorem yearAfter_daysBeforeYear {year dayOfYear : Nat} (hyear : 1 ≤ year) (hday : dayOfYear < daysInYear year) :
    yearAfter (daysBeforeYear year + dayOfYear) = year := by
  obtain ⟨a, b, c, r, hb, hc, hr, rfl⟩ := exists_year_parts hyear
  have hleap : dayOfYear = 365 → r = 3 ∧ (c ≠ 24 ∨ b = 3) := by
    intro h365
    rw [← isLeap_parts (a := a) hb hc hr]
    by_contra hleap
    rw [daysInYear, if_neg hleap] at hday
    omega
  have hbound : dayOfYear ≤ 365 := by
    unfold daysInYear at hday
    split_ifs at hday <;> omega
  rw [daysBeforeYear_parts hb hc hr]
  -- The last day of a century, and of a fourth year, is the only one that the minima are needed for.
  have hcycle : (146097 * a + 36524 * b + 1461 * c + 365 * r + dayOfYear) / 146097 = a := by omega
  have hcenturyDays : (146097 * a + 36524 * b + 1461 * c + 365 * r + dayOfYear) % 146097 =
      36524 * b + 1461 * c + 365 * r + dayOfYear := by omega
  have hcentury : min ((36524 * b + 1461 * c + 365 * r + dayOfYear) / 36524) 3 = b := by omega
  have hfourthDays : 36524 * b + 1461 * c + 365 * r + dayOfYear - b * 36524 =
      1461 * c + 365 * r + dayOfYear := by omega
  have hfourth : (1461 * c + 365 * r + dayOfYear) / 1461 = c := by omega
  have hrest : (1461 * c + 365 * r + dayOfYear) % 1461 = 365 * r + dayOfYear := by omega
  have hyears : min ((365 * r + dayOfYear) / 365) 3 = r := by omega
  simp only [yearAfter, hcycle, hcenturyDays, hcentury, hfourthDays, hfourth, hrest, hyears]
  omega

/-! ### Months -/

theorem daysBeforeMonth_succ (h : 1 ≤ month) (year : Nat) :
    daysBeforeMonth year (month + 1) = daysBeforeMonth year month + daysInMonth year month := by
  obtain ⟨m, rfl⟩ := Nat.exists_eq_add_of_le' h
  rfl

theorem daysBeforeMonth_mono (h : 1 ≤ month) (year more : Nat) :
    daysBeforeMonth year month ≤ daysBeforeMonth year (month + more) := by
  induction more with
  | zero => exact le_rfl
  | succ more ih =>
    rw [← Nat.add_assoc, daysBeforeMonth_succ (by omega)]
    omega

theorem daysBeforeMonth_thirteen (year : Nat) : daysBeforeMonth year 13 = daysInYear year := by
  simp only [daysBeforeMonth, daysInMonth, daysInYear]
  by_cases hleap : isLeap year = true <;> simp [hleap]

theorem monthOf_eq (year dayOfYear : Nat) (hmonth : 1 ≤ month)
    (hlow : daysBeforeMonth year month ≤ dayOfYear) (hup : dayOfYear < daysBeforeMonth year (month + 1))
    (more : Nat) : monthOf year dayOfYear (month + more) = month := by
  induction more with
  | zero =>
    obtain ⟨m, rfl⟩ := Nat.exists_eq_add_of_le' hmonth
    exact if_pos hlow
  | succ more ih =>
    have hlater : ¬daysBeforeMonth year (month + more + 1) ≤ dayOfYear := by
      have := daysBeforeMonth_mono (by omega : 1 ≤ month + 1) year more
      rw [Nat.add_right_comm] at this
      omega
    rw [← Nat.add_assoc, monthOf, if_neg hlater, ih]

/-! ### Days -/

theorem isValid_iff : d.isValid = true ↔ 1 ≤ d.year ∧ d.year ≤ 9999 ∧ 1 ≤ d.month ∧
    d.month ≤ 12 ∧ 1 ≤ d.day ∧ d.day ≤ daysInMonth d.year d.month := by
  simp only [isValid, Bool.and_eq_true, decide_eq_true_eq, and_assoc]

theorem dayOfYear_lt (h : d.isValid = true) :
    daysBeforeMonth d.year d.month + d.day ≤ daysBeforeMonth d.year (d.month + 1) ∧
      daysBeforeMonth d.year d.month + d.day ≤ daysInYear d.year := by
  obtain ⟨-, -, hmonth, hmonth', -, hday⟩ := isValid_iff.1 h
  have hsucc := daysBeforeMonth_succ hmonth d.year
  have hmono := daysBeforeMonth_mono (by omega : 1 ≤ d.month + 1) d.year (12 - d.month)
  rw [show d.month + 1 + (12 - d.month) = 13 by omega, daysBeforeMonth_thirteen] at hmono
  omega

/-- A day is found again from its number. -/
theorem ofOrdinal_ordinal (h : d.isValid = true) : ofOrdinal d.ordinal = d := by
  obtain ⟨hyear, -, hmonth, hmonth', hday, -⟩ := isValid_iff.1 h
  obtain ⟨hup, hlast⟩ := dayOfYear_lt h
  obtain ⟨year, month, day⟩ := d
  dsimp only at *
  have hdays : ordinal ⟨year, month, day⟩ - 1 =
      daysBeforeYear year + (daysBeforeMonth year month + day - 1) := by
    rw [ordinal]
    dsimp only
    omega
  have hyearAfter : yearAfter (ordinal ⟨year, month, day⟩ - 1) = year := by
    rw [hdays]
    exact yearAfter_daysBeforeYear hyear (by omega)
  have hdayOfYear : ordinal ⟨year, month, day⟩ - 1 - daysBeforeYear year =
      daysBeforeMonth year month + day - 1 := by omega
  have hmonthOf : monthOf year (daysBeforeMonth year month + day - 1) 12 = month := by
    have hfound := monthOf_eq year (daysBeforeMonth year month + day - 1) hmonth (by omega) (by omega)
      (12 - month)
    rwa [show month + (12 - month) = 12 by omega] at hfound
  simp only [ofOrdinal, hyearAfter, hdayOfYear, hmonthOf, Date.mk.injEq, true_and]
  omega

theorem ordinal_bounds (h : d.isValid = true) : 1 ≤ d.ordinal ∧ d.ordinal ≤ lastOrdinal := by
  obtain ⟨hyear, hyear', -, -, hday, -⟩ := isValid_iff.1 h
  obtain ⟨-, hlast⟩ := dayOfYear_lt h
  have hbefore : daysBeforeYear d.year + daysInYear d.year ≤ lastOrdinal := by
    obtain ⟨a, b, c, r, hb, hc, hr, hparts⟩ := exists_year_parts hyear
    have hleap : daysInYear d.year ≤ 366 := by
      unfold daysInYear
      split_ifs <;> omega
    have hcommon : r ≠ 3 ∨ (c = 24 ∧ b ≠ 3) → daysInYear d.year = 365 := by
      intro hr'
      rw [daysInYear, if_neg]
      rw [hparts, isLeap_parts hb hc hr]
      omega
    rw [hparts] at hleap hcommon hyear' ⊢
    rw [daysBeforeYear_parts hb hc hr, lastOrdinal]
    omega
  rw [ordinal]
  omega

end Date

namespace DateTime

theorem natAbs_microseconds_lt {d : DateTime} (hdate : d.date.isValid = true) (hclock : d.clock.isValid = true)
    (hoffset : d.offset = some 0) : d.microseconds.natAbs < 2 ^ 38 * 1000000 := by
  simp only [Clock.isValid, Bool.and_eq_true, decide_eq_true_eq] at hclock
  obtain ⟨⟨⟨hh, hm⟩, hs⟩, hu⟩ := hclock
  obtain ⟨hfirst, hlast⟩ := Date.ordinal_bounds hdate
  simp only [microseconds, localMicroseconds, hoffset, Clock.microseconds, Clock.seconds, microsecondsPerDay,
    Date.epoch, Date.lastOrdinal] at hlast ⊢
  simp only [Option.getD_some]
  omega

/-- A point of time in universal time is found again from its microseconds since the start of 1970. -/
theorem ofMicroseconds?_microseconds {d : DateTime} (hdate : d.date.isValid = true)
    (hclock : d.clock.isValid = true) (hoffset : d.offset = some 0) :
    ofMicroseconds? d.microseconds = some d := by
  obtain ⟨date, clock, offset⟩ := d
  dsimp only at hdate hclock hoffset
  subst hoffset
  simp only [Clock.isValid, Bool.and_eq_true, decide_eq_true_eq] at hclock
  obtain ⟨⟨⟨hh, hm⟩, hs⟩, hu⟩ := hclock
  obtain ⟨hfirst, hlast⟩ := Date.ordinal_bounds hdate
  have hday : clock.microseconds < microsecondsPerDay := by
    rw [Clock.microseconds, Clock.seconds, microsecondsPerDay]
    omega
  have hmicroseconds : microseconds ⟨date, clock, some 0⟩ =
      ((date.ordinal : Int) - Date.epoch) * microsecondsPerDay + clock.microseconds := by
    simp [microseconds, localMicroseconds]
  have hdiv : Int.fdiv (microseconds ⟨date, clock, some 0⟩) microsecondsPerDay =
      (date.ordinal : Int) - Date.epoch := by
    rw [hmicroseconds, Int.fdiv_eq_ediv_of_nonneg _ (by omega), Int.add_comm,
      Int.add_mul_ediv_right _ _ (by decide), Int.ediv_eq_zero_of_lt (by omega) (by omega), zero_add]
  have hmod : Int.fmod (microseconds ⟨date, clock, some 0⟩) microsecondsPerDay = clock.microseconds := by
    rw [hmicroseconds, Int.fmod_eq_emod_of_nonneg _ (by omega), Int.add_comm, Int.add_mul_emod_self_right,
      Int.emod_eq_of_lt (by omega) (by omega)]
  have hordinal : (date.ordinal : Int) - Date.epoch + Date.epoch = date.ordinal := by ring
  have hrange : (decide (1 ≤ (date.ordinal : Int)) && decide ((date.ordinal : Int) ≤ Date.lastOrdinal)) = true := by
    simp only [Bool.and_eq_true, decide_eq_true_eq]
    omega
  rw [ofMicroseconds?]
  simp only [hdiv, hmod, hordinal, hrange, if_true, Int.toNat_natCast, Date.ofOrdinal_ordinal hdate,
    Clock.ofMicroseconds_microseconds hm hs hu]

end DateTime

end AvroCodec
