import AvroCodec.Logical.Clock
import AvroCodec.Proofs.Nearest

/-!
# Times of day

A time of day is read back from its microseconds. The parts come from quotients that are rounded to
floating-point numbers and cut, which never carries one into the next.
-/

namespace AvroCodec

theorem Clock.ofMicroseconds_microseconds {c : Clock} (hm : c.minute < 60) (hs : c.second < 60)
    (hu : c.microsecond < 1000000) : Clock.ofMicroseconds c.microseconds = c := by
  obtain ⟨hour, minute, second, microsecond⟩ := c
  simp only [ofMicroseconds, microseconds, seconds, Clock.mk.injEq] at *
  refine ⟨?_, ?_, ?_, ?_⟩ <;> omega

theorem ok_bind {α β : Type} (x : α) (f : α → Except CodecError β) : (Except.ok x >>= f) = f x := rfl

namespace Logical

open Binary

variable {d n : Nat}

theorem integerPart_of_toRat? {n : Number} {x : ℚ} (h : n.toRat? = some x) :
    integerPart n = .ok (truncate x) := by
  cases n with
  | finite negative m e =>
    change Except.ok (truncate (((Number.finite negative m e).toRat?).getD 0)) = _
    rw [h, Option.getD_some]
  | infinite negative => cases h
  | nan => cases h

theorem abs_div_lt (hn : n < 2 ^ 53) (hd : 0 < d) : |(n : ℚ) / d| < 2 ^ (1000 : ℤ) := by
  have hd1 : (1 : ℚ) ≤ d := by exact_mod_cast hd
  have hlt : (n : ℚ) < 2 ^ 53 := by exact_mod_cast hn
  rw [abs_of_nonneg (by positivity)]
  calc (n : ℚ) / d ≤ n := div_le_self (Nat.cast_nonneg n) hd1
    _ < 2 ^ 53 := hlt
    _ ≤ 2 ^ (1000 : ℤ) := by exact_mod_cast pow_le_pow_right₀ (by norm_num) (by norm_num)

theorem exists_quotient (hn : n < 2 ^ 53) (hd : 0 < d) :
    ∃ x, quotient (.int n) d = .ok x ∧ x.toRat? = some (Number.grid .double ((n : ℚ) / d)) := by
  have hnonneg : (0 : ℚ) ≤ n / d := by positivity
  have hvalue := Number.toRat?_ofRat (abs_div_lt hn hd)
  rw [Number.rounded_of_nonneg hnonneg] at hvalue
  have hrat : (n : ℚ) / d = mkRat (n : Int) d := by rw [Rat.mkRat_eq_div, Int.cast_natCast]
  refine ⟨Number.ofRat .double ((n : ℚ) / d), ?_, hvalue⟩
  rw [hrat] at hvalue ⊢
  cases hx : Number.ofRat .double (mkRat (n : Int) d) with
  | finite negative m e => simp only [quotient, Value.toInt?, hx]
  | infinite negative =>
    rw [hx] at hvalue
    cases hvalue
  | nan =>
    rw [hx] at hvalue
    cases hvalue

theorem exists_integerPart_quotient (hn : n < 2 ^ 53) (hd : 0 < d) (hd' : d < 2 ^ 53) :
    ∃ x, quotient (.int n) d = .ok x ∧ integerPart x = .ok ((n / d : Nat) : Int) := by
  obtain ⟨x, hx, hvalue⟩ := exists_quotient hn hd
  refine ⟨x, hx, ?_⟩
  rw [integerPart_of_toRat? hvalue, truncate_of_nonneg (Number.grid_nonneg (by positivity)),
    Number.floor_grid_div hn hd hd']

theorem fmod_natCast (n d : Nat) : Int.fmod (n : Int) (d : Int) = ((n % d : Nat) : Int) := by
  rw [Int.fmod_eq_emod_of_nonneg _ (by omega), Int.natCast_mod]

theorem clockOf_of_lt (hour minute second microsecond : Nat) (hh : hour < 24) (hm : minute < 60)
    (hs : second < 60) (hu : microsecond < 1000000) :
    clockOf hour minute second microsecond = .ok (.clock ⟨hour, minute, second, microsecond⟩) := by
  have hfits : ∀ n : Nat, n < 1000000 → fits32 n = true := by
    intro n hn
    simp only [fits32, Bool.and_eq_true, decide_eq_true_eq]
    omega
  rw [clockOf, hfits hour (by omega), hfits minute (by omega), hfits second (by omega),
    hfits microsecond hu]
  simp [Clock.isValid, hh, hm, hs, hu]

theorem readMicros_int (hn : n < 86400000000) : readMicros (.int n) = .ok (.clock (.ofMicroseconds n)) := by
  have hsmall : n < 2 ^ 53 := by omega
  obtain ⟨x, hx, hhour⟩ := exists_integerPart_quotient hsmall (d := 3600000000) (by decide) (by decide)
  obtain ⟨y, hy, hminute⟩ := exists_integerPart_quotient hsmall (d := 60000000) (by decide) (by decide)
  obtain ⟨z, hz, hsecond⟩ := exists_integerPart_quotient hsmall (d := 1000000) (by decide) (by decide)
  have hfits : fits32 ((n / 3600000000 : Nat) : Int) = true := by
    simp only [fits32, Bool.and_eq_true, decide_eq_true_eq]
    omega
  have hremainder : remainder (.int n) 1000000 = .ok ((n % 1000000 : Nat) : Int) := by
    simp only [remainder, Value.toInt?, fmod_natCast]
  have hclock := clockOf_of_lt (n / 3600000000) (n / 60000000 % 60) (n / 1000000 % 60) (n % 1000000)
    (by omega) (by omega) (by omega) (by omega)
  have hsixty : (60 : Int) = ((60 : Nat) : Int) := rfl
  rw [readMicros, hx, ok_bind, hhour, ok_bind, hy, ok_bind, hminute, ok_bind, hz, ok_bind, hsecond,
    ok_bind, hfits]
  change (remainder (.int n) 1000000 >>= fun r => clockOf (n / 3600000000 : Nat)
    (Int.fmod (n / 60000000 : Nat) 60) (Int.fmod (n / 1000000 : Nat) 60) r) = _
  rw [hremainder, ok_bind, hsixty, fmod_natCast, fmod_natCast, hclock, Clock.ofMicroseconds]

/-- A time of day is written as its microseconds since midnight and read back from them. The quotients that
it is read by are rounded, and keep their integer parts. -/
theorem micros_written_and_read {c : Clock} (hh : c.hour < 24) (hm : c.minute < 60) (hs : c.second < 60)
    (hu : c.microsecond < 1000000) :
    ∃ n : Nat, n = c.hour * 3600000000 + c.minute * 60000000 + c.second * 1000000 + c.microsecond ∧
      prepareMicros (.clock c) = .ok (.int n) ∧ readMicros (.int n) = .ok (.clock c) ∧
      ∀ d ∈ [3600000000, 60000000, 1000000],
        (quotient (.int n) d >>= integerPart) = .ok ((n / d : Nat) : Int) := by
  have hsum : c.microseconds =
      c.hour * 3600000000 + c.minute * 60000000 + c.second * 1000000 + c.microsecond := by
    rw [Clock.microseconds, Clock.seconds]
    omega
  have hday : c.microseconds < 86400000000 := by omega
  refine ⟨c.microseconds, hsum, rfl, ?_, ?_⟩
  · rw [readMicros_int hday, Clock.ofMicroseconds_microseconds hm hs hu]
  · intro d hd
    have hbounds : 0 < d ∧ d < 2 ^ 53 := by
      simp only [List.mem_cons, List.not_mem_nil, or_false] at hd
      omega
    obtain ⟨x, hx, hpart⟩ :=
      exists_integerPart_quotient (n := c.microseconds) (by omega) hbounds.1 hbounds.2
    rw [hx]
    exact hpart

/-- The last microsecond of a day. -/
theorem last_micros_written_and_read :
    prepareMicros (.clock ⟨23, 59, 59, 999999⟩) = .ok (.int 86399999999) ∧
      readMicros (.int 86399999999) = .ok (.clock ⟨23, 59, 59, 999999⟩) := by
  obtain ⟨n, rfl, hprepared, hread, -⟩ := micros_written_and_read (c := ⟨23, 59, 59, 999999⟩)
    (by decide) (by decide) (by decide) (by decide)
  exact ⟨hprepared, hread⟩

end Logical

end AvroCodec
