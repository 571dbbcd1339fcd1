import Mathlib.Algebra.Order.Field.Power
import Mathlib.Tactic.LinearCombination
import PgKmcb.Serial.Date

/-!
# Arguments without a result (`pg_datetime.c`)

The four functions check neither the serial number nor the precision.  The power of ten
is a divisor of 64 bits for the precisions from 0 to 18; below it is truncated to zero,
above it cannot be converted (`precision_of_settles`).

The functions that return the remainder also compute the difference of the serial number
and the product with the narrowed quotient.  What the narrowing takes off the quotient is
left in the difference, and for serial numbers near the ends of their range it has no
room there (`settles_decode_iff`).
-/

namespace PgKmcb.Serial

open PgKmcb.Lib

variable {α : Type} {sn L precision : ℤ}

/-! ## The precision -/

/-- A power of ten with a negative exponent is truncated to zero. -/
theorem lpow_of_neg (h : precision < 0) : lpow precision = .ok 0 := by
  have hpos : (0 : ℚ) < 10 ^ precision := by positivity
  have hlt : (10 : ℚ) ^ precision < 1 := zpow_lt_one_of_neg₀ (by norm_num) h
  have htrunc : truncate ((10 : ℚ) ^ precision) = 0 := by
    rw [truncate_of_nonneg hpos.le, Int.floor_eq_zero_iff]
    exact ⟨hpos.le, hlt⟩
  rw [lpow, convert_of_fits (by rw [htrunc]; decide), htrunc]

/-- A power of ten with more than 19 digits has more than 64 bits. -/
theorem lpow_of_gt (h : 18 < precision) : lpow precision = .error (.undefined .conversion) := by
  have hpow : (10 : ℚ) ^ (19 : ℤ) ≤ 10 ^ precision := zpow_le_zpow_right₀ (by norm_num) h
  have hfloor : (10 ^ 19 : ℤ) ≤ truncate ((10 : ℚ) ^ precision) := by
    rw [truncate_of_nonneg (by positivity), Int.le_floor]
    push_cast
    exact_mod_cast hpow
  rw [lpow, convert, if_neg]
  rintro ⟨-, hhi⟩
  have : (2 : ℤ) ^ (64 - 1) < 10 ^ 19 := by norm_num
  linarith

/-- A function that divides by the power of ten settles for a precision from 0 to 18
only. -/
theorem precision_of_settles {f : ℤ → ℤ → Call α}
    (h : Run.Settles (lpow precision >>= fun lpow ↦ divide 64 sn lpow >>= f lpow)) :
    0 ≤ precision ∧ precision ≤ 18 := by
  rcases lt_or_ge precision 0 with hneg | h0
  · rw [lpow_of_neg hneg] at h
    exact absurd h (Run.not_settles_undefined .divideByZero)
  rcases lt_or_ge 18 precision with hgt | h18
  · rw [lpow_of_gt hgt] at h
    exact absurd h (Run.not_settles_undefined .conversion)
  · exact ⟨h0, h18⟩

/-! ## The difference -/

/-- How often the conversion of the quotient to 32 bits wraps around. -/
def wraps (q : ℤ) : ℤ := (q + 2 ^ 31) / 2 ^ 32

theorem narrow_eq_sub_wraps (q : ℤ) : narrow 32 q = q - 2 ^ 32 * wraps q :=
  narrow_eq_sub (by norm_num)

/-- The difference is the remainder, and what the conversion took off the quotient. -/
theorem sub_narrow_mul (sn L : ℤ) : sn - narrow 32 (sn.tdiv L) * L =
    2 ^ 32 * (wraps (sn.tdiv L) * L) + sn.tmod L := by
  have hdiv := Int.tdiv_mul_add_tmod sn L
  rw [narrow_eq_sub_wraps]
  linear_combination -hdiv

/-- The product has 64 bits: a narrowed quotient is no further from zero. -/
theorem fits_narrow_mul (hsn : Fits 64 sn) (hL : 0 < L) :
    Fits 64 (narrow 32 (sn.tdiv L) * L) := by
  by_cases hq : Fits 32 (sn.tdiv L)
  · rw [narrow_of_fits (by norm_num) hq]
    exact (fits_tdiv_mul hsn hL).1
  · obtain ⟨hylo, hyhi⟩ : -2 ^ 31 ≤ narrow 32 (sn.tdiv L) ∧ narrow 32 (sn.tdiv L) < 2 ^ 31 :=
      fits_narrow (by norm_num)
    obtain ⟨hplo, hphi⟩ : -2 ^ 63 ≤ sn.tdiv L * L ∧ sn.tdiv L * L < 2 ^ 63 :=
      (fits_tdiv_mul hsn hL).1
    have hbound : 2 ^ 31 * L ≤ 2 ^ 63 := by
      rcases lt_or_ge (sn.tdiv L) (-2 ^ 31) with hlo | hlo
      · linarith [mul_le_mul_of_nonneg_right hlo.le hL.le]
      · have hhi : 2 ^ 31 ≤ sn.tdiv L := not_lt.mp fun h ↦ hq ⟨hlo, h⟩
        linarith [mul_le_mul_of_nonneg_right hhi hL.le]
    have hlo := mul_le_mul_of_nonneg_right hylo hL.le
    have hhi := mul_lt_mul_of_pos_right hyhi hL
    show -2 ^ 63 ≤ narrow 32 (sn.tdiv L) * L ∧ narrow 32 (sn.tdiv L) * L < 2 ^ 63
    constructor
    · linarith
    · linarith

/-- The decoding settles exactly when the difference has 64 bits. -/
theorem settles_decode_iff (hsn : Fits 64 sn) (hL : 0 < L) : Run.Settles (decode sn L) ↔
    Fits 64 (2 ^ 32 * (wraps (sn.tdiv L) * L) + sn.tmod L) := by
  rw [decode, checked_of_fits (fits_narrow_mul hsn hL), Run.ok_bind, sub_narrow_mul, checked]
  split_ifs with hfits
  · exact ⟨fun _ ↦ hfits, fun _ ↦ Run.settles_ok _⟩
  · exact ⟨fun h ↦ absurd h (Run.not_settles_undefined .overflow), fun h ↦ absurd h hfits⟩

/-! ## The limits of the serial number -/

/-- The serial number above which the difference has 64 bits. -/
def lowerLimit (lpow : ℤ) : ℤ := -((2 ^ 32 * (2 ^ 31 / lpow) + 2 ^ 31 + 1) * lpow)

/-- The serial number below which the difference has 64 bits; the number of wraps is a
quotient rounded up. -/
def upperLimit (lpow : ℤ) : ℤ := (2 ^ 32 * -(-2 ^ 31 / lpow) - 2 ^ 31) * lpow

/-- Between the limits, what is taken off the quotient has 32 bits. -/
theorem fits_wraps_mul_iff (hL : 0 < L) : Fits 32 (wraps (sn.tdiv L) * L) ↔
    lowerLimit L < sn ∧ sn < upperLimit L := by
  have hfloor : 0 ≤ 2 ^ 31 / L := Int.ediv_nonneg (by norm_num) hL.le
  have hceil : -2 ^ 31 / L < 0 := Int.ediv_neg_of_neg_of_pos (by norm_num) hL
  have hlo : -2 ^ 31 ≤ wraps (sn.tdiv L) * L ↔ lowerLimit L < sn := by
    rw [lowerLimit, ← neg_le_tdiv_iff hL (by omega), ← neg_le_neg_iff, neg_neg, ← neg_mul,
      ← Int.le_ediv_iff_mul_le hL, wraps]
    omega
  have hhi : wraps (sn.tdiv L) * L < 2 ^ 31 ↔ sn < upperLimit L := by
    rw [upperLimit, ← tdiv_lt_iff hL (by omega), ← neg_lt_neg_iff, ← neg_mul,
      ← Int.ediv_lt_iff_lt_mul hL, wraps]
    omega
  exact and_congr hlo hhi

/-- A divisor above `2 ^ 32` leaves a quotient of 32 bits. -/
theorem wraps_tdiv_eq_zero (hsn : Fits 64 sn) (hL : 2 ^ 32 < L) : wraps (sn.tdiv L) = 0 := by
  obtain ⟨hlo, hhi⟩ : -2 ^ 63 ≤ sn.tdiv L * L ∧ sn.tdiv L * L < 2 ^ 63 :=
    (fits_tdiv_mul hsn (by linarith)).1
  have hqlo : -2 ^ 31 ≤ sn.tdiv L := by
    by_contra h
    have := mul_le_mul_of_nonneg_right (not_le.mp h).le (show 0 ≤ L by linarith)
    linarith
  have hqhi : sn.tdiv L < 2 ^ 31 := by
    by_contra h
    have := mul_le_mul_of_nonneg_right (not_lt.mp h) (show 0 ≤ L by linarith)
    linarith
  rw [wraps]
  omega

/-- What is taken off the quotient reaches `-2 ^ 31` only where nothing is left over: ten
does not divide a power of two. -/
theorem tmod_eq_zero_of_wraps_mul {p : ℕ} (h : wraps (sn.tdiv (10 ^ p)) * 10 ^ p = -2 ^ 31) :
    sn.tmod (10 ^ p) = 0 := by
  cases p with
  | zero => rw [pow_zero, Int.tmod_one]
  | succ p =>
      have hdvd : (10 : ℤ) ∣ -2 ^ 31 := h ▸ (Dvd.intro_left _ (pow_succ 10 p).symm).mul_left _
      exact absurd hdvd (by norm_num)

/-- The remainder has no part in it: the difference has 64 bits exactly when what is
taken off the quotient has 32. -/
theorem fits_difference_iff (hsn : Fits 64 sn) (p : ℕ) :
    Fits 64 (2 ^ 32 * (wraps (sn.tdiv (10 ^ p)) * 10 ^ p) + sn.tmod (10 ^ p)) ↔
      Fits 32 (wraps (sn.tdiv (10 ^ p)) * 10 ^ p) := by
  have hL : (0 : ℤ) < 10 ^ p := by positivity
  rcases le_or_gt ((10 : ℤ) ^ p) (2 ^ 32) with hp | hp
  · have hrlo := Int.lt_tmod_of_pos sn hL
    have hrhi := Int.tmod_lt_of_pos sn hL
    have hzero : wraps (sn.tdiv (10 ^ p)) * 10 ^ p = -2 ^ 31 → sn.tmod (10 ^ p) = 0 :=
      tmod_eq_zero_of_wraps_mul
    show -2 ^ 63 ≤ _ ∧ _ < 2 ^ 63 ↔ -2 ^ 31 ≤ _ ∧ _ < 2 ^ 31
    rcases le_or_gt 0 sn with hsn0 | hsn0
    · -- both parts are at least zero
      have hr := Int.tmod_nonneg (10 ^ p) hsn0
      have hq := Int.tdiv_nonneg hsn0 hL.le
      have hm : 0 ≤ wraps (sn.tdiv (10 ^ p)) * 10 ^ p := by
        refine mul_nonneg ?_ hL.le
        rw [wraps]
        omega
      generalize wraps (sn.tdiv (10 ^ p)) * 10 ^ p = m at *
      omega
    · -- both parts are at most zero
      have hr : sn.tmod (10 ^ p) ≤ 0 := by
        have := Int.tmod_nonneg (10 ^ p) (neg_nonneg.mpr hsn0.le)
        rwa [Int.neg_tmod, neg_nonneg] at this
      have hq : sn.tdiv (10 ^ p) ≤ 0 := by
        have := Int.tdiv_le_tdiv hL hsn0.le
        rwa [Int.zero_tdiv] at this
      have hm : wraps (sn.tdiv (10 ^ p)) * 10 ^ p ≤ 0 := by
        refine mul_nonpos_of_nonpos_of_nonneg ?_ hL.le
        rw [wraps]
        omega
      generalize wraps (sn.tdiv (10 ^ p)) * 10 ^ p = m at *
      omega
  · rw [wraps_tdiv_eq_zero hsn hp, zero_mul, mul_zero, zero_add, Int.tmod_def, mul_comm]
    exact iff_of_true (fits_tdiv_mul hsn hL).2 (by decide)

/-! ## The functions -/

/-- Whether the power of ten is a divisor of 64 bits. -/
def IsPrecision (precision : ℤ) : Prop := 0 ≤ precision ∧ precision ≤ 18

/-- Whether the serial number lies between the limits that belong to the precision. -/
def InLimits (sn precision : ℤ) : Prop :=
  lowerLimit (10 ^ precision.toNat) < sn ∧ sn < upperLimit (10 ^ precision.toNat)

instance (precision : ℤ) : Decidable (IsPrecision precision) :=
  inferInstanceAs (Decidable (_ ∧ _))

instance (sn precision : ℤ) : Decidable (InLimits sn precision) :=
  inferInstanceAs (Decidable (_ ∧ _))

theorem getYydoyFromSn_settles_iff (hsn : Fits 64 sn) :
    Run.Settles (getYydoyFromSn sn precision) ↔ IsPrecision precision := by
  refine ⟨precision_of_settles, ?_⟩
  rintro ⟨h0, h18⟩
  rw [getYydoyFromSn_eq hsn (by positivity) (lpow_of_le h0 h18)]
  exact Run.settles_ok _

/-- The decoding by a power of ten settles for the serial numbers between the limits. -/
theorem settles_decode_pow_iff (hsn : Fits 64 sn) :
    Run.Settles (decode sn (10 ^ precision.toNat)) ↔ InLimits sn precision := by
  rw [settles_decode_iff hsn (by positivity), fits_difference_iff hsn,
    fits_wraps_mul_iff (by positivity), InLimits]

/-- A function that settles for the precisions from 0 to 18 only, and for these where the
decoding does, settles between the limits. -/
theorem settles_iff_of_decode (hsn : Fits 64 sn) {x : Call α}
    (hprecision : Run.Settles x → IsPrecision precision)
    (hx : IsPrecision precision →
      (Run.Settles x ↔ Run.Settles (decode sn (10 ^ precision.toNat)))) :
    Run.Settles x ↔ IsPrecision precision ∧ InLimits sn precision := by
  constructor
  · intro h
    have hp := hprecision h
    exact ⟨hp, (settles_decode_pow_iff hsn).mp ((hx hp).mp h)⟩
  · rintro ⟨hp, h⟩
    exact (hx hp).mpr ((settles_decode_pow_iff hsn).mpr h)

theorem getIdFromSn_settles_iff (hsn : Fits 64 sn) :
    Run.Settles (getIdFromSn sn precision) ↔
      IsPrecision precision ∧ InLimits sn precision := by
  refine settles_iff_of_decode hsn precision_of_settles ?_
  rintro ⟨h0, h18⟩
  rw [getIdFromSn_eq hsn (by positivity) (lpow_of_le h0 h18), Run.settles_map_iff]

theorem yydoyIdRow_settles_iff (hsn : Fits 64 sn) :
    Run.Settles (yydoyIdRow sn precision) ↔ IsPrecision precision ∧ InLimits sn precision := by
  refine settles_iff_of_decode hsn precision_of_settles ?_
  rintro ⟨h0, h18⟩
  rw [yydoyIdRow_eq hsn (by positivity) (lpow_of_le h0 h18)]

/-- A row that has no meaning leaves the whole call without one. -/
theorem getYydoyIdFromSn_of_error {e : Stop PgError} (h : yydoyIdRow sn precision = .error e)
    {n : UInt32} (hn : n ≠ 0) : getYydoyIdFromSn true sn precision n = .error e := by
  have hpos : 0 < n.toNat := Nat.pos_of_ne_zero fun h0 ↦ hn (UInt32.toNat_inj.mp h0)
  obtain ⟨k, hk⟩ := Nat.exists_eq_succ_of_ne_zero hpos.ne'
  rw [getYydoyIdFromSn, getYydoyIdFirstCall, if_pos rfl, pure_bind]
  dsimp only
  rw [hk, whileLoop, if_pos (by simp), getYydoyIdNext, h]
  rfl

/-- The set-returning function also settles where it forms no row. -/
theorem getYydoyIdFromSn_settles_iff (hsn : Fits 64 sn) (composite : Bool) (n : UInt32) :
    Run.Settles (getYydoyIdFromSn composite sn precision n) ↔
      composite = false ∨ n = 0 ∨ IsPrecision precision ∧ InLimits sn precision := by
  cases composite with
  | false => exact iff_of_true (Run.settles_raised _) (.inl rfl)
  | true =>
      rw [← yydoyIdRow_settles_iff hsn]
      rcases eq_or_ne n 0 with rfl | hn
      · exact iff_of_true (Run.settles_ok _) (.inr (.inl rfl))
      cases hrow : yydoyIdRow sn precision with
      | ok row =>
          rw [getYydoyIdFromSn_rows hrow]
          exact iff_of_true (Run.settles_ok _) (.inr (.inr (Run.settles_ok _)))
      | error e =>
          rw [getYydoyIdFromSn_of_error hrow hn, Run.settles_error_iff, Run.settles_error_iff]
          exact ⟨fun h ↦ .inr (.inr h), fun h ↦ h.elim nofun (·.resolve_left hn)⟩

/-! ## The date -/

/-- The split of any quotient of 32 bits. -/
theorem splitYyDoy2000_of_fits {q : ℤ} (hq : Fits 32 q) :
    splitYyDoy2000 q = .ok (2000 + q.tdiv 1000, q - q.tdiv 1000 * 1000) := by
  obtain ⟨hdays, hdoy⟩ := fits_tdiv_mul hq (show (0 : ℤ) < 1000 by norm_num)
  obtain ⟨hlo, hhi⟩ := hdays
  have hyear : Fits 32 (2000 + q.tdiv 1000) := by
    rw [Fits]
    omega
  rw [splitYyDoy2000, divide_of_pos hq (by norm_num), Run.ok_bind, checked_of_fits hyear,
    Run.ok_bind, checked_of_fits ⟨hlo, hhi⟩, Run.ok_bind, checked_of_fits hdoy, Run.ok_bind]
  rfl

/-- Whatever the year and the day are, the month is at most 12 and the day of the month
at most 31. -/
theorem generateDateEx_bounds (cal : PgCalendar) (y d : ℤ) : ∃ month day,
    generateDateEx cal y d = .ok (month, day) ∧
    0 ≤ month ∧ month ≤ 12 ∧ 0 ≤ day ∧ day ≤ 31 := by
  rw [generateDateEx, daysInYear_index]
  by_cases hd : d ≥ 1 ∧ d ≤ daysInYear (cal.isleap y)
  · rw [if_pos hd]
    obtain ⟨D, rfl⟩ := Int.eq_ofNat_of_zero_le (show 0 ≤ d by omega)
    obtain ⟨hD1, hD⟩ := hd
    obtain ⟨m, hm1, hm12, hlo, hhi, hrun⟩ := monthLoop_spec (cal.isleap y)
      (show D ≤ daysInYear (cal.isleap y) by exact_mod_cast hD)
      (show 0 + 12 = 12 from rfl) (show 0 < D by exact_mod_cast hD1)
    have hlast := daysInMonth_le (cal.isleap y) m hm12
    rw [daysBefore] at hhi
    exact ⟨m, D - daysBefore (cal.isleap y) m, hrun, by omega, by omega, by omega, by omega⟩
  · rw [if_neg hd]
    exact ⟨0, 0, rfl, le_rfl, by norm_num, le_rfl, by norm_num⟩

variable {cal : PgCalendar}

/-- What the range check of the calendar is documented to be good for: the day number of
a date that passes it has 32 bits, also when it is counted from the epoch. -/
def PgCalendar.Bounded (cal : PgCalendar) : Prop :=
  ∀ y m d, cal.isValidJulian y m d = true → 0 ≤ m → m ≤ 12 → 0 ≤ d → d ≤ 31 →
    Fits 32 (cal.date2j y m d - cal.postgresEpochJdate)

theorem pgCalendar_bounded : pgCalendar.Bounded := by
  intro y m d hvalid hm0 hm12 hd0 hd31
  rw [PgCalendar.isValidJulian, decide_eq_true_iff] at hvalid
  simp only [pgCalendar] at hvalid ⊢
  obtain ⟨hmin, hmax⟩ := hvalid
  by_cases hm : m > 2
  · rw [if_pos hm, if_pos hm]
    constructor <;> norm_num <;> omega
  · rw [if_neg hm, if_neg hm]
    constructor <;> norm_num <;> omega

theorem getDateFromSn_settles_iff (hcal : cal.Bounded) (hsn : Fits 64 sn) :
    Run.Settles (getDateFromSn cal sn precision) ↔ IsPrecision precision := by
  refine ⟨precision_of_settles, ?_⟩
  rintro ⟨h0, h18⟩
  obtain ⟨month, day, hgen, hm0, hm12, hd0, hd31⟩ := generateDateEx_bounds cal
    (2000 + (narrow 32 (sn.tdiv (10 ^ precision.toNat))).tdiv 1000)
    (narrow 32 (sn.tdiv (10 ^ precision.toNat)) -
      (narrow 32 (sn.tdiv (10 ^ precision.toNat))).tdiv 1000 * 1000)
  rw [getDateFromSn, lpow_of_le h0 h18, Run.ok_bind, divide_of_pos hsn (by positivity),
    Run.ok_bind]
  dsimp only
  rw [splitYyDoy2000_of_fits (fits_narrow (by norm_num)), Run.ok_bind]
  dsimp only
  rw [hgen, Run.ok_bind]
  dsimp only
  split_ifs with hvalid
  · rw [checked_of_fits (hcal _ _ _ hvalid hm0 hm12 hd0 hd31)]
    exact Run.settles_ok _
  · exact Run.settles_raised _

/-! ## All four functions -/

/-- Each of the four calls returns, or raises an error of the server. -/
structure AllSettle (cal : PgCalendar) (composite : Bool) (sn precision : ℤ) (n : UInt32) :
    Prop where
  yydoy : Run.Settles (getYydoyFromSn sn precision)
  id : Run.Settles (getIdFromSn sn precision)
  rows : Run.Settles (getYydoyIdFromSn composite sn precision n)
  date : Run.Settles (getDateFromSn cal sn precision)

/-- They do exactly for the precisions from 0 to 18 and the serial numbers between the
limits that belong to them. -/
theorem allSettle_iff (cal : PgCalendar) (hcal : cal.Bounded) (composite : Bool)
    (sn precision : ℤ) (n : UInt32) (hsn : Fits 64 sn) :
    AllSettle cal composite sn precision n ↔
      (0 ≤ precision ∧ precision ≤ 18) ∧
      lowerLimit (10 ^ precision.toNat) < sn ∧ sn < upperLimit (10 ^ precision.toNat) := by
  constructor
  · rintro ⟨-, hid, -, -⟩
    exact (getIdFromSn_settles_iff hsn).mp hid
  · intro h
    exact ⟨(getYydoyFromSn_settles_iff hsn).mpr h.1, (getIdFromSn_settles_iff hsn).mpr h,
      (getYydoyIdFromSn_settles_iff hsn composite n).mpr (.inr (.inr h)),
      (getDateFromSn_settles_iff hcal hsn).mpr h.1⟩

/-- A serial number of the documentation. -/
theorem allSettle_doc : AllSettle pgCalendar true 1800100000001 8 1 ↔
    ((0 : ℤ) ≤ 8 ∧ (8 : ℤ) ≤ 18) ∧ lowerLimit (10 ^ (8 : ℤ).toNat) < 1800100000001 ∧
      1800100000001 < upperLimit (10 ^ (8 : ℤ).toNat) :=
  allSettle_iff pgCalendar pgCalendar_bounded true 1800100000001 8 1 (by decide)

/-- The precision -1: the serial number 1 is divided by zero. -/
theorem not_allSettle : ¬ ∀ sn precision : ℤ, Fits 64 sn → Fits 32 precision →
    AllSettle pgCalendar true sn precision 1 := by
  intro h
  obtain ⟨hyydoy, -, -, -⟩ := h 1 (-1) (by decide) (by decide)
  rw [getYydoyFromSn, lpow_of_neg (by norm_num)] at hyydoy
  exact Run.not_settles_undefined .divideByZero hyydoy

end PgKmcb.Serial
