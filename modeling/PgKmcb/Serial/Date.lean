import PgKmcb.Serial.Number
import PgKmcb.Lib.Gregorian

/-!
# Dates of serial numbers (`pg_datetime.c`, `se_datetime.c`)

The quotient of a serial number is a year of this millennium and a day of that year,
`(year - 2000) * 1000 + day`.  `getDateFromSn` finds the date in three stages: the
division, the split into year and day, and a search in a table of month ends.

The calendar itself is the server's; `PgCalendar` is what the code uses of it.  A day
that the year does not have is reported as month 0 and day 0, and the check that is
meant to notice does not look that far (`getDateFromSn_of_invalid`).
-/

namespace PgKmcb.Serial

open PgKmcb.Lib

/-! ## The calendar of the server -/

/-- What the code uses of `utils/datetime.h`. -/
structure PgCalendar where
  isleap : ℤ → Bool
  date2j : ℤ → ℤ → ℤ → ℤ
  postgresEpochJdate : ℤ
  julianMinyear : ℤ
  julianMinmonth : ℤ
  julianMaxyear : ℤ
  julianMaxmonth : ℤ

/-- `IS_VALID_JULIAN`, which compares year and month only. -/
def PgCalendar.isValidJulian (cal : PgCalendar) (y m _d : ℤ) : Bool :=
  decide ((y > cal.julianMinyear ∨ (y = cal.julianMinyear ∧ m ≥ cal.julianMinmonth)) ∧
    (y < cal.julianMaxyear ∨ (y = cal.julianMaxyear ∧ m < cal.julianMaxmonth)))

/-- The 1st of January 2000. -/
def postgresEpoch : Date := .newYear 2000

/-- What the calendar is documented to be: the Gregorian one, with Julian day numbers
that have 32 bits in the years from 2000 to the last supported one. -/
structure PgCalendar.Gregorian (cal : PgCalendar) : Prop where
  isleap : ∀ y, cal.isleap y = isLeapYear y
  date2j : ∀ x : Date, 2000 ≤ x.year → x.year < cal.julianMaxyear →
    cal.date2j x.year x.month x.day = julianDay x
  epoch : cal.postgresEpochJdate = julianDay postgresEpoch
  fits : ∀ y m d, 2000 ≤ y → y < cal.julianMaxyear → 0 ≤ m → m ≤ 12 → 0 ≤ d → d ≤ 31 →
    Fits 32 (cal.date2j y m d - cal.postgresEpochJdate)
  minyear : cal.julianMinyear < 2000
  maxyear : cal.julianMaxyear = 5874898

/-- A date as the server stores it: the number of days since its epoch. -/
def dateADT (x : Date) : ℤ := julianDay x - julianDay postgresEpoch

/-! ## The functions -/

/-- `SE_MON_YDAY`. -/
def seMonYday : Vector (List ℤ) 2 := #v[
  [0, 31, 59, 90, 120, 151, 181, 212, 243, 273, 304, 334, 365],
  [0, 31, 60, 91, 121, 152, 182, 213, 244, 274, 305, 335, 366]]

/-- The search of `generate_date_ex`, for so many more rounds.  A loop that ends
without having found the month leaves the month and the day unset. -/
def monthLoop (yday : List ℤ) (dayOfYear : ℤ) : ℕ → ℕ → Call (ℤ × ℤ)
  | 0, _ => .error (.undefined .uninitialized)
  | rounds + 1, mon => do
      let last ← readAt yday (mon + 1)
      if dayOfYear ≤ last then
        let before ← readAt yday mon
        return ((mon : ℤ) + 1, dayOfYear - before)
      else
        monthLoop yday dayOfYear rounds (mon + 1)

/-- `generate_date_ex`. -/
def generateDateEx (cal : PgCalendar) (fullYear dayOfYear : ℤ) : Call (ℤ × ℤ) :=
  let leapYearIndex : Fin 2 := if cal.isleap fullYear then 1 else 0
  let daysInYear : ℤ := if leapYearIndex = 0 then 365 else 366
  if dayOfYear ≥ 1 ∧ dayOfYear ≤ daysInYear then
    monthLoop (seMonYday.get leapYearIndex) dayOfYear 12 0
  else
    return (0, 0)

/-- `split_yy_doy_2000`. -/
def splitYyDoy2000 (yyDoy : ℤ) : Call (ℤ × ℤ) := do
  let yy ← divide 32 yyDoy 1000
  let year ← checked 32 (2000 + yy)
  let days ← checked 32 (yy * 1000)
  let doy ← checked 32 (yyDoy - days)
  return (year, doy)

/-- `get_date_from_sn`. -/
def getDateFromSn (cal : PgCalendar) (yyDoyId precision : ℤ) : Call ℤ := do
  let lpow ← lpow precision
  let quotient ← divide 64 yyDoyId lpow
  let yydoy := narrow 32 quotient
  let (year, doy) ← splitYyDoy2000 yydoy
  let (month, dayOfMonth) ← generateDateEx cal year doy
  if cal.isValidJulian year month dayOfMonth then
    checked 32 (cal.date2j year month dayOfMonth - cal.postgresEpochJdate)
  else
    .error (.raised (.ereport .datetimeValueOutOfRange "date out of range"))

/-! ## The month table -/

/-- The table holds the number of days up to the end of each month. -/
theorem seMonYday_get (leap : Bool) : ∀ m ≤ 12,
    (seMonYday.get (if leap then 1 else 0))[m]? = some (daysBefore leap (m + 1) : ℤ) := by
  cases leap <;> decide

/-- The search finds the month in which the day lies, if it has not passed it. -/
theorem monthLoop_spec (leap : Bool) {D : ℕ} (hD : D ≤ daysInYear leap) {rounds mon : ℕ}
    (hrounds : mon + rounds = 12) (hmon : daysBefore leap (mon + 1) < D) :
    ∃ m, 1 ≤ m ∧ m ≤ 12 ∧ daysBefore leap m < D ∧ D ≤ daysBefore leap (m + 1) ∧
      monthLoop (seMonYday.get (if leap then 1 else 0)) D rounds mon =
        .ok ((m : ℤ), (D : ℤ) - daysBefore leap m) := by
  induction rounds generalizing mon with
  | zero =>
      obtain rfl : mon = 12 := hrounds
      rw [daysBefore_year] at hmon
      omega
  | succ rounds ih =>
      have hread : ∀ m ≤ 12, (readAt (seMonYday.get (if leap then 1 else 0)) m : Call ℤ) =
          .ok (daysBefore leap (m + 1) : ℤ) :=
        fun m hm ↦ readAt_of_getElem? (seMonYday_get leap m hm)
      rw [monthLoop, hread (mon + 1) (by omega), Run.ok_bind]
      by_cases hle : D ≤ daysBefore leap (mon + 1 + 1)
      · rw [if_pos (by exact_mod_cast hle), hread mon (by omega), Run.ok_bind]
        exact ⟨mon + 1, by omega, by omega, hmon, hle, rfl⟩
      · rw [if_neg (by exact_mod_cast hle)]
        exact ih (by omega) (not_le.mp hle)

variable {cal : PgCalendar}

/-- `daysInYear` of `generate_date_ex`, from the index of the table. -/
theorem daysInYear_index (leap : Bool) :
    (if (if leap then (1 : Fin 2) else 0) = 0 then 365 else 366 : ℤ) = daysInYear leap := by
  cases leap <;> rfl

/-- A day of the year is turned into its date. -/
theorem generateDateEx_of_valid (hcal : cal.Gregorian) {y : ℤ} {D : ℕ} (h1 : 1 ≤ D)
    (hD : D ≤ daysInYear (isLeapYear y)) :
    ∃ x : Date, x.year = y ∧ x.dayOfYear = D ∧
      generateDateEx cal y D = .ok ((x.month : ℤ), (x.day : ℤ)) := by
  obtain ⟨m, hm1, hm12, hlo, hhi, hrun⟩ := monthLoop_spec (isLeapYear y) hD
    (show 0 + 12 = 12 from rfl) h1
  rw [daysBefore] at hhi
  refine ⟨⟨y, m, D - daysBefore (isLeapYear y) m, hm1, hm12, by omega, by omega⟩, rfl, ?_, ?_⟩
  · show daysBefore (isLeapYear y) m + (D - daysBefore (isLeapYear y) m) = D
    omega
  · have hrange : (D : ℤ) ≥ 1 ∧ (D : ℤ) ≤ daysInYear (isLeapYear y) :=
      ⟨by exact_mod_cast h1, by exact_mod_cast hD⟩
    rw [generateDateEx, hcal.isleap]
    dsimp only
    rw [daysInYear_index, if_pos hrange, hrun]
    push_cast [hlo.le]
    rfl

/-- A day that the year does not have is reported as month 0 and day 0. -/
theorem generateDateEx_of_invalid (hcal : cal.Gregorian) {y d : ℤ}
    (hd : d < 1 ∨ d > daysInYear (isLeapYear y)) : generateDateEx cal y d = .ok (0, 0) := by
  have hrange : ¬ (d ≥ 1 ∧ d ≤ daysInYear (isLeapYear y)) := by
    rintro ⟨h1, h2⟩
    rcases hd with hd | hd
    · exact absurd h1 (not_le.mpr hd)
    · exact absurd h2 (not_le.mpr hd)
  rw [generateDateEx, hcal.isleap, daysInYear_index, if_neg hrange]
  rfl

/-- The split of a non-negative quotient. -/
theorem splitYyDoy2000_of_nonneg {q : ℤ} (h0 : 0 ≤ q) (hq : q < 2 ^ 31) :
    splitYyDoy2000 q = .ok (2000 + q / 1000, q % 1000) := by
  have hdiv : q.tdiv 1000 = q / 1000 := Int.tdiv_eq_ediv_of_nonneg h0
  have hmod : q - q / 1000 * 1000 = q % 1000 := by omega
  have hyear : Fits 32 (2000 + q / 1000) := fits_of_nonneg (by omega) (by omega)
  have hdays : Fits 32 (q / 1000 * 1000) := fits_of_nonneg (by omega) (by omega)
  have hdoy : Fits 32 (q % 1000) := fits_of_nonneg (by omega) (by omega)
  rw [splitYyDoy2000, divide_of_pos (fits_of_nonneg h0 hq) (by norm_num), Run.ok_bind, hdiv,
    checked_of_fits hyear, Run.ok_bind, checked_of_fits hdays, Run.ok_bind, hmod,
    checked_of_fits hdoy, Run.ok_bind]
  rfl

/-! ## The calendar as it is -/

/-- `isleap` and `date2j` of the server, and its constants. -/
def pgCalendar : PgCalendar where
  isleap y := decide (y % 4 = 0 ∧ (y % 100 ≠ 0 ∨ y % 400 = 0))
  date2j year month day :=
    let month' := if month > 2 then month + 1 else month + 13
    let year' := if month > 2 then year + 4800 else year + 4799
    year' * 365 - 32167 + (year' / 4 - year' / 100 + year' / 100 / 4) +
      (7834 * month' / 256 + day)
  postgresEpochJdate := 2451545
  julianMinyear := -4713
  julianMinmonth := 11
  julianMaxyear := 5874898
  julianMaxmonth := 6

/-- The days before a month, by the formula of `date2j`. -/
theorem daysBefore_formula (leap : Bool) : ∀ m ≤ 12, 1 ≤ m → (daysBefore leap m : ℤ) =
    if m > 2 then 7834 * ((m : ℤ) + 1) / 256 - 63 + if leap then 1 else 0
    else 7834 * ((m : ℤ) + 13) / 256 - 428 := by
  cases leap <;> decide

theorem pgCalendar_gregorian : pgCalendar.Gregorian where
  isleap _ := rfl
  date2j x _ _ := by
    have hbefore := daysBefore_formula (isLeapYear x.year) x.month x.month_le x.month_pos
    rw [julianDay, Date.dayOfYear, julianYear]
    push_cast
    rw [hbefore, isLeapYear]
    simp only [pgCalendar, decide_eq_true_iff]
    by_cases hmonth : x.month > 2
    · have hmonth' : (x.month : ℤ) > 2 := by exact_mod_cast hmonth
      rw [if_pos hmonth, if_pos hmonth', if_pos hmonth']
      split_ifs <;> omega
    · have hmonth' : ¬ (x.month : ℤ) > 2 := by exact_mod_cast hmonth
      rw [if_neg hmonth, if_neg hmonth', if_neg hmonth']
      omega
  epoch := by decide
  fits y m d hy hmax hm0 hm1 hd0 hd1 := by
    change y < 5874898 at hmax
    simp only [pgCalendar]
    by_cases hm : m > 2
    · rw [if_pos hm, if_pos hm]
      constructor <;> norm_num <;> omega
    · rw [if_neg hm, if_neg hm]
      constructor <;> norm_num <;> omega
  minyear := by decide
  maxyear := rfl

/-! ## Decoding a serial number -/

/-- The call, with the quotient of the serial number at hand. -/
theorem getDateFromSn_eq (cal : PgCalendar) {sn precision q : ℤ} (hsn : Fits 64 sn)
    (h0 : 0 ≤ precision) (h18 : precision ≤ 18) (hq : sn.tdiv (10 ^ precision.toNat) = q)
    (hq0 : 0 ≤ q) (hq31 : q < 2 ^ 31) : getDateFromSn cal sn precision =
      (generateDateEx cal (2000 + q / 1000) (q % 1000) >>= fun r ↦
        if cal.isValidJulian (2000 + q / 1000) r.1 r.2 then
          checked 32 (cal.date2j (2000 + q / 1000) r.1 r.2 - cal.postgresEpochJdate)
        else .error (.raised (.ereport .datetimeValueOutOfRange "date out of range"))) := by
  have hL : (0 : ℤ) < 10 ^ precision.toNat := by positivity
  have hfits : Fits 32 q := fits_of_nonneg hq0 hq31
  rw [getDateFromSn, lpow_of_le h0 h18, Run.ok_bind, divide_of_pos hsn hL, hq, Run.ok_bind]
  dsimp only
  rw [narrow_of_fits (by norm_num) hfits, splitYyDoy2000_of_nonneg hq0 hq31, Run.ok_bind]

/-- The range check accepts every month and day of the years that are supported. -/
theorem isValidJulian_of_year (hcal : cal.Gregorian) {y : ℤ} (hlo : 2000 ≤ y)
    (hhi : y < cal.julianMaxyear) (m d : ℤ) : cal.isValidJulian y m d = true := by
  have hmin := hcal.minyear
  rw [PgCalendar.isValidJulian, decide_eq_true_iff]
  exact ⟨.inl (by omega), .inl hhi⟩

/-- The year of a quotient of 32 bits is supported. -/
theorem year_lt (hcal : cal.Gregorian) {q : ℤ} (hq0 : 0 ≤ q) (hq31 : q < 2 ^ 31) :
    2000 ≤ 2000 + q / 1000 ∧ 2000 + q / 1000 < cal.julianMaxyear := by
  rw [hcal.maxyear]
  omega

/-- The serial number of a day of a year from 2000 to 2999 is decoded to the date that
is so many days behind the first day of that year. -/
theorem getDateFromSn_of_valid (cal : PgCalendar) (hcal : cal.Gregorian) (y : ℤ) (D : ℕ)
    (precision id : ℤ) (hy0 : 2000 ≤ y) (hy1 : y ≤ 2999) (hD0 : 1 ≤ D)
    (hD1 : D ≤ daysInYear (isLeapYear y)) (h0 : 0 ≤ precision) (h18 : precision ≤ 18)
    (hid0 : 0 ≤ id) (hid1 : id < 10 ^ precision.toNat)
    (hfits : Fits 64 (((y - 2000) * 1000 + D) * 10 ^ precision.toNat + id)) :
    getDateFromSn cal (((y - 2000) * 1000 + D) * 10 ^ precision.toNat + id) precision =
      .ok (dateADT (Date.succ^[D - 1] (.newYear y))) := by
  have hL : (0 : ℤ) < 10 ^ precision.toNat := by positivity
  have hD : D ≤ 366 := by
    rw [daysInYear] at hD1
    split_ifs at hD1 <;> omega
  have hquot : (((y - 2000) * 1000 + D) * 10 ^ precision.toNat + id).tdiv
      (10 ^ precision.toNat) = (y - 2000) * 1000 + D := by
    have hnonneg : 0 ≤ ((y - 2000) * 1000 + D) * 10 ^ precision.toNat + id :=
      add_nonneg (mul_nonneg (by omega) hL.le) hid0
    rw [Int.tdiv_eq_ediv_of_nonneg hnonneg, add_comm, Int.add_mul_ediv_right _ _ hL.ne',
      Int.ediv_eq_zero_of_lt hid0 hid1, zero_add]
  have hyear : 2000 + ((y - 2000) * 1000 + (D : ℤ)) / 1000 = y := by omega
  have hday : ((y - 2000) * 1000 + (D : ℤ)) % 1000 = D := by omega
  obtain ⟨x, rfl, hx, hgen⟩ := generateDateEx_of_valid hcal hD0 hD1
  have hmax : x.year < cal.julianMaxyear := by
    rw [hcal.maxyear]
    omega
  have hmonth : (x.day : ℤ) ≤ 31 := by
    exact_mod_cast x.day_le.trans (daysInMonth_le _ _ x.month_le)
  have hdate : Fits 32 (cal.date2j x.year x.month x.day - cal.postgresEpochJdate) :=
    hcal.fits _ _ _ hy0 hmax (by omega) (by exact_mod_cast x.month_le) (by omega) hmonth
  rw [getDateFromSn_eq cal hfits h0 h18 hquot (by omega) (by omega), hyear, hday, hgen, Run.ok_bind,
    if_pos (isValidJulian_of_year hcal hy0 hmax _ _), checked_of_fits hdate,
    hcal.date2j x hy0 hmax, hcal.epoch, julianDay_eq (n := D - 1) (by omega), dateADT]

/-- The serial number of the 29th of April 2018, from the documentation. -/
theorem getDateFromSn_of_valid_doc :
    getDateFromSn pgCalendar (((2018 - 2000) * 1000 + (119 : ℕ)) * 10 ^ (8 : ℤ).toNat + 1) 8 =
      .ok (dateADT (Date.succ^[119 - 1] (.newYear 2018))) :=
  getDateFromSn_of_valid pgCalendar pgCalendar_gregorian 2018 119 8 1 (by decide) (by decide)
    (by decide) (by decide) (by decide) (by decide) (by decide) (by decide) (by decide)

/-- Where the quotient has a day that its year does not have, no error is raised: the
check accepts month 0 and day 0. -/
theorem getDateFromSn_of_invalid (cal : PgCalendar) (hcal : cal.Gregorian)
    (sn precision : ℤ) (hsn : Fits 64 sn) (hsn0 : 0 ≤ sn) (h0 : 0 ≤ precision)
    (h18 : precision ≤ 18) (hq : Fits 32 (sn.tdiv (10 ^ precision.toNat)))
    (hday : sn.tdiv (10 ^ precision.toNat) % 1000 = 0 ∨
      sn.tdiv (10 ^ precision.toNat) % 1000 >
        daysInYear (isLeapYear (2000 + sn.tdiv (10 ^ precision.toNat) / 1000))) :
    (∃ date, getDateFromSn cal sn precision = .ok date) ∧
    ¬ ∃ e, getDateFromSn cal sn precision = .error (.raised e) := by
  have hq0 : 0 ≤ sn.tdiv (10 ^ precision.toNat) := Int.tdiv_nonneg hsn0 (by positivity)
  have hq31 : sn.tdiv (10 ^ precision.toNat) < 2 ^ 31 := hq.2
  obtain ⟨hlo, hhi⟩ := year_lt hcal hq0 hq31
  have hgen := generateDateEx_of_invalid hcal (hday.imp_left fun h ↦ by omega)
  have hdate := hcal.fits _ 0 0 hlo hhi le_rfl (by norm_num) le_rfl (by norm_num)
  have hrun := getDateFromSn_eq cal hsn h0 h18 rfl hq0 hq31
  rw [hgen, Run.ok_bind, if_pos (isValidJulian_of_year hcal hlo hhi _ _),
    checked_of_fits hdate] at hrun
  refine ⟨⟨_, hrun⟩, ?_⟩
  rintro ⟨e, he⟩
  rw [hrun] at he
  cases he

/-- Day 366 of 2018. -/
theorem getDateFromSn_of_invalid_366 :
    (∃ date, getDateFromSn pgCalendar 18366 0 = .ok date) ∧
    ¬ ∃ e, getDateFromSn pgCalendar 18366 0 = .error (.raised e) :=
  getDateFromSn_of_invalid pgCalendar pgCalendar_gregorian 18366 0 (by decide) (by decide)
    (by decide) (by decide) (by decide) (.inr (by decide))

/-- Day 0 of 2018 is returned as a date of 2017. -/
theorem getDateFromSn_day_zero : ¬ ∀ sn precision : ℤ, Fits 64 sn → 0 ≤ sn →
    0 ≤ precision → precision ≤ 18 → Fits 32 (sn.tdiv (10 ^ precision.toNat)) →
    (sn.tdiv (10 ^ precision.toNat) % 1000 = 0 ∨
      sn.tdiv (10 ^ precision.toNat) % 1000 >
        daysInYear (isLeapYear (2000 + sn.tdiv (10 ^ precision.toNat) / 1000))) →
    ∃ e, getDateFromSn pgCalendar sn precision = .error (.raised e) := by
  intro h
  obtain ⟨e, he⟩ := h 18000 0 (by decide) (by decide) (by decide) (by decide) (by decide)
    (.inl (by decide))
  have hrun : getDateFromSn pgCalendar 18000 0 = .ok 6543 := by decide +kernel
  rw [hrun] at he
  cases he

end PgKmcb.Serial
