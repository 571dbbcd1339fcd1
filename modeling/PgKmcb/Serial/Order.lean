import PgKmcb.Serial.Date
import Mathlib.Data.Prod.Lex

/-!
# The order of serial numbers (`pg_datetime.c`, `se_datetime.c`)

In a serial number the year stands in front of the day, and the day in front of the
identifier.  A `Stamp` is what a serial number is formed from, and `Stamp.serial` forms it.
A serial number whose day exists is the one of a stamp, the functions read this stamp, and
the serial numbers are in the order of the dates that are read, then of the identifiers
(`serial_order`): an index on the numbers is one on the dates.

The date is counted by the calendar, where the years have different lengths; in the number
every year has room for 1000 days.
-/

namespace PgKmcb.Serial

open PgKmcb.Lib

/-- A date from 2000 on, with an identifier of so many digits. -/
structure Stamp (p : ℕ) where
  date : Date
  id : ℕ
  year_ge : 2000 ≤ date.year
  id_lt : id < 10 ^ p

namespace Stamp

variable {p : ℕ}

/-- The year and the day of the year. -/
def yydoy (t : Stamp p) : ℤ := (t.date.year - 2000) * 1000 + t.date.dayOfYear

/-- The serial number of a stamp. -/
def serial (t : Stamp p) : ℤ := t.yydoy * 10 ^ p + t.id

/-- The date as the server counts it, then the identifier. -/
def key (t : Stamp p) : ℤ ×ₗ ℤ := toLex (dateADT t.date, t.id)

theorem dayOfYear_lt (t : Stamp p) : (t.date.dayOfYear : ℤ) < 1000 := by
  have hday := t.date.dayOfYear_mem.2
  rw [daysInYear] at hday
  split_ifs at hday <;> omega

/-- The years have no common days, whatever their lengths are. -/
theorem yydoy_lt_iff (t t' : Stamp p) : t.yydoy < t'.yydoy ↔ dateADT t.date < dateADT t'.date := by
  rw [yydoy, yydoy, mul_add_lt_mul_add_iff (Int.natCast_nonneg _) t.dayOfYear_lt
    (Int.natCast_nonneg _) t'.dayOfYear_lt, sub_lt_sub_iff_right, sub_left_inj, Nat.cast_lt,
    ← julianDay_lt_iff, dateADT, dateADT, sub_lt_sub_iff_right]

theorem yydoy_eq_iff (t t' : Stamp p) : t.yydoy = t'.yydoy ↔ dateADT t.date = dateADT t'.date := by
  rw [le_antisymm_iff, le_antisymm_iff, ← not_lt, ← not_lt, yydoy_lt_iff, yydoy_lt_iff, not_lt,
    not_lt]

/-- Serial numbers are in the order of their stamps. -/
theorem serial_lt_iff (t t' : Stamp p) : t.serial < t'.serial ↔ t.key < t'.key := by
  have hid : ∀ s : Stamp p, (s.id : ℤ) < 10 ^ p := fun s ↦ by exact_mod_cast s.id_lt
  rw [serial, serial, mul_add_lt_mul_add_iff (Int.natCast_nonneg _) (hid t)
    (Int.natCast_nonneg _) (hid t'), yydoy_lt_iff, yydoy_eq_iff, key, key,
    Prod.Lex.toLex_lt_toLex]

end Stamp

/-- A serial number that the functions can hold, of a day that its year has. -/
structure IsSerial (p : ℕ) (sn : ℤ) : Prop where
  nonneg : 0 ≤ sn
  fits : Fits 64 sn
  quotient : Fits 32 (sn.tdiv (10 ^ p))
  day_pos : 1 ≤ sn.tdiv (10 ^ p) % 1000
  day_le : sn.tdiv (10 ^ p) % 1000 ≤ daysInYear (isLeapYear (2000 + sn.tdiv (10 ^ p) / 1000))

instance (p : ℕ) (sn : ℤ) : Decidable (IsSerial p sn) :=
  decidable_of_iff (0 ≤ sn ∧ Fits 64 sn ∧ Fits 32 (sn.tdiv (10 ^ p)) ∧
      1 ≤ sn.tdiv (10 ^ p) % 1000 ∧
      sn.tdiv (10 ^ p) % 1000 ≤ daysInYear (isLeapYear (2000 + sn.tdiv (10 ^ p) / 1000)))
    ⟨fun ⟨h1, h2, h3, h4, h5⟩ ↦ ⟨h1, h2, h3, h4, h5⟩,
      fun ⟨h1, h2, h3, h4, h5⟩ ↦ ⟨h1, h2, h3, h4, h5⟩⟩

/-- `get_date_from_sn` and `get_id_from_sn` of one serial number. -/
def readStamp (cal : PgCalendar) (sn precision : ℤ) : Call (ℤ ×ₗ ℤ) := do
  let date ← getDateFromSn cal sn precision
  let id ← getIdFromSn sn precision
  return toLex (date, id)

/-- The date that is read lies in the year and on the day that the serial number says. -/
theorem getDateFromSn_of_isSerial {cal : PgCalendar} (hcal : cal.Gregorian) {p : ℕ}
    (hp : p ≤ 18) {sn : ℤ} (h : IsSerial p sn) :
    ∃ x : Date, 2000 ≤ x.year ∧
      (x.year - 2000) * 1000 + x.dayOfYear = sn.tdiv (10 ^ p) ∧
      getDateFromSn cal sn p = .ok (dateADT x) := by
  obtain ⟨hnonneg, hfits, hquot, hday_pos, hday_le⟩ := h
  have h18 : (p : ℤ) ≤ 18 := by exact_mod_cast hp
  have hq0 : 0 ≤ sn.tdiv (10 ^ p) := Int.tdiv_nonneg hnonneg (by positivity)
  obtain ⟨hlo, hhi⟩ := year_lt hcal hq0 hquot.2
  obtain ⟨D, hD⟩ := Int.eq_ofNat_of_zero_le (zero_le_one.trans hday_pos)
  rw [hD] at hday_pos hday_le
  obtain ⟨x, hyear, hdoy, hgen⟩ := generateDateEx_of_valid hcal
    (y := 2000 + sn.tdiv (10 ^ p) / 1000) (D := D) (by omega) (by omega)
  rw [← hyear] at hlo hhi
  have hday : (x.day : ℤ) ≤ 31 := by
    exact_mod_cast x.day_le.trans (daysInMonth_le _ _ x.month_le)
  have hdate : Fits 32 (cal.date2j x.year x.month x.day - cal.postgresEpochJdate) :=
    hcal.fits _ _ _ hlo hhi (by omega) (by exact_mod_cast x.month_le) (by omega) hday
  refine ⟨x, hlo, by omega, ?_⟩
  rw [getDateFromSn_eq cal hfits (Int.natCast_nonneg p) h18 rfl hq0 hquot.2, Int.toNat_natCast,
    hD, hgen, Run.ok_bind, ← hyear, if_pos (isValidJulian_of_year hcal hlo hhi _ _),
    checked_of_fits hdate, hcal.date2j x hlo hhi, hcal.epoch, dateADT]

/-- The functions read the stamp of a serial number. -/
theorem readStamp_eq {cal : PgCalendar} (hcal : cal.Gregorian) {p : ℕ} (hp : p ≤ 18) {sn : ℤ}
    (h : IsSerial p sn) : ∃ t : Stamp p, t.serial = sn ∧ readStamp cal sn p = .ok t.key := by
  obtain ⟨x, hyear, hyydoy, hdate⟩ := getDateFromSn_of_isSerial hcal hp h
  have hL : (0 : ℤ) < 10 ^ p := by positivity
  have hid_lt := Int.tmod_lt_of_pos sn hL
  have hparts := Int.tdiv_mul_add_tmod sn (10 ^ p)
  obtain ⟨i, hi⟩ := Int.eq_ofNat_of_zero_le (Int.tmod_nonneg (10 ^ p) h.nonneg)
  rw [hi] at hid_lt hparts
  refine ⟨⟨x, i, hyear, by exact_mod_cast hid_lt⟩, ?_, ?_⟩
  · rw [Stamp.serial, Stamp.yydoy, hyydoy]
    exact hparts
  · have hlpow := lpow_of_le (Int.natCast_nonneg p) (by exact_mod_cast hp)
    rw [Int.toNat_natCast] at hlpow
    rw [readStamp, hdate, Run.ok_bind, getIdFromSn_eq h.fits hL hlpow,
      decode_of_fits h.fits hL h.quotient, hi]
    rfl

/-- Serial numbers are in the order of the dates that the functions read, then of the
identifiers. -/
theorem serial_order (cal : PgCalendar) (hcal : cal.Gregorian) (p : ℕ) (hp : p ≤ 18)
    (sn sn' : ℤ) (h : IsSerial p sn) (h' : IsSerial p sn') :
    ∃ t t' : Stamp p, t.serial = sn ∧ t'.serial = sn' ∧
      readStamp cal sn p = .ok t.key ∧ readStamp cal sn' p = .ok t'.key ∧
      (sn < sn' ↔ t.key < t'.key) := by
  obtain ⟨t, rfl, ht⟩ := readStamp_eq hcal hp h
  obtain ⟨t', rfl, ht'⟩ := readStamp_eq hcal hp h'
  exact ⟨t, t', rfl, rfl, ht, ht', t.serial_lt_iff t'⟩

/-- The last day of 2017 and the first one of 2018. -/
theorem serial_order_new_year : ∃ t t' : Stamp 8,
    t.serial = 1736500000009 ∧ t'.serial = 1800100000001 ∧
      readStamp pgCalendar 1736500000009 (8 : ℕ) = .ok t.key ∧
      readStamp pgCalendar 1800100000001 (8 : ℕ) = .ok t'.key ∧
      ((1736500000009 : ℤ) < 1800100000001 ↔ t.key < t'.key) :=
  serial_order pgCalendar pgCalendar_gregorian 8 (by decide) 1736500000009 1800100000001
    (by decide) (by decide)

end PgKmcb.Serial
