import Mathlib.Algebra.Order.Ring.Int
import Mathlib.Logic.Function.Iterate
import Mathlib.Tactic.Ring

/-!
# The Gregorian calendar

A `Date` carries the proof that its day exists, and `succ` is the next day.
`julianDay` is the closed form of the day number; `julianDay_succ` shows that it
counts days, so that `n` days after a date are found by adding `n`
(`julianDay_iterate`), and `julianDay_eq` finds a date from its day of the year.
-/

namespace PgKmcb.Lib

/-- Every fourth year is a leap year, except the centuries that 400 does not divide. -/
def isLeapYear (y : ℤ) : Bool := decide (y % 4 = 0 ∧ (y % 100 ≠ 0 ∨ y % 400 = 0))

/-- The number of days of a month. -/
def daysInMonth (leap : Bool) : ℕ → ℕ
  | 1 | 3 | 5 | 7 | 8 | 10 | 12 => 31
  | 4 | 6 | 9 | 11 => 30
  | 2 => if leap then 29 else 28
  | _ => 0

/-- The number of days in the months before a month. -/
def daysBefore (leap : Bool) : ℕ → ℕ
  | 0 => 0
  | m + 1 => daysBefore leap m + daysInMonth leap m

/-- The number of days of a year. -/
def daysInYear (leap : Bool) : ℕ := if leap then 366 else 365

theorem daysBefore_year (leap : Bool) : daysBefore leap 13 = daysInYear leap := by
  cases leap <;> rfl

theorem daysInMonth_pos (leap : Bool) : ∀ m, 1 ≤ m → m ≤ 12 → 1 ≤ daysInMonth leap m := by
  cases leap <;> decide

theorem daysInMonth_le (leap : Bool) : ∀ m ≤ 12, daysInMonth leap m ≤ 31 := by
  cases leap <;> decide

/-- A date of the calendar. -/
structure Date where
  year : ℤ
  month : ℕ
  day : ℕ
  month_pos : 1 ≤ month
  month_le : month ≤ 12
  day_pos : 1 ≤ day
  day_le : day ≤ daysInMonth (isLeapYear year) month

namespace Date

/-- The first day of a year. -/
def newYear (y : ℤ) : Date where
  year := y
  month := 1
  day := 1
  month_pos := le_rfl
  month_le := by decide
  day_pos := le_rfl
  day_le := daysInMonth_pos _ 1 le_rfl (by decide)

/-- The next day. -/
def succ (x : Date) : Date :=
  if hday : x.day < daysInMonth (isLeapYear x.year) x.month then
    { x with day := x.day + 1, day_pos := Nat.le_add_left _ _, day_le := hday }
  else if hmonth : x.month < 12 then
    { year := x.year
      month := x.month + 1
      day := 1
      month_pos := Nat.le_add_left _ _
      month_le := hmonth
      day_pos := le_rfl
      day_le := daysInMonth_pos _ _ (Nat.le_add_left _ _) hmonth }
  else newYear (x.year + 1)

/-- The number of a date within its year. -/
def dayOfYear (x : Date) : ℕ := daysBefore (isLeapYear x.year) x.month + x.day

end Date

/-! ## Day numbers -/

/-- The Julian day number of the day before a year. -/
def julianYear (y : ℤ) : ℤ :=
  365 * (y - 1) + (y - 1) / 4 - (y - 1) / 100 + (y - 1) / 400 + 1721425

/-- The Julian day number of a date. -/
def julianDay (x : Date) : ℤ := julianYear x.year + x.dayOfYear

/-- A year is as long as its number of days. -/
theorem julianYear_succ (y : ℤ) :
    julianYear (y + 1) = julianYear y + daysInYear (isLeapYear y) := by
  rw [julianYear, julianYear, daysInYear, isLeapYear]
  split_ifs with h
  · rw [decide_eq_true_iff] at h
    push_cast
    omega
  · rw [decide_eq_true_iff] at h
    push_cast
    omega

theorem julianDay_newYear (y : ℤ) : julianDay (.newYear y) = julianYear y + 1 := rfl

theorem daysBefore_mono (leap : Bool) : Monotone (daysBefore leap) :=
  monotone_nat_of_le_succ fun _ ↦ Nat.le_add_right _ _

/-- A date lies within its year. -/
theorem Date.dayOfYear_mem (x : Date) :
    1 ≤ x.dayOfYear ∧ x.dayOfYear ≤ daysInYear (isLeapYear x.year) := by
  refine ⟨x.day_pos.trans (Nat.le_add_left _ _), ?_⟩
  rw [← daysBefore_year]
  exact (Nat.add_le_add_left x.day_le _).trans
    (daysBefore_mono _ (Nat.succ_le_succ x.month_le))

theorem julianYear_mono {y y' : ℤ} (h : y ≤ y') : julianYear y ≤ julianYear y' := by
  refine monotone_int_of_le_succ (fun y ↦ ?_) h
  rw [julianYear_succ]
  omega

/-- The dates of a year have lower numbers than those of a later year. -/
theorem julianDay_lt_of_year_lt {x x' : Date} (h : x.year < x'.year) :
    julianDay x < julianDay x' := by
  have hend := x.dayOfYear_mem.2
  calc julianDay x ≤ julianYear (x.year + 1) := by
        rw [julianYear_succ, julianDay]
        omega
    _ ≤ julianYear x'.year := julianYear_mono h
    _ < julianDay x' := lt_add_of_pos_right _ (by exact_mod_cast x'.dayOfYear_mem.1)

/-- Dates are in the order of their years, then of their days. -/
theorem julianDay_lt_iff {x x' : Date} : julianDay x < julianDay x' ↔
    x.year < x'.year ∨ x.year = x'.year ∧ x.dayOfYear < x'.dayOfYear := by
  rcases lt_trichotomy x.year x'.year with h | h | h
  · exact iff_of_true (julianDay_lt_of_year_lt h) (.inl h)
  · simp [julianDay, h]
  · exact iff_of_false (julianDay_lt_of_year_lt h).not_gt (by omega)

/-- The next day has the next number. -/
theorem julianDay_succ (x : Date) : julianDay x.succ = julianDay x + 1 := by
  rw [Date.succ]
  split_ifs with hday hmonth
  · rw [julianDay, julianDay, Date.dayOfYear, Date.dayOfYear]
    push_cast
    ring
  · have hlast : x.day = daysInMonth (isLeapYear x.year) x.month :=
      le_antisymm x.day_le (not_lt.mp hday)
    rw [julianDay, julianDay, Date.dayOfYear, Date.dayOfYear, daysBefore, hlast]
    push_cast
    ring
  · have hlast : x.day = daysInMonth (isLeapYear x.year) x.month :=
      le_antisymm x.day_le (not_lt.mp hday)
    have hdec : x.month = 12 := le_antisymm x.month_le (not_lt.mp hmonth)
    have hyear : x.dayOfYear = daysInYear (isLeapYear x.year) := by
      rw [Date.dayOfYear, hlast, hdec, ← daysBefore_year]
      rfl
    rw [julianDay_newYear, julianYear_succ, julianDay, hyear]

/-- The date `n` days later. -/
theorem julianDay_iterate (n : ℕ) (x : Date) :
    julianDay (Date.succ^[n] x) = julianDay x + n := by
  induction n with
  | zero => simp
  | succ n ih =>
      rw [Function.iterate_succ_apply', julianDay_succ, ih]
      push_cast
      ring

/-- A date is found from its year and its number within the year. -/
theorem julianDay_eq {x : Date} {n : ℕ} (hn : x.dayOfYear = n + 1) :
    julianDay x = julianDay (Date.succ^[n] (.newYear x.year)) := by
  rw [julianDay_iterate, julianDay_newYear, julianDay, hn]
  push_cast
  ring

end PgKmcb.Lib
