import PgKmcb.Lib.MachineInt
import Mathlib.Algebra.Order.Field.Rat
import Mathlib.Tactic.FieldSimp
import Mathlib.Tactic.Positivity

/-!
# Rounding by cutting

A program without a rounding instruction cuts a number toward zero and then decides
whether to add one.  `roundBy` is such a rounding; the decision is a predicate of the
number.  What is needed of it to get a monotone projection onto the integers is collected
in `IsThreshold`: one is added to positive numbers only, never to an integer, and between
two integers to all numbers from some point on.  The point may be another one between the
next two integers.

`IsNearestUp` says what rounding half up is for, and `digit` gives the decimals of a
number that a rule about digits looks at.
-/

namespace PgKmcb.Lib

variable {x y : ℚ}

/-! ## Cutting -/

/-- What is cut off is smaller than one. -/
theorem abs_sub_truncate_lt (x : ℚ) : |x - truncate x| < 1 := by
  rw [truncate, abs_lt]
  split_ifs
  · have hle := Int.floor_le x
    have hlt := Int.lt_floor_add_one x
    constructor <;> linarith
  · have hle := Int.le_ceil x
    have hlt := Int.ceil_lt_add_one x
    constructor <;> linarith

/-- Cutting does not go away from zero. -/
theorem abs_truncate_le (x : ℚ) : |(truncate x : ℚ)| ≤ |x| := by
  rw [truncate]
  split_ifs with h
  · have hfloor : (0 : ℚ) ≤ ⌊x⌋ := by exact_mod_cast Int.floor_nonneg.mpr h
    rw [abs_of_nonneg hfloor, abs_of_nonneg h]
    exact Int.floor_le x
  · have hx := le_of_not_ge h
    have hceil : (⌈x⌉ : ℚ) ≤ 0 := by exact_mod_cast Int.ceil_le.mpr (by exact_mod_cast hx)
    rw [abs_of_nonpos hceil, abs_of_nonpos hx]
    exact neg_le_neg (Int.le_ceil x)

@[simp] theorem truncate_neg (x : ℚ) : truncate (-x) = -truncate x := by
  rcases lt_trichotomy x 0 with h | rfl | h
  · rw [truncate, truncate, if_pos (by linarith), if_neg (not_le.mpr h), Int.floor_neg]
  · simp [truncate]
  · rw [truncate, truncate, if_neg (by linarith), if_pos h.le, Int.ceil_neg]

/-- The part that is cut off a number that is not negative. -/
theorem sub_truncate_of_nonneg (h : 0 ≤ x) : x - truncate x = Int.fract x := by
  rw [truncate_of_nonneg h]
  rfl

/-- For the other numbers it is not positive. -/
theorem sub_truncate_of_nonpos (h : x ≤ 0) : x - truncate x ≤ 0 := by
  have hneg := sub_truncate_of_nonneg (neg_nonneg.mpr h)
  have hfract := Int.fract_nonneg (-x)
  rw [truncate_neg] at hneg
  push_cast at hneg
  linarith

/-- A number that is not positive is cut to the next integer above it. -/
theorem truncate_of_nonpos (h : x ≤ 0) : truncate x = ⌈x⌉ := by
  have hneg := truncate_neg (-x)
  rwa [neg_neg, truncate_of_nonneg (neg_nonneg.mpr h), Int.floor_neg, neg_neg] at hneg

/-- The numbers that are cut to an integer of the type. -/
theorem fits_truncate_iff {w : ℕ} :
    Fits w (truncate x) ↔ -2 ^ (w - 1) - 1 < x ∧ x < 2 ^ (w - 1) := by
  have hpow : (0 : ℤ) < 2 ^ (w - 1) := by positivity
  rcases le_total 0 x with h | h
  · have hfloor := Int.floor_nonneg.mpr h
    have hpow' : (0 : ℚ) < 2 ^ (w - 1) := by positivity
    have hlt : ⌊x⌋ < 2 ^ (w - 1) ↔ x < 2 ^ (w - 1) := by
      rw [Int.floor_lt]
      push_cast
      rfl
    rw [Fits, truncate_of_nonneg h, hlt]
    exact and_congr_left fun _ ↦ iff_of_true (by linarith) (by linarith)
  · have hceil := Int.ceil_nonpos.mpr h
    have hpow' : (0 : ℚ) < 2 ^ (w - 1) := by positivity
    have hle : -2 ^ (w - 1) ≤ ⌈x⌉ ↔ -2 ^ (w - 1) - 1 < x := by
      rw [← Int.sub_one_lt_iff, Int.lt_ceil]
      push_cast
      rfl
    rw [Fits, truncate_of_nonpos h, hle]
    exact and_congr_right fun _ ↦ iff_of_true (by linarith) (by linarith)

/-! ## Rounding -/

/-- Rounding half up, by the part that is cut off. -/
theorem round_eq_floor_add (x : ℚ) :
    round x = ⌊x⌋ + if 1 / 2 ≤ Int.fract x then 1 else 0 := by
  have hsplit := Int.floor_add_fract x
  have hlt := Int.fract_lt_one x
  have hnonneg := Int.fract_nonneg x
  rw [round_eq, Int.floor_eq_iff]
  split_ifs with hhalf
  · push_cast
    constructor <;> linarith
  · push_cast
    constructor <;> linarith

/-- What is rounded to an integer or more. -/
theorem le_round_iff {n : ℤ} : n ≤ round x ↔ n - 1 / 2 ≤ x := by
  rw [round_eq, Int.le_floor, sub_le_iff_le_add]

/-- The integer that a number is cut to, and one more if the decision says so. -/
def roundBy (Up : ℚ → Prop) [DecidablePred Up] (x : ℚ) : ℤ :=
  truncate x + if Up x then 1 else 0

/-- A decision by a threshold between any two integers, on the positive side. -/
structure IsThreshold (Up : ℚ → Prop) : Prop where
  nonneg : ∀ {x}, Up x → 0 ≤ x
  not_intCast : ∀ n : ℤ, ¬ Up n
  mono : ∀ {x y}, Up x → x ≤ y → ⌊x⌋ = ⌊y⌋ → Up y

section RoundBy

variable {Up : ℚ → Prop} [DecidablePred Up]

theorem roundBy_of_nonneg (h : 0 ≤ x) : roundBy Up x = ⌊x⌋ + if Up x then 1 else 0 := by
  rw [roundBy, truncate_of_nonneg h]

namespace IsThreshold

variable (hup : IsThreshold Up)
include hup

/-- Integers are left as they are. -/
theorem roundBy_intCast (n : ℤ) : roundBy Up n = n := by
  rw [roundBy, truncate_intCast, if_neg (hup.not_intCast n), add_zero]

theorem roundBy_of_neg (h : x < 0) : roundBy Up x = ⌈x⌉ := by
  have hnot : ¬ Up x := fun hx ↦ absurd (hup.nonneg hx) (not_le.mpr h)
  rw [roundBy, if_neg hnot, add_zero, truncate_of_nonpos h.le]

/-- Rounding keeps the order. -/
theorem roundBy_mono (h : x ≤ y) : roundBy Up x ≤ roundBy Up y := by
  rcases lt_or_ge x 0 with hx | hx
  · rw [hup.roundBy_of_neg hx]
    rcases lt_or_ge y 0 with hy | hy
    · rw [hup.roundBy_of_neg hy]
      exact Int.ceil_le_ceil h
    · have hfloor := Int.floor_nonneg.mpr hy
      have hceil := Int.ceil_nonpos.mpr hx.le
      rw [roundBy_of_nonneg hy]
      split_ifs <;> omega
  · rw [roundBy_of_nonneg hx, roundBy_of_nonneg (hx.trans h)]
    rcases (Int.floor_le_floor h).lt_or_eq with hlt | heq
    · split_ifs <;> omega
    · -- both lie between the same two integers
      by_cases hxup : Up x
      · rw [if_pos hxup, if_pos (hup.mono hxup h heq), heq]
      · rw [if_neg hxup, heq]
        split_ifs <;> omega

/-- Rounding changes a number by less than one. -/
theorem abs_roundBy_sub_lt (x : ℚ) : |(roundBy Up x : ℚ) - x| < 1 := by
  by_cases hxup : Up x
  · have hx := hup.nonneg hxup
    have hfract : 0 < Int.fract x := by
      rw [Int.fract_pos]
      intro heq
      exact hup.not_intCast _ (heq ▸ hxup)
    have hlt := Int.fract_lt_one x
    have hadd := Int.floor_add_fract x
    rw [roundBy_of_nonneg hx, if_pos hxup, abs_lt]
    push_cast
    constructor <;> linarith
  · rw [roundBy, if_neg hxup, add_zero, abs_sub_comm]
    exact abs_sub_truncate_lt x

end IsThreshold

end RoundBy

/-! ## The nearest multiple -/

/-- The multiple of a unit that is nearest to a number, and of two nearest ones the upper
one. -/
structure IsNearestUp (unit x r : ℚ) : Prop where
  multiple : ∃ n : ℤ, r = n * unit
  nearest : ∀ n : ℤ, |r - x| ≤ |n * unit - x|
  tie : ∀ n : ℤ, |n * unit - x| = |r - x| → n * unit ≤ r

/-- The number that is rounded is not half above the result. -/
theorem isNearestUp_one (x : ℚ) : IsNearestUp 1 x (round x) := by
  refine ⟨⟨round x, (mul_one _).symm⟩, ?_, ?_⟩
  · intro n
    rw [mul_one, abs_sub_comm, abs_sub_comm (n : ℚ)]
    exact round_le x n
  · intro n heq
    rw [mul_one] at heq ⊢
    by_contra hn
    have hn' : (round x : ℚ) + 1 ≤ n := by exact_mod_cast not_le.mp hn
    have hlt := sub_half_lt_round x
    have hfar : 1 / 2 < |(n : ℚ) - x| := lt_abs.mpr (.inl (by linarith))
    rw [heq, abs_sub_comm] at hfar
    exact absurd (abs_sub_round x) (not_le.mpr hfar)

/-- The same for any unit, by scaling. -/
theorem IsNearestUp.div {n : ℤ} {s : ℚ} (hs : 0 < s) (h : IsNearestUp 1 (x * s) n) :
    IsNearestUp (1 / s) x (n / s) := by
  have hscale : ∀ k : ℤ, |(k : ℚ) / s - x| = |k - x * s| / s := by
    intro k
    have heq : (k : ℚ) / s - x = (k - x * s) / s := by
      field_simp
    rw [heq, abs_div, abs_of_pos hs]
  obtain ⟨-, hnearest, htie⟩ := h
  refine ⟨⟨n, div_eq_mul_one_div _ _⟩, ?_, ?_⟩
  · intro k
    have hk := hnearest k
    rw [mul_one] at hk
    rw [mul_one_div, hscale, hscale]
    exact div_le_div_of_nonneg_right hk hs.le
  · intro k hk
    have hkn := htie k
    rw [mul_one] at hkn
    rw [mul_one_div, hscale, hscale, div_left_inj' hs.ne'] at hk
    rw [mul_one_div]
    exact div_le_div_of_nonneg_right (hkn hk) hs.le

/-! ## Decimals -/

/-- The digit of a number in the `i`-th place behind the point; for `0` it is the one
before the point. -/
def digit (x : ℚ) (i : ℕ) : ℤ := ⌊x * 10 ^ i⌋ % 10

/-- The two digits behind the first `p` are those of the fraction of the scaled number. -/
theorem digit_succ (x : ℚ) (p : ℕ) :
    digit x (p + 1) = ⌊Int.fract (x * 10 ^ p) * 100⌋ / 10 ∧
    digit x (p + 2) = ⌊Int.fract (x * 10 ^ p) * 100⌋ % 10 := by
  have hone : x * 10 ^ (p + 1) = x * 10 ^ p * 10 := by ring
  have htwo : x * 10 ^ (p + 2) = x * 10 ^ p * 100 := by ring
  rw [digit, digit, hone, htwo]
  generalize x * 10 ^ p = z
  have hsplit := Int.floor_add_fract z
  have hnonneg := Int.fract_nonneg z
  have hlt := Int.fract_lt_one z
  generalize ⌊z⌋ = n at *
  generalize Int.fract z = f at *
  subst hsplit
  have hten : (n + f) * 10 = ((n * 10 : ℤ) : ℚ) + f * 10 := by
    push_cast
    ring
  have hhundred : (n + f) * 100 = ((n * 100 : ℤ) : ℚ) + f * 100 := by
    push_cast
    ring
  have hdiv : ⌊f * 10⌋ = ⌊f * 100⌋ / 10 := by
    have hquot : f * 10 = f * 100 / (10 : ℕ) := by
      push_cast
      ring
    rw [hquot, Int.floor_div_natCast]
    rfl
  have h0 : 0 ≤ ⌊f * 100⌋ := Int.floor_nonneg.mpr (by linarith)
  have h100 : ⌊f * 100⌋ < 100 := Int.floor_lt.mpr (by push_cast; linarith)
  rw [hten, hhundred, Int.floor_intCast_add, Int.floor_intCast_add, hdiv]
  omega

end PgKmcb.Lib
