import PgKmcb.Lib.Run
import Mathlib.Data.Rat.Floor

/-!
# Signed machine integers

A signed integer of `w` bits is an integer together with the duty to `Fits`.  The
operations that C leaves undefined when the result does not fit are checked; the
conversion to a narrower type is defined and wraps around.  Conversions from the
reals truncate toward zero.
-/

universe u

namespace PgKmcb.Lib

variable {ε : Type u} {w : ℕ} {x y : ℤ}

/-! ## Arithmetic -/

/-- A signed integer of `w` bits can hold the number. -/
def Fits (w : ℕ) (x : ℤ) : Prop := -2 ^ (w - 1) ≤ x ∧ x < 2 ^ (w - 1)

instance (w : ℕ) (x : ℤ) : Decidable (Fits w x) :=
  inferInstanceAs (Decidable (-2 ^ (w - 1) ≤ x ∧ x < 2 ^ (w - 1)))

/-- A number that is not negative has an upper bound only. -/
theorem fits_of_nonneg (h0 : 0 ≤ x) (h : x < 2 ^ (w - 1)) : Fits w x := by
  have hpow : (0 : ℤ) < 2 ^ (w - 1) := by positivity
  exact ⟨by linarith, h⟩

/-- The result of an operation, if the type can hold it. -/
def checked (w : ℕ) (x : ℤ) : Run ε ℤ :=
  if Fits w x then .ok x else .error (.undefined .overflow)

theorem checked_of_fits (h : Fits w x) : (checked w x : Run ε ℤ) = .ok x := if_pos h

/-- Division rounds toward zero. -/
def divide (w : ℕ) (x y : ℤ) : Run ε ℤ :=
  if y = 0 then .error (.undefined .divideByZero) else checked w (x.tdiv y)

/-- A quotient by a positive number is no further from zero than the dividend. -/
theorem fits_tdiv (hx : Fits w x) (hy : 0 < y) : Fits w (x.tdiv y) := by
  obtain ⟨hlo, hhi⟩ := hx
  have hpow : (0 : ℤ) < 2 ^ (w - 1) := by positivity
  constructor
  · calc -2 ^ (w - 1) ≤ (-2 ^ (w - 1) : ℤ).tdiv y := by
          rw [Int.neg_tdiv]
          exact neg_le_neg (Int.tdiv_le_self y hpow.le)
      _ ≤ x.tdiv y := Int.tdiv_le_tdiv hy hlo
  · rcases le_or_gt 0 x with h | h
    · exact (Int.tdiv_le_self y h).trans_lt hhi
    · have := Int.tdiv_le_tdiv hy h.le
      rw [Int.zero_tdiv] at this
      exact this.trans_lt hpow

theorem divide_of_pos (hx : Fits w x) (hy : 0 < y) :
    (divide w x y : Run ε ℤ) = .ok (x.tdiv y) := by
  rw [divide, if_neg hy.ne', checked_of_fits (fits_tdiv hx hy)]

/-- A quotient is below a positive number exactly when the dividend is below its
multiple. -/
theorem tdiv_lt_iff {z : ℤ} (hy : 0 < y) (hz : 0 < z) : x.tdiv y < z ↔ x < z * y := by
  refine ⟨Int.lt_mul_of_tdiv_lt hy, fun h ↦ ?_⟩
  rcases le_or_gt 0 x with hx | hx
  · rwa [Int.tdiv_eq_ediv_of_nonneg hx, Int.ediv_lt_iff_lt_mul hy]
  · have hquot := Int.tdiv_le_tdiv hy hx.le
    rw [Int.zero_tdiv] at hquot
    exact hquot.trans_lt hz

/-- Below zero a quotient stays above the next multiple. -/
theorem neg_le_tdiv_iff {z : ℤ} (hy : 0 < y) (hz : 0 ≤ z) :
    -z ≤ x.tdiv y ↔ -((z + 1) * y) < x := by
  have hneg : (-x).tdiv y < z + 1 ↔ -x < (z + 1) * y := tdiv_lt_iff hy (by omega)
  rw [Int.neg_tdiv] at hneg
  constructor
  · intro h
    have := hneg.mp (by omega)
    linarith
  · intro h
    have := hneg.mpr (by linarith)
    linarith

/-- Numbers in two places are in the order of the higher place, then of the lower one. -/
theorem mul_add_lt_mul_add_iff {b q r q' r' : ℤ} (h0 : 0 ≤ r) (hr : r < b) (h0' : 0 ≤ r')
    (hr' : r' < b) : q * b + r < q' * b + r' ↔ q < q' ∨ q = q' ∧ r < r' := by
  rcases lt_trichotomy q q' with hq | rfl | hq
  · have : (q + 1) * b ≤ q' * b := mul_le_mul_of_nonneg_right hq (h0.trans hr.le)
    exact iff_of_true (by linarith) (.inl hq)
  · simp
  · have : (q' + 1) * b ≤ q * b := mul_le_mul_of_nonneg_right hq (h0.trans hr.le)
    exact iff_of_false (by linarith) (by omega)

/-- Quotient and remainder of a division that rounds toward zero: the remainder is
smaller than the divisor and is zero or has the sign of the dividend. -/
structure TruncDiv (a b q r : ℤ) : Prop where
  eq : a = q * b + r
  lt : |r| < b
  sign : r = 0 ∨ r.sign = a.sign

/-- Truncating division has one quotient and one remainder. -/
theorem truncDiv_iff {a b q r : ℤ} (hb : 0 < b) :
    TruncDiv a b q r ↔ q = a.tdiv b ∧ r = a.tmod b := by
  constructor
  · rintro ⟨heq, hlt, hsign⟩
    rw [abs_lt] at hlt
    rcases le_or_gt 0 a with ha | ha
    · have hr : 0 ≤ r := by
        rcases hsign with h | h
        · exact h.ge
        · exact Int.sign_nonneg_iff.mp (h ▸ Int.sign_nonneg_iff.mpr ha)
      have huniq := (Int.tdiv_tmod_unique (q := q) (r := r) ha hb.ne').mpr
        ⟨by rw [heq]; ring, hr, by omega⟩
      exact ⟨huniq.1.symm, huniq.2.symm⟩
    · have hr : r ≤ 0 := by
        rcases hsign with h | h
        · exact h.le
        · rw [Int.sign_eq_neg_one_of_neg ha, Int.sign_eq_neg_one_iff_neg] at h
          exact h.le
      have huniq := (Int.tdiv_tmod_unique' (q := q) (r := r) ha.le hb.ne').mpr
        ⟨by rw [heq]; ring, by omega, hr⟩
      exact ⟨huniq.1.symm, huniq.2.symm⟩
  · rintro ⟨rfl, rfl⟩
    refine ⟨(Int.tdiv_mul_add_tmod a b).symm, abs_lt.mpr
      ⟨Int.lt_tmod_of_pos a hb, Int.tmod_lt_of_pos a hb⟩, ?_⟩
    rw [Int.sign_tmod]
    split_ifs with hdvd
    · exact .inl (Int.tmod_eq_zero_of_dvd hdvd)
    · exact .inr rfl

/-- The part of a number that the divisor divides, and the rest, fit where it does. -/
theorem fits_tdiv_mul (hx : Fits w x) (hy : 0 < y) :
    Fits w (x.tdiv y * y) ∧ Fits w (x - x.tdiv y * y) := by
  obtain ⟨hlo, hhi⟩ := hx
  have hpow : (0 : ℤ) < 2 ^ (w - 1) := by positivity
  have heq := Int.tdiv_mul_add_tmod x y
  have hrest : x - x.tdiv y * y = x.tmod y := by linarith
  rw [hrest, Fits, Fits]
  rcases le_or_gt 0 x with h | h
  · have hq : 0 ≤ x.tdiv y * y := mul_nonneg (Int.tdiv_nonneg h hy.le) hy.le
    have hr := Int.tmod_nonneg y h
    constructor <;> constructor <;> linarith
  · have hdiv : x.tdiv y ≤ 0 := by
      have := Int.tdiv_le_tdiv hy h.le
      rwa [Int.zero_tdiv] at this
    have hq : x.tdiv y * y ≤ 0 := mul_nonpos_of_nonpos_of_nonneg hdiv hy.le
    have hr : x.tmod y ≤ 0 := by
      have := Int.tmod_nonneg y (neg_nonneg.mpr h.le)
      rw [Int.neg_tmod] at this
      exact neg_nonneg.mp this
    constructor <;> constructor <;> linarith

/-- The conversion to a type of `w` bits, modulo `2 ^ w`. -/
def narrow (w : ℕ) (x : ℤ) : ℤ := x.bmod (2 ^ w)

/-- What the type can hold is unchanged by the conversion. -/
theorem narrow_of_fits (hw : 0 < w) (h : Fits w x) : narrow w x = x := by
  obtain ⟨w, rfl⟩ := Nat.exists_eq_succ_of_ne_zero hw.ne'
  obtain ⟨hlo, hhi⟩ := h
  rw [Nat.succ_sub_one] at hlo hhi
  refine Int.bmod_eq_of_le_mul_two ?_ ?_ <;>
    rw [Nat.succ_eq_add_one, pow_succ] <;> push_cast <;> linarith

/-- The conversion ends in the type. -/
theorem fits_narrow (hw : 0 < w) : Fits w (narrow w x) := by
  obtain ⟨w, rfl⟩ := Nat.exists_eq_succ_of_ne_zero hw.ne'
  have hpos : 0 < 2 ^ (w + 1) := by positivity
  have hlo := Int.le_bmod (x := x) hpos
  have hhi := Int.bmod_lt (x := x) hpos
  have hhalf : ((2 ^ (w + 1) : ℕ) : ℤ) = 2 * 2 ^ w := by
    push_cast
    ring
  rw [hhalf] at hlo hhi
  rw [Fits, Nat.succ_eq_add_one, Nat.add_sub_cancel, narrow]
  omega

/-- Only what the type can hold is unchanged by the conversion. -/
theorem narrow_eq_self_iff (hw : 0 < w) : narrow w x = x ↔ Fits w x :=
  ⟨fun h ↦ h ▸ fits_narrow hw, narrow_of_fits hw⟩

/-- The conversion takes off a multiple of `2 ^ w`, one for each time the number has
left the range of the type. -/
theorem narrow_eq_sub (hw : 0 < w) :
    narrow w x = x - 2 ^ w * ((x + 2 ^ (w - 1)) / 2 ^ w) := by
  obtain ⟨w, rfl⟩ := Nat.exists_eq_succ_of_ne_zero hw.ne'
  have hpos : (0 : ℤ) < 2 ^ w := by positivity
  have hhalf : (2 : ℤ) ^ (w + 1) = 2 ^ w + 2 ^ w := by ring
  rw [Nat.succ_eq_add_one, Nat.add_sub_cancel, eq_sub_iff_add_eq, narrow]
  obtain ⟨hlo, hhi⟩ : Fits (w + 1) (x.bmod (2 ^ (w + 1))) := fits_narrow (Nat.succ_pos w)
  rw [Nat.add_sub_cancel] at hlo hhi
  have hdiv := Int.bmod_add_bdiv x (2 ^ (w + 1))
  push_cast at hdiv
  have hquot : (x + 2 ^ w) / 2 ^ (w + 1) = x.bdiv (2 ^ (w + 1)) := by
    rw [Int.ediv_eq_iff_of_pos (by positivity)]
    constructor <;> linarith only [hlo, hhi, hdiv, hhalf]
  rw [hquot, hdiv]

/-- A number below `2 ^ 32` is kept by the conversion to an unsigned type of 32 bits. -/
theorem toNat_ofInt_natCast {n : ℕ} (h : n < 2 ^ 32) : (UInt32.ofInt n).toNat = n := by
  rw [UInt32.ofInt, UInt32.toNat_ofNat']
  omega

/-! ## Conversions from the reals -/

/-- The integer part of a number. -/
def truncate (x : ℚ) : ℤ := if 0 ≤ x then ⌊x⌋ else ⌈x⌉

@[simp] theorem truncate_intCast (x : ℤ) : truncate x = x := by simp [truncate]

theorem truncate_of_nonneg {x : ℚ} (h : 0 ≤ x) : truncate x = ⌊x⌋ := if_pos h

/-- The conversion to a signed type of `w` bits. -/
def convert (w : ℕ) (x : ℚ) : Run ε ℤ :=
  if Fits w (truncate x) then .ok (truncate x) else .error (.undefined .conversion)

theorem convert_of_fits {x : ℚ} (h : Fits w (truncate x)) :
    (convert w x : Run ε ℤ) = .ok (truncate x) := if_pos h

end PgKmcb.Lib
