import Mathlib.Algebra.CharP.Two
import Mathlib.Algebra.Field.ZMod
import Mathlib.Algebra.Polynomial.Degree.Lemmas
import Mathlib.Data.Nat.Bitwise
import Mathlib.RingTheory.AdjoinRoot

/-!
# Numbers as polynomials over the field of two elements

A number below `2 ^ w` stands for the polynomial whose coefficients are its bits, and so
for a residue modulo a polynomial `X ^ w + r` of degree `w`.  The addition of residues is
the exclusive or (`residue_xor`), the multiplication by `X` is a shift that takes `r` off
again if a bit is lost (`root_mul_residue`), and every product is made of these two
(`residue_mul`).

The modulus may be any one of that form; whether the residues are a field is a question
that these rules do not ask.
-/

namespace PgKmcb.Lib.BinaryPolynomial

open Polynomial

/-! ## Polynomials -/

/-- The polynomial whose coefficients are the first `w` bits of a number. -/
noncomputable def ofBits (w n : ℕ) : (ZMod 2)[X] :=
  ∑ i ∈ Finset.range w, if n.testBit i then X ^ i else 0

theorem coeff_ofBits (w n i : ℕ) :
    (ofBits w n).coeff i = if i < w ∧ n.testBit i then 1 else 0 := by
  have hterm : ∀ j, (if n.testBit j then X ^ j else (0 : (ZMod 2)[X])).coeff i =
      if i = j then (if n.testBit i then 1 else 0) else 0 := by
    intro j
    rcases eq_or_ne i j with rfl | hij
    · cases n.testBit i <;> simp
    · cases n.testBit j <;> simp [coeff_X_pow, hij]
  simp only [ofBits, finsetSum_coeff, hterm, Finset.sum_ite_eq, Finset.mem_range, ite_and]

theorem ofBits_xor (w m n : ℕ) : ofBits w (m ^^^ n) = ofBits w m + ofBits w n := by
  ext i
  rw [coeff_add, coeff_ofBits, coeff_ofBits, coeff_ofBits, Nat.testBit_xor]
  by_cases hi : i < w
  · simp only [hi, true_and]
    cases m.testBit i <;> cases n.testBit i <;> decide
  · simp [hi]

theorem degree_ofBits_lt (w n : ℕ) : (ofBits w n).degree < w := by
  refine (degree_lt_iff_coeff_zero _ _).mpr fun i hi ↦ ?_
  rw [coeff_ofBits, if_neg fun h ↦ absurd h.1 (Nat.not_lt.mpr hi)]

theorem ofBits_mod (w n : ℕ) : ofBits w (n % 2 ^ w) = ofBits w n := by
  ext i
  rw [coeff_ofBits, coeff_ofBits, Nat.testBit_mod_two_pow]
  by_cases hi : i < w <;> simp [hi]

/-- Numbers of `w` bits are told apart. -/
theorem ofBits_injective {w m n : ℕ} (hm : m < 2 ^ w) (hn : n < 2 ^ w)
    (h : ofBits w m = ofBits w n) : m = n := by
  apply Nat.eq_of_testBit_eq
  intro i
  by_cases hi : i < w
  · have hcoeff := congrArg (coeff · i) h
    simp only [coeff_ofBits, hi, true_and] at hcoeff
    cases hm' : m.testBit i <;> cases hn' : n.testBit i <;> simp_all
  · have hle : 2 ^ w ≤ 2 ^ i := Nat.pow_le_pow_right (by decide) (Nat.le_of_not_lt hi)
    rw [Nat.testBit_lt_two_pow (hm.trans_le hle), Nat.testBit_lt_two_pow (hn.trans_le hle)]

/-- A shift, with the bit that is lost. -/
theorem X_mul_ofBits (w n : ℕ) : X * ofBits (w + 1) n =
    ofBits (w + 1) (2 * n) + if n.testBit w then X ^ (w + 1) else 0 := by
  ext i
  have hlost : (if n.testBit w then X ^ (w + 1) else (0 : (ZMod 2)[X])).coeff i =
      if n.testBit w ∧ i = w + 1 then 1 else 0 := by
    cases n.testBit w <;> simp [coeff_X_pow]
  rw [coeff_add, hlost, coeff_ofBits]
  cases i with
  | zero => simp
  | succ i =>
      rw [coeff_X_mul, coeff_ofBits, Nat.testBit_succ, Nat.mul_div_cancel_left n two_pos]
      rcases lt_trichotomy i w with hi | rfl | hi
      · simp [hi, hi.ne, hi.trans (Nat.lt_succ_self w)]
      · simp
      · simp [hi.ne', show ¬ i < w + 1 by omega, show ¬ i < w by omega]

/-! ## Residues -/

/-- The modulus of degree `w` with the lower coefficients `r`. -/
noncomputable def modulus (w r : ℕ) : (ZMod 2)[X] := X ^ w + ofBits w r

theorem monic_modulus (w r : ℕ) : (modulus w r).Monic := monic_X_pow_add (degree_ofBits_lt w r)

theorem degree_modulus (w r : ℕ) : (modulus w r).degree = w := by
  rw [modulus, degree_add_eq_left_of_degree_lt (by simpa using degree_ofBits_lt w r),
    degree_X_pow]

variable (w r : ℕ)

/-- The residues modulo `X ^ w + r`. -/
abbrev Residues := AdjoinRoot (modulus w r)

/-- The residue that a number stands for. -/
noncomputable def residue (n : ℕ) : Residues w r := AdjoinRoot.mk (modulus w r) (ofBits w n)

/-- The coefficients of a residue. -/
noncomputable def coeff (y : Residues w r) (i : ℕ) : ZMod 2 :=
  (AdjoinRoot.modByMonicHom (monic_modulus w r) y).coeff i

variable {w r}

theorem modByMonicHom_residue (n : ℕ) :
    AdjoinRoot.modByMonicHom (monic_modulus w r) (residue w r n) = ofBits w n := by
  rw [residue, AdjoinRoot.modByMonicHom_mk, modByMonic_eq_self_iff (monic_modulus w r),
    degree_modulus]
  exact degree_ofBits_lt w n

/-- The coefficients are the bits. -/
theorem coeff_residue (n i : ℕ) :
    coeff w r (residue w r n) i = if i < w ∧ n.testBit i then 1 else 0 := by
  rw [coeff, modByMonicHom_residue, coeff_ofBits]

theorem residue_injective {m n : ℕ} (hm : m < 2 ^ w) (hn : n < 2 ^ w)
    (h : residue w r m = residue w r n) : m = n := by
  refine ofBits_injective hm hn ?_
  rw [← modByMonicHom_residue (r := r), h, modByMonicHom_residue]

@[simp] theorem residue_zero : residue w r 0 = 0 := by simp [residue, ofBits]

theorem residue_xor (m n : ℕ) : residue w r (m ^^^ n) = residue w r m + residue w r n := by
  rw [residue, ofBits_xor, map_add]
  rfl

theorem residue_mod (n : ℕ) : residue w r (n % 2 ^ w) = residue w r n := by
  rw [residue, ofBits_mod]
  rfl

/-- A residue is the sum of the powers of `X` at its bits. -/
theorem residue_eq_sum (n : ℕ) : residue w r n =
    ∑ i ∈ Finset.range w, if n.testBit i then AdjoinRoot.root (modulus w r) ^ i else 0 := by
  rw [residue, ofBits, map_sum]
  refine Finset.sum_congr rfl fun i _ ↦ ?_
  cases n.testBit i <;> simp

/-- What `X ^ w` is reduced to. -/
theorem root_pow : AdjoinRoot.root (modulus w r) ^ w = residue w r r := by
  rw [AdjoinRoot.root, ← map_pow, residue, AdjoinRoot.mk_eq_mk, CharTwo.sub_eq_add]
  exact dvd_refl _

/-- The number of the residue that is `X` times another one: a shift, and `r` if a bit is
lost. -/
def timesX (w r n : ℕ) : ℕ := (2 * n % 2 ^ w) ^^^ (if n.testBit (w - 1) then r else 0)

theorem root_mul_residue (n : ℕ) : AdjoinRoot.root (modulus (w + 1) r) * residue (w + 1) r n =
    residue (w + 1) r (timesX (w + 1) r n) := by
  rw [timesX, residue_xor, residue_mod, Nat.add_sub_cancel, residue, AdjoinRoot.root, ← map_mul,
    X_mul_ofBits, map_add, residue]
  cases n.testBit w with
  | false => simp
  | true =>
      rw [if_pos rfl, if_pos rfl, map_pow, ← root_pow]
      rfl

/-- The first `k` bits of a number, the last one apart. -/
theorem ofBits_succ (k n : ℕ) :
    ofBits (k + 1) n = X * ofBits k (n / 2) + if n.testBit 0 then 1 else 0 := by
  rw [ofBits, Finset.sum_range_succ', ofBits, Finset.mul_sum]
  congr 1
  refine Finset.sum_congr rfl fun i _ ↦ ?_
  rw [Nat.testBit_succ]
  cases (n / 2).testBit i <;> simp [pow_succ']

@[simp] theorem residue_one : residue (w + 1) r 1 = 1 := by
  have hzero : ofBits w 0 = 0 := by simp [ofBits]
  simp [residue, ofBits_succ, hzero]

/-- The number of a product, from the first `k` bits of the second factor on. -/
def mul (w r m : ℕ) : ℕ → ℕ → ℕ
  | 0, _ => 0
  | k + 1, n => timesX w r (mul w r m k (n / 2)) ^^^ if n.testBit 0 then m else 0

theorem residue_mul_ofBits (m k n : ℕ) : residue (w + 1) r (mul (w + 1) r m k n) =
    residue (w + 1) r m * AdjoinRoot.mk (modulus (w + 1) r) (ofBits k n) := by
  induction k generalizing n with
  | zero => simp [mul, ofBits]
  | succ k ih =>
      rw [mul, residue_xor, ← root_mul_residue, ih, ofBits_succ, map_add, map_mul,
        ← AdjoinRoot.root]
      cases n.testBit 0 with
      | false =>
          simp
          ring
      | true =>
          simp
          ring

/-- Residues are multiplied by shifts and exclusive ors. -/
theorem residue_mul (m n : ℕ) : residue (w + 1) r (mul (w + 1) r m (w + 1) n) =
    residue (w + 1) r m * residue (w + 1) r n := residue_mul_ofBits m (w + 1) n

end PgKmcb.Lib.BinaryPolynomial
