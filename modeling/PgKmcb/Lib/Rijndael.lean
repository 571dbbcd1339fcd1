import Mathlib.LinearAlgebra.Matrix.Circulant
import PgKmcb.Lib.BinaryPolynomial

/-!
# Rijndael

The block cipher as it is specified: a block is a matrix over the residues modulo
`X ^ 8 + X ^ 4 + X ^ 3 + X + 1`, bytes are substituted by the affine image of their
inverse, and columns are mixed by a product of matrices.  Nothing here is executable, and
nothing says how bytes are stored.
-/

namespace PgKmcb.Lib.Rijndael

open BinaryPolynomial Matrix Polynomial

/-- The residues that bytes stand for. -/
abbrev GF := Residues 8 0x1b

/-- The modulus of the residues. -/
theorem modulus_eq : modulus 8 0x1b = X ^ 8 + X ^ 4 + X ^ 3 + X + 1 := by
  have hbits : ofBits 8 0x1b = X ^ 4 + X ^ 3 + X + 1 := by
    simp [ofBits, Finset.sum_range_succ, Nat.testBit, Nat.shiftRight_eq_div_pow]
    ring
  rw [modulus, hbits]
  ring

/-- The residue of `X`. -/
noncomputable def x : GF := AdjoinRoot.root (modulus 8 0x1b)

/-- The coefficients of an inverse, each with four more of them, and a constant; an element
without an inverse has the inverse zero. -/
noncomputable def substitute (y : GF) : GF :=
  ∑ i ∈ Finset.range 8,
    (coeff 8 0x1b (Ring.inverse y) i + coeff 8 0x1b (Ring.inverse y) ((i + 4) % 8) +
      coeff 8 0x1b (Ring.inverse y) ((i + 5) % 8) + coeff 8 0x1b (Ring.inverse y) ((i + 6) % 8) +
      coeff 8 0x1b (Ring.inverse y) ((i + 7) % 8) +
      if (0x63).testBit i then 1 else 0 : ZMod 2) • x ^ i

/-- Rows and columns of a block. -/
abbrev Block := Matrix (Fin 4) (Fin 4) GF

/-- The row `r` is rotated by `r` columns. -/
def shiftRows (s : Block) : Block := .of fun r c ↦ s r (c + r)

/-- The matrix that mixes a column. -/
noncomputable def mix : Block := circulant ![x, 1, 1, x + 1]

/-- The matrix that mixes a column back. -/
noncomputable def unmix : Block :=
  circulant ![x ^ 3 + x ^ 2 + x, x ^ 3 + 1, x ^ 3 + x ^ 2 + 1, x ^ 3 + x + 1]

section Key

variable {nk : ℕ} [NeZero nk] (key : Matrix (Fin 4) (Fin nk) GF)

/-- The words of the key schedule; the first ones are the columns of the key.  Long keys
have one more substitution. -/
noncomputable def schedule (i : ℕ) : Fin 4 → GF :=
  if h : i < nk then fun r ↦ key r ⟨i, h⟩
  else
    have hnk := NeZero.pos nk
    schedule (i - nk) +
      if i % nk = 0 then
        (fun r ↦ substitute (schedule (i - 1) (r + 1))) + Pi.single 0 (x ^ (i / nk - 1))
      else if 6 < nk ∧ i % nk = 4 then fun r ↦ substitute (schedule (i - 1) r)
      else schedule (i - 1)
termination_by i

/-- The key of a round. -/
noncomputable def roundKey (round : ℕ) : Block :=
  .of fun r c ↦ schedule key (4 * round + c) r

/-- The block after some rounds. -/
noncomputable def rounds (s : Block) : ℕ → Block
  | 0 => s + roundKey key 0
  | n + 1 => mix * shiftRows ((rounds s n).map substitute) + roundKey key (n + 1)

/-- The block after all rounds, the last of which does not mix. -/
noncomputable def encrypt (nr : ℕ) (s : Block) : Block :=
  shiftRows ((rounds key s (nr - 1)).map substitute) + roundKey key nr

theorem schedule_of_lt (i : Fin nk) : schedule key i = fun r ↦ key r i := by
  rw [schedule, dif_pos i.isLt]

theorem schedule_add (n : ℕ) : schedule key (nk + n) = schedule key n +
    if n % nk = 0 then
      (fun r ↦ substitute (schedule key (nk + n - 1) (r + 1))) + Pi.single 0 (x ^ (n / nk))
    else if 6 < nk ∧ n % nk = 4 then fun r ↦ substitute (schedule key (nk + n - 1) r)
    else schedule key (nk + n - 1) := by
  rw [schedule, dif_neg (Nat.not_lt.mpr (Nat.le_add_right _ _)), Nat.add_sub_cancel_left,
    Nat.add_mod_left, Nat.add_div_left n (NeZero.pos nk), Nat.succ_sub_one]

end Key

theorem two_eq_zero : (2 : GF) = 0 := by
  rw [← one_add_one_eq_two, ← residue_one, ← residue_xor]
  exact residue_zero

/-- The two matrices are inverse to each other; no power of `x` has to be reduced. -/
theorem unmix_mul_mix : unmix * mix = 1 := by
  rw [unmix, mix, Fin.circulant_mul, ← Fin.circulant_ite]
  congr 1
  funext i
  fin_cases i <;> simp [mulVec, dotProduct, Fin.sum_univ_four, circulant_apply]
  · linear_combination (x ^ 4 + 2 * x ^ 3 + x ^ 2 + x + 1) * two_eq_zero
  · linear_combination (x ^ 4 + 2 * x ^ 3 + x ^ 2 + 2 * x + 1) * two_eq_zero
  · linear_combination (x ^ 4 + 2 * x ^ 3 + x ^ 2 + 2 * x + 1) * two_eq_zero
  · linear_combination (x ^ 4 + 2 * x ^ 3 + 2 * x ^ 2 + x + 1) * two_eq_zero

end PgKmcb.Lib.Rijndael
