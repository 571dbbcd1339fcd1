import PgKmcb.Lib.BinaryPolynomial
import PgKmcb.Lib.ReflectedCrc

/-!
# Checks as remainders

What a reflected check computes, said without a register: the bytes of a string, each from
its lowest bit on, are the coefficients of a polynomial, the highest one first, and a
register is a remainder modulo the polynomial of the check.  A step of the register is a
multiplication by `X` (`root_mul_bitStep`), and after a string the register holds the
remainder of its polynomial times `X ^ w` (`mk_register`).

Two strings of one length have the same check exactly when the polynomial of the check
divides their difference (`register_eq_iff`).
-/

namespace PgKmcb.Lib.Crc

open Polynomial BinaryPolynomial

variable {v w : ℕ}

/-- The polynomial of a word, with the highest coefficient at the low end. -/
noncomputable def reflect (x : BitVec v) : (ZMod 2)[X] := ofBits v x.reverse.toNat

/-- The polynomial of the check, of which the word holds all coefficients but the first. -/
noncomputable def checkPolynomial (poly : BitVec w) : (ZMod 2)[X] :=
  modulus w poly.reverse.toNat

/-- The polynomial of a string. -/
noncomputable def message : List (BitVec 8) → (ZMod 2)[X]
  | [] => 0
  | b :: bs => reflect b * X ^ (8 * bs.length) + message bs

theorem coeff_reflect (x : BitVec v) (i : ℕ) :
    (reflect x).coeff i = if x.getMsbD i then 1 else 0 := by
  rw [reflect, coeff_ofBits, BitVec.testBit_toNat, BitVec.getLsbD_reverse]
  by_cases hi : i < v
  · simp [hi]
  · simp [hi, BitVec.getMsbD_of_ge x i (Nat.le_of_not_lt hi)]

@[simp] theorem reflect_xor (x y : BitVec v) : reflect (x ^^^ y) = reflect x + reflect y := by
  ext i
  rw [coeff_add, coeff_reflect, coeff_reflect, coeff_reflect, BitVec.getMsbD_xor]
  cases x.getMsbD i <;> cases y.getMsbD i <;> decide

/-- A word that is made wider is moved to the upper coefficients. -/
theorem reflect_setWidth (h : v ≤ w) (x : BitVec v) :
    reflect (x.setWidth w) = X ^ (w - v) * reflect x := by
  ext i
  rw [coeff_X_pow_mul', coeff_reflect, coeff_reflect, BitVec.getMsbD_setWidth]
  split_ifs <;> grind

/-- A shift to the right is one to the left for the reversed word. -/
theorem reverse_ushiftRight_one (x : BitVec w) : (x >>> 1).reverse = x.reverse <<< 1 := by
  apply BitVec.eq_of_getLsbD_eq
  intro i hi
  rw [BitVec.getLsbD_reverse, BitVec.getMsbD_ushiftRight, BitVec.getLsbD_shiftLeft,
    BitVec.getLsbD_reverse]
  simp [hi]

theorem reverse_xor (x y : BitVec w) : (x ^^^ y).reverse = x.reverse ^^^ y.reverse := by
  apply BitVec.eq_of_getLsbD_eq
  intro i _
  rw [BitVec.getLsbD_xor, BitVec.getLsbD_reverse, BitVec.getLsbD_reverse, BitVec.getLsbD_reverse,
    BitVec.getMsbD_xor]

theorem toNat_reverse_bitStep (poly x : BitVec (w + 1)) : (bitStep poly x).reverse.toNat =
    timesX (w + 1) poly.reverse.toNat x.reverse.toNat := by
  have hlost : x.reverse.toNat.testBit w = x.getLsbD 0 := by
    rw [BitVec.testBit_toNat, BitVec.getLsbD_reverse, BitVec.getMsbD_eq_getLsbD]
    simp
  have hshift : (x >>> 1).reverse.toNat = 2 * x.reverse.toNat % 2 ^ (w + 1) := by
    rw [reverse_ushiftRight_one, BitVec.toNat_shiftLeft, Nat.shiftLeft_eq, Nat.mul_comm, pow_one]
  rw [timesX, Nat.add_sub_cancel, hlost, bitStep, ← hshift]
  cases x.getLsbD 0 with
  | false => simp
  | true => rw [if_pos rfl, if_pos rfl, reverse_xor, BitVec.toNat_xor]

section Remainders

variable (poly : BitVec (w + 1))

/-- The remainder modulo the polynomial of the check. -/
noncomputable abbrev remainder : (ZMod 2)[X] →+* AdjoinRoot (checkPolynomial poly) :=
  AdjoinRoot.mk (checkPolynomial poly)

/-- A step of the register is a multiplication by `X`. -/
theorem remainder_bitStep (x : BitVec (w + 1)) :
    remainder poly (reflect (bitStep poly x)) = remainder poly (X * reflect x) := by
  rw [map_mul, reflect, toNat_reverse_bitStep]
  exact (root_mul_residue _).symm

theorem remainder_bitSteps (n : ℕ) (x : BitVec (w + 1)) :
    remainder poly (reflect (bitSteps poly n x)) = remainder poly (X ^ n * reflect x) := by
  induction n with
  | zero => rw [bitSteps, pow_zero, one_mul]
  | succ n ih =>
      have hmul := congrArg (remainder poly X * ·) ih
      rw [bitSteps, remainder_bitStep, pow_succ', mul_assoc, map_mul, map_mul]
      exact hmul

/-- A byte goes in above the coefficients that the register has. -/
theorem remainder_byteStep (h : 8 ≤ w + 1) (x : BitVec (w + 1)) (b : BitVec 8) :
    remainder poly (reflect (byteStep poly x b)) =
      remainder poly (X ^ 8 * reflect x + X ^ (w + 1) * reflect b) := by
  have hpow : (X : (ZMod 2)[X]) ^ 8 * (X ^ (w + 1 - 8) * reflect b) =
      X ^ (w + 1) * reflect b := by
    rw [← mul_assoc, ← pow_add, Nat.add_sub_cancel' h]
  rw [byteStep, remainder_bitSteps, reflect_xor, reflect_setWidth h, mul_add, hpow]

/-- The register after a string. -/
theorem remainder_register (h : 8 ≤ w + 1) (init : BitVec (w + 1)) (bs : List (BitVec 8)) :
    remainder poly (reflect (register poly init bs)) =
      remainder poly (X ^ (8 * bs.length) * reflect init + X ^ (w + 1) * message bs) := by
  induction bs generalizing init with
  | nil => simp [message]
  | cons b bs ih =>
      have hmove : X ^ (8 * (b :: bs).length) * reflect init + X ^ (w + 1) * message (b :: bs) =
          X ^ (8 * bs.length) * (X ^ 8 * reflect init + X ^ (w + 1) * reflect b) +
            X ^ (w + 1) * message bs := by
        rw [message, List.length_cons]
        ring
      calc remainder poly (reflect (register poly (byteStep poly init b) bs))
          = remainder poly (X ^ (8 * bs.length)) *
              remainder poly (reflect (byteStep poly init b)) +
              remainder poly (X ^ (w + 1) * message bs) := by
            rw [ih, map_add, map_mul]
        _ = remainder poly (X ^ (8 * (b :: bs).length) * reflect init +
              X ^ (w + 1) * message (b :: bs)) := by
            rw [remainder_byteStep poly h, hmove, map_add _ (X ^ (8 * bs.length) * _),
              map_mul _ (X ^ (8 * bs.length))]

end Remainders

/-- Words are told apart by their remainders. -/
theorem reflect_eq_of_dvd (poly : BitVec (w + 1)) {x y : BitVec (w + 1)}
    (h : checkPolynomial poly ∣ reflect x - reflect y) : x = y := by
  have hnat := residue_injective x.reverse.isLt y.reverse.isLt (AdjoinRoot.mk_eq_mk.mpr h)
  rw [← x.reverse_reverse_eq, BitVec.eq_of_toNat_eq hnat, BitVec.reverse_reverse_eq]

/-- A register is the remainder of the string, and it is the only word that is. -/
theorem register_eq_iff_dvd (poly : BitVec (w + 1)) (h : 8 ≤ w + 1) (init x : BitVec (w + 1))
    (bs : List (BitVec 8)) : register poly init bs = x ↔ checkPolynomial poly ∣
      X ^ (8 * bs.length) * reflect init + X ^ (w + 1) * message bs - reflect x := by
  have hregister := AdjoinRoot.mk_eq_mk.mp (remainder_register poly h init bs)
  constructor
  · rintro rfl
    rw [← neg_sub]
    exact hregister.neg_right
  · intro hx
    refine reflect_eq_of_dvd poly ?_
    have hsum := dvd_add hregister hx
    rwa [sub_add_sub_cancel] at hsum

/-- The polynomial of a check with its top bit set has a constant coefficient. -/
theorem isCoprime_X_checkPolynomial {poly : BitVec (w + 1)} (hp : poly.getLsbD w = true) :
    IsCoprime X (checkPolynomial poly) := by
  have hconst : (checkPolynomial poly).coeff 0 = 1 := by
    have htop : poly.reverse.toNat.testBit 0 = true := by
      rw [BitVec.testBit_toNat, BitVec.getLsbD_reverse, BitVec.getMsbD_eq_getLsbD]
      simpa using hp
    rw [checkPolynomial, modulus, coeff_add, coeff_X_pow, coeff_ofBits]
    simp [htop]
  refine ⟨-(checkPolynomial poly).divX, 1, ?_⟩
  have hdiv := divX_mul_X_add (checkPolynomial poly)
  rw [hconst] at hdiv
  nth_rewrite 2 [← hdiv]
  simp

/-- Strings of one length have the same register if and only if the polynomial of the check
divides their difference. -/
theorem register_eq_register_iff {poly : BitVec (w + 1)} (h : 8 ≤ w + 1)
    (hp : poly.getLsbD w = true) (init : BitVec (w + 1)) {as bs : List (BitVec 8)}
    (hlen : as.length = bs.length) : register poly init as = register poly init bs ↔
      checkPolynomial poly ∣ message as - message bs := by
  have hbs := (register_eq_iff_dvd poly h init _ bs).mp rfl
  have hsplit : X ^ (8 * as.length) * reflect init + X ^ (w + 1) * message as -
      reflect (register poly init bs) = X ^ (w + 1) * (message as - message bs) +
        (X ^ (8 * bs.length) * reflect init + X ^ (w + 1) * message bs -
          reflect (register poly init bs)) := by
    rw [hlen]
    ring
  rw [register_eq_iff_dvd poly h, hsplit, dvd_add_left hbs]
  exact ⟨(isCoprime_X_checkPolynomial hp).symm.pow_right.dvd_of_dvd_mul_left,
    fun hdvd ↦ hdvd.mul_left _⟩

end PgKmcb.Lib.Crc
