import PgKmcb.Crypto.Builds
import PgKmcb.Crypto.Cbc
import PgKmcb.Crypto.Memory
import PgKmcb.Lib.Rijndael

/-!
# The code and the specification (`aes.c`)

The code has tables, shifts and exclusive ors where the specification has a field and
matrices over it.  `elem` reads a byte as an element, `toBlock` reads a state as a matrix,
and each step of a round is the step of the specification under that reading.
-/

namespace PgKmcb.Crypto

open PgKmcb.Lib BinaryPolynomial

/-- The element that a byte stands for. -/
noncomputable def elem (b : Byte) : Rijndael.GF := residue 8 0x1b b.toNat

theorem elem_injective : Function.Injective elem := fun b c h ↦
  UInt8.toNat_inj.mp (residue_injective b.toNat_lt c.toNat_lt h)

@[simp] theorem elem_zero : elem 0 = 0 := residue_zero

@[simp] theorem elem_one : elem 1 = 1 := residue_one

@[simp] theorem elem_xor (b c : Byte) : elem (b ^^^ c) = elem b + elem c := by
  rw [elem, UInt8.toNat_xor, residue_xor, elem, elem]

/-- `xtime` is the multiplication by `x`. -/
@[simp] theorem elem_xtime (b : Byte) : elem (xtime b) = Rijndael.x * elem b := by
  have hbits : ∀ i : Fin 256, (xtime (UInt8.ofFin i)).toNat = timesX 8 0x1b i := by
    decide +kernel
  exact (congrArg _ (hbits b.toFin)).trans (root_mul_residue (w := 7) b.toNat).symm

/-! ## Products -/

/-- The coefficient that a bit stands for. -/
noncomputable def bit (b : Byte) (i : ℕ) : Rijndael.GF := if b.toNat.testBit i then 1 else 0

theorem elem_eq_sum (b : Byte) : elem b = ∑ i ∈ Finset.range 8, bit b i * Rijndael.x ^ i := by
  simp only [elem, residue_eq_sum, bit, boole_mul, Rijndael.x]

/-- One of the addends of `Multiply`. -/
theorem elem_bit_mul {b c d : Byte} {i : ℕ} (h : d = if c.toNat.testBit i then 1 else 0) :
    elem (d * b) = bit c i * elem b := by
  subst h
  rw [bit]
  cases c.toNat.testBit i <;> simp

theorem bits_eq (c : Byte) :
    (c &&& (1 : Byte) = if c.toNat.testBit 0 then 1 else 0) ∧
    ((c >>> 1) &&& (1 : Byte) = if c.toNat.testBit 1 then 1 else 0) ∧
    ((c >>> 2) &&& (1 : Byte) = if c.toNat.testBit 2 then 1 else 0) ∧
    ((c >>> 3) &&& (1 : Byte) = if c.toNat.testBit 3 then 1 else 0) ∧
    ((c >>> 4) &&& (1 : Byte) = if c.toNat.testBit 4 then 1 else 0) := by
  have hbits : ∀ i : Fin 256,
      (UInt8.ofFin i &&& (1 : Byte) = if i.val.testBit 0 then 1 else 0) ∧
      ((UInt8.ofFin i >>> 1) &&& (1 : Byte) = if i.val.testBit 1 then 1 else 0) ∧
      ((UInt8.ofFin i >>> 2) &&& (1 : Byte) = if i.val.testBit 2 then 1 else 0) ∧
      ((UInt8.ofFin i >>> 3) &&& (1 : Byte) = if i.val.testBit 3 then 1 else 0) ∧
      ((UInt8.ofFin i >>> 4) &&& (1 : Byte) = if i.val.testBit 4 then 1 else 0) := by
    decide +kernel
  exact hbits c.toFin

/-- `Multiply` looks at the last five bits of its second factor only. -/
theorem elem_multiply (b c : Byte) : elem (multiply b c) = elem b * elem (c &&& 0x1f) := by
  have hmask : ∀ i, bit (c &&& 0x1f) i = if i < 5 then bit c i else 0 := by
    intro i
    have htest : (c &&& 0x1f).toNat.testBit i = (c.toNat.testBit i && decide (i < 5)) := by
      rw [UInt8.toNat_and, Nat.testBit_and]
      exact congrArg _ (Nat.testBit_two_pow_sub_one 5 i)
    rw [bit, htest, bit]
    by_cases hi : i < 5 <;> simp [hi]
  obtain ⟨h0, h1, h2, h3, h4⟩ := bits_eq c
  rw [multiply, elem_xor, elem_xor, elem_xor, elem_xor, elem_bit_mul h0, elem_bit_mul h1,
    elem_bit_mul h2, elem_bit_mul h3, elem_bit_mul h4, elem_eq_sum (c &&& 0x1f)]
  simp only [elem_xtime, Finset.sum_range_succ, Finset.sum_range_zero, hmask]
  simp
  ring

/-! ## Substitution -/

/-- Eight bits, moved to the left in a circle. -/
def rotate (n k : ℕ) : ℕ := (n <<< k ||| n >>> (8 - k)) % 2 ^ 8

theorem testBit_rotate {n k i : ℕ} (hn : n < 2 ^ 8) (hk : k ≤ 8) (hi : i < 8) :
    (rotate n k).testBit i = n.testBit ((i + (8 - k)) % 8) := by
  rw [rotate, Nat.testBit_mod_two_pow, Nat.testBit_or, Nat.testBit_shiftLeft,
    Nat.testBit_shiftRight]
  by_cases hki : k ≤ i
  · -- the bits that come in from the right are zero
    have hmod : (i + (8 - k)) % 8 = i - k := by omega
    have hzero : n.testBit (8 - k + i) = false :=
      Nat.testBit_lt_two_pow (hn.trans_le (Nat.pow_le_pow_right (by decide) (by omega)))
    simp [hmod, hzero, hki, hi]
  · have hmod : (i + (8 - k)) % 8 = 8 - k + i := by omega
    simp [hmod, hki, hi]

/-- The affine map, and what undoes it. -/
def affine (n : ℕ) : ℕ := n ^^^ rotate n 4 ^^^ rotate n 3 ^^^ rotate n 2 ^^^ rotate n 1 ^^^ 0x63

@[inherit_doc affine]
def unaffine (n : ℕ) : ℕ := rotate n 1 ^^^ rotate n 3 ^^^ rotate n 6 ^^^ 0x05

theorem testBit_affine {n i : ℕ} (hn : n < 2 ^ 8) (hi : i < 8) : (affine n).testBit i =
    (n.testBit i ^^ n.testBit ((i + 4) % 8) ^^ n.testBit ((i + 5) % 8) ^^
      n.testBit ((i + 6) % 8) ^^ n.testBit ((i + 7) % 8) ^^ (0x63).testBit i) := by
  simp only [affine, Nat.testBit_xor, testBit_rotate hn (show 4 ≤ 8 by decide) hi,
    testBit_rotate hn (show 3 ≤ 8 by decide) hi, testBit_rotate hn (show 2 ≤ 8 by decide) hi,
    testBit_rotate hn (show 1 ≤ 8 by decide) hi]

/-- The byte whose affine image is in the table. -/
def inverse (b : Byte) : Byte := .ofNat (unaffine (getSBoxValue b).toNat)

theorem affine_inverse (b : Byte) : affine (inverse b).toNat = (getSBoxValue b).toNat := by
  have hundo : ∀ i : Fin 256, affine (unaffine i % 2 ^ 8) = i := by decide +kernel
  rw [inverse, UInt8.toNat_ofNat']
  exact hundo (getSBoxValue b).toFin

/-- The product of every byte but zero and what is found for it in the table. -/
theorem mul_unaffine {b : Byte} (hb : b ≠ 0) :
    mul 8 0x1b b.toFin 8 (unaffine (sbox.get b.toFin).toNat % 2 ^ 8) = 1 := by
  have htable : ∀ p ∈ sbox.toList.zipIdx, p.2 ≠ 0 →
      mul 8 0x1b p.2 8 (unaffine p.1.toNat % 2 ^ 8) = 1 := by
    decide +kernel
  have hget := LookupTable.get_of_zipIdx (t := sbox) (P := fun i s ↦ i ≠ 0 →
    mul 8 0x1b i 8 (unaffine s.toNat % 2 ^ 8) = 1) htable b.toFin
  exact hget fun h ↦ hb (UInt8.toNat_inj.mp h)

/-- It is the inverse. -/
theorem elem_mul_inverse {b : Byte} (hb : b ≠ 0) : elem b * elem (inverse b) = 1 := by
  have hinverse : (inverse b).toNat = unaffine (sbox.get b.toFin).toNat % 2 ^ 8 :=
    UInt8.toNat_ofNat'
  have hone := mul_unaffine hb
  rw [UInt8.toFin_val, ← hinverse] at hone
  rw [elem, elem, ← residue_mul (w := 7), hone, residue_one]

theorem ring_inverse_elem (b : Byte) : Ring.inverse (elem b) = elem (inverse b) := by
  rcases eq_or_ne b 0 with rfl | hb
  · have hzero : inverse 0 = 0 := by decide
    rw [hzero, elem_zero, Ring.inverse_zero]
  · have hunit : IsUnit (elem b) := IsUnit.of_mul_eq_one _ (elem_mul_inverse hb)
    rw [← mul_one (Ring.inverse (elem b)), ← elem_mul_inverse hb,
      Ring.inverse_mul_cancel_left _ _ hunit]

/-- The product of two bytes is right exactly when no bit of the second factor is ignored, or
nothing depends on it. -/
theorem multiply_field_iff (b c : Byte) :
    elem (multiply b c) = elem b * elem c ↔ b = 0 ∨ c < 0x20 := by
  have hlt : c &&& 0x1f = c ↔ c < 0x20 := by
    rw [← UInt8.toNat_inj, UInt8.toNat_and, UInt8.lt_iff_toNat_lt]
    change c.toNat &&& (2 ^ 5 - 1) = c.toNat ↔ c.toNat < 2 ^ 5
    rw [Nat.and_two_pow_sub_one_eq_mod, Nat.mod_eq_iff_lt (by decide)]
  rw [elem_multiply, ← hlt]
  rcases eq_or_ne b 0 with rfl | hb
  · simp
  · have hunit : IsUnit (elem b) := IsUnit.of_mul_eq_one _ (elem_mul_inverse hb)
    rw [hunit.mul_right_inj, elem_injective.eq_iff, or_iff_right hb]

/-- The table is the substitution of the specification. -/
theorem elem_getSBoxValue (b : Byte) :
    elem (getSBoxValue b) = Rijndael.substitute (elem b) := by
  have hxor : ∀ p q : Bool, (if p ^^ q then 1 else 0 : ZMod 2) =
      (if p then 1 else 0) + if q then 1 else 0 := by decide
  rw [elem_eq_sum, Rijndael.substitute, ring_inverse_elem]
  refine Finset.sum_congr rfl fun i hi ↦ ?_
  rw [Finset.mem_range] at hi
  have hmod : ∀ k, (i + k) % 8 < 8 := fun k ↦ Nat.mod_lt _ (by decide)
  have hbit := testBit_affine (inverse b).toNat_lt hi
  simp only [elem, coeff_residue, hi, hmod, true_and, ← hxor, ← hbit, affine_inverse, bit]
  cases (getSBoxValue b).toNat.testBit i <;> simp

/-! ## Steps of a round -/

/-- The elements of a word. -/
noncomputable def Word.elems (w : Word) : Fin 4 → Rijndael.GF :=
  ![elem w.b0, elem w.b1, elem w.b2, elem w.b3]

/-- The matrix of a state; its columns are the words. -/
noncomputable def toBlock (s : State) : Rijndael.Block :=
  .of fun r c ↦ ![s.c0.elems, s.c1.elems, s.c2.elems, s.c3.elems] c r

theorem Word.elems_injective : Function.Injective Word.elems := by
  intro v w h
  have hbyte : ∀ i, v.elems i = w.elems i := congrFun h
  exact Word.ext (elem_injective (hbyte 0)) (elem_injective (hbyte 1))
    (elem_injective (hbyte 2)) (elem_injective (hbyte 3))

theorem toBlock_injective : Function.Injective toBlock := by
  intro s t h
  have hcol : ∀ c, (fun r ↦ toBlock s r c) = fun r ↦ toBlock t r c := by simp [h]
  exact State.ext (Word.elems_injective (hcol 0)) (Word.elems_injective (hcol 1))
    (Word.elems_injective (hcol 2)) (Word.elems_injective (hcol 3))

@[simp] theorem Word.elems_xor (v w : Word) : (v.xor w).elems = v.elems + w.elems := by
  funext i
  fin_cases i <;> simp [Word.xor, Word.elems]

theorem Word.elems_map {f : Byte → Byte} {g : Rijndael.GF → Rijndael.GF}
    (h : ∀ b, elem (f b) = g (elem b)) (w : Word) : (w.map f).elems = fun i ↦ g (w.elems i) := by
  funext i
  fin_cases i <;> simp [Word.map, Word.elems, h]

theorem toBlock_xor (s t : State) : toBlock (s.xor t) = toBlock s + toBlock t := by
  ext r c
  fin_cases c <;> simp [toBlock, State.xor]

theorem toBlock_subBytes (s : State) :
    toBlock (subBytes s) = (toBlock s).map Rijndael.substitute := by
  ext r c
  fin_cases c <;> simp [toBlock, subBytes, State.map, Word.elems_map elem_getSBoxValue]

theorem toBlock_shiftRows (s : State) :
    toBlock (shiftRows s) = Rijndael.shiftRows (toBlock s) := by
  ext r c
  fin_cases r <;> fin_cases c <;> simp [toBlock, shiftRows, Rijndael.shiftRows, Word.elems]

/-- A column is mixed by the matrix. -/
theorem elems_mixColumn (w : Word) :
    (mixColumn w).elems = Rijndael.mix.mulVec w.elems := by
  obtain ⟨a, b, c, d⟩ := w
  funext i
  fin_cases i <;>
    simp [mixColumn, Word.elems, Rijndael.mix, Matrix.mulVec, dotProduct, Fin.sum_univ_four,
      Matrix.circulant_apply]
  · linear_combination elem a * Rijndael.two_eq_zero
  · linear_combination elem b * Rijndael.two_eq_zero
  · linear_combination elem c * Rijndael.two_eq_zero
  · linear_combination elem d * Rijndael.two_eq_zero

/-- The four constants of `InvMixColumns`. -/
theorem elem_constants :
    elem 0x0e = Rijndael.x ^ 3 + Rijndael.x ^ 2 + Rijndael.x ∧
    elem 0x0b = Rijndael.x ^ 3 + Rijndael.x + 1 ∧
    elem 0x0d = Rijndael.x ^ 3 + Rijndael.x ^ 2 + 1 ∧
    elem 0x09 = Rijndael.x ^ 3 + 1 := by
  refine ⟨?_, ?_, ?_, ?_⟩ <;>
    simp [elem_eq_sum, Finset.sum_range_succ, bit, Nat.testBit, Nat.shiftRight_eq_div_pow] <;>
    ring

/-- A column is mixed back by the other matrix. -/
theorem elems_invMixColumn (w : Word) :
    (invMixColumn w).elems = Rijndael.unmix.mulVec w.elems := by
  obtain ⟨he, hb, hd, h9⟩ := elem_constants
  have hmul : ∀ b : Byte,
      elem (multiply b 0x0e) = elem b * elem 0x0e ∧ elem (multiply b 0x0b) = elem b * elem 0x0b ∧
      elem (multiply b 0x0d) = elem b * elem 0x0d ∧ elem (multiply b 0x09) = elem b * elem 0x09 :=
    fun b ↦ ⟨elem_multiply b _, elem_multiply b _, elem_multiply b _, elem_multiply b _⟩
  obtain ⟨a, b, c, d⟩ := w
  funext i
  fin_cases i <;>
    simp [invMixColumn, Word.elems, Rijndael.unmix, Matrix.mulVec, dotProduct,
      Fin.sum_univ_four, Matrix.circulant_apply, hmul, he, hb, hd, h9] <;>
    ring

theorem toBlock_mixColumns (s : State) :
    toBlock (mixColumns s) = Rijndael.mix * toBlock s := by
  ext r c
  have hcol : ∀ w : Word, (mixColumn w).elems r = ∑ k, Rijndael.mix r k * w.elems k :=
    fun w ↦ congrFun (elems_mixColumn w) r
  rw [Matrix.mul_apply]
  fin_cases c <;> exact hcol _

/-- `InvMixColumns` multiplies by a matrix, and that matrix is the inverse of the one that
`MixColumns` multiplies by. -/
theorem invMixColumns_unmix : Rijndael.unmix * Rijndael.mix = 1 ∧ ∀ s : State,
    toBlock (mixColumns s) = Rijndael.mix * toBlock s ∧
      toBlock (invMixColumns s) = Rijndael.unmix * toBlock s := by
  refine ⟨Rijndael.unmix_mul_mix, fun s ↦ ⟨toBlock_mixColumns s, ?_⟩⟩
  ext r c
  have hcol : ∀ w : Word, (invMixColumn w).elems r = ∑ k, Rijndael.unmix r k * w.elems k :=
    fun w ↦ congrFun (elems_invMixColumn w) r
  rw [Matrix.mul_apply]
  fin_cases c <;> exact hcol _

/-! ## The key schedule -/

/-- The constants of the rounds are the powers of `x`. -/
theorem elem_rcon (j : Fin 10) : elem (rcon.get j.succ) = Rijndael.x ^ j.val := by
  have htable : ∀ j : Fin 10, rcon.get j.succ = xtime^[j] 1 := by decide
  have hpow : ∀ n, elem (xtime^[n] 1) = Rijndael.x ^ n := by
    intro n
    induction n with
    | zero => simp
    | succ n ih => rw [Function.iterate_succ_apply', elem_xtime, ih, pow_succ']
  rw [htable, hpow]

instance (b : Build) : NeZero b.nk := ⟨Nat.ne_of_gt b.nk_pos⟩

variable {b : Build}

/-- The matrix of a key; its columns are the words. -/
noncomputable def keyBlock (key : Vector Word b.nk) : Matrix (Fin 4) (Fin b.nk) Rijndael.GF :=
  .of fun r c ↦ key[c].elems r

/-- The word that is added, in the terms of the specification. -/
theorem elems_tempaOf {n : ℕ} (hn : b.nk + n < b.keyExpWords) (last : Word) :
    (tempaOf b (b.nk + n) hn last).elems =
      if n % b.nk = 0 then
        (fun r ↦ Rijndael.substitute (last.elems (r + 1))) +
          Pi.single 0 (Rijndael.x ^ (n / b.nk))
      else if 6 < b.nk ∧ n % b.nk = 4 then fun r ↦ Rijndael.substitute (last.elems r)
      else last.elems := by
  have hmod : (b.nk + n) % b.nk = n % b.nk := Nat.add_mod_left _ _
  have hlong : b = .aes256 ∧ n % b.nk = 4 ↔ 6 < b.nk ∧ n % b.nk = 4 :=
    and_congr_left fun _ ↦ by cases b <;> decide
  have hsub : ∀ w, (subWord w).elems = fun r ↦ Rijndael.substitute (w.elems r) :=
    Word.elems_map elem_getSBoxValue
  have hrotate : (subWord (rotWord last)).elems =
      fun r ↦ Rijndael.substitute (last.elems (r + 1)) := by
    rw [hsub]
    funext r
    fin_cases r <;> simp [rotWord, Word.elems]
  by_cases h0 : n % b.nk = 0
  · have hne : ¬ (b = .aes256 ∧ (b.nk + n) % b.nk = 4) := fun h ↦ by omega
    have hdiv : (b.nk + n) / b.nk = n / b.nk + 1 := Nat.add_div_left n b.nk_pos
    have hlt : n / b.nk < 10 := by
      have := b.div_nk_lt hn
      omega
    have hrcon : elem (rcon.get ⟨(b.nk + n) / b.nk, b.div_nk_lt hn⟩) =
        Rijndael.x ^ (n / b.nk) := by
      rw [show (⟨(b.nk + n) / b.nk, b.div_nk_lt hn⟩ : Fin 11) = Fin.succ ⟨n / b.nk, hlt⟩ from
        Fin.ext hdiv, elem_rcon]
    have hconst : (⟨rcon.get ⟨(b.nk + n) / b.nk, b.div_nk_lt hn⟩, 0, 0, 0⟩ : Word).elems =
        Pi.single 0 (Rijndael.x ^ (n / b.nk)) := by
      funext r
      fin_cases r <;> simp [Word.elems, hrcon]
    rw [tempaOf, if_neg hne, if_pos (hmod.trans h0), if_pos h0, Word.elems_xor, hrotate, hconst]
  · simp only [tempaOf, hmod, hlong, h0, if_false]
    split_ifs
    · exact hsub last
    · rfl

/-- The first words of the key schedule. -/
theorem elems_expandOf (key : Vector Word b.nk) (n : ℕ) (hn : b.nk + n ≤ b.keyExpWords) (i : ℕ)
    (hi : i < b.nk + n) : (expandOf key n hn)[i].elems = Rijndael.schedule (keyBlock key) i := by
  induction n generalizing i with
  | zero =>
      rw [Rijndael.schedule_of_lt (keyBlock key) ⟨i, hi⟩]
      rfl
  | succ n ih =>
      have hn' : b.nk + n ≤ b.keyExpWords := Nat.le_of_succ_le hn
      have hpos := b.nk_pos
      simp only [expandOf, Vector.getElem_push]
      split
      · rename_i hlt
        exact ih hn' i hlt
      · -- the word that the loop has appended
        have hi' : i = b.nk + n := by omega
        subst hi'
        rw [Word.elems_xor, elems_tempaOf, ih hn' n (by omega),
          ih hn' (b.nk + n - 1) (by omega), Rijndael.schedule_add]

/-- All words of `KeyExpansion`. -/
theorem elems_keyExpansionOf (key : Vector Word b.nk) (i : ℕ) (hi : i < b.keyExpWords) :
    (keyExpansionOf key)[i].elems = Rijndael.schedule (keyBlock key) i := by
  simp only [keyExpansionOf, Vector.getElem_cast, elems_expandOf]

theorem toBlock_addRoundKeyOf (key : Vector Word b.nk) {round : ℕ} (h : round ≤ b.nr)
    (s : State) : toBlock (addRoundKeyOf (keyExpansionOf key) round h s) =
      toBlock s + Rijndael.roundKey (keyBlock key) round := by
  rw [addRoundKeyOf, toBlock_xor]
  congr 1
  ext r c
  fin_cases c <;> simp [toBlock, Rijndael.roundKey, elems_keyExpansionOf, Nat.mul_comm]

/-! ## The cipher -/

/-- The loop of `Cipher` has gone through the rounds of the specification. -/
theorem toBlock_rounds (key : Vector Word b.nk) (s : State) (n : ℕ) (h : n ≤ b.nr) :
    toBlock (rounds (keyExpansionOf key) s n h) =
      Rijndael.rounds (keyBlock key) (toBlock s) n := by
  induction n with
  | zero => exact toBlock_addRoundKeyOf key h s
  | succ n ih =>
      rw [rounds, toBlock_addRoundKeyOf, toBlock_mixColumns, toBlock_shiftRows,
        toBlock_subBytes, ih, Rijndael.rounds]

theorem toBlock_cipherOf (key : Vector Word b.nk) (s : State) :
    toBlock (cipherOf (keyExpansionOf key) s) =
      Rijndael.encrypt (keyBlock key) b.nr (toBlock s) := by
  rw [cipherOf, toBlock_addRoundKeyOf, toBlock_shiftRows, toBlock_subBytes, toBlock_rounds,
    Rijndael.encrypt]

/-- What is decrypted with the same round keys is what was encrypted. -/
theorem invCipherOf_eq_iff (roundKey : Vector Word b.keyExpWords) (s t : State) :
    invCipherOf roundKey t = s ↔ cipherOf roundKey s = t := by
  have hleft : Function.LeftInverse (invCipherOf roundKey) (cipherOf roundKey) :=
    invCipherOf_cipherOf roundKey
  have hright := hleft.rightInverse_of_surjective
    (Finite.surjective_of_injective hleft.injective)
  constructor
  · rintro rfl
    exact hright t
  · rintro rfl
    exact hleft s

/-- In every build, `Cipher` and `InvCipher`, with the round keys of `KeyExpansion`, are the
encryption of the specification and its inverse. -/
theorem cipherOf_rijndael (b : Build) (key : Vector Word b.nk) (s t : State) :
    (cipherOf (keyExpansionOf key) s = t ↔
      Rijndael.encrypt (keyBlock key) b.nr (toBlock s) = toBlock t) ∧
    (invCipherOf (keyExpansionOf key) t = s ↔
      Rijndael.encrypt (keyBlock key) b.nr (toBlock s) = toBlock t) := by
  rw [invCipherOf_eq_iff, ← toBlock_cipherOf, toBlock_injective.eq_iff]
  exact ⟨Iff.rfl, Iff.rfl⟩

/-- The cipher of the extension is the encryption of the specification with ten rounds. -/
theorem cipher_rijndael (key s t : State) :
    (cipher (keyExpansion key) s = t ↔
      Rijndael.encrypt (toBlock key) 10 (toBlock s) = toBlock t) ∧
    (invCipher (keyExpansion key) t = s ↔
      Rijndael.encrypt (toBlock key) 10 (toBlock s) = toBlock t) := by
  obtain ⟨hkey, hcipher, -⟩ := cipherOf_aes128 key s
  obtain ⟨-, -, hinv⟩ := cipherOf_aes128 key t
  have hblock : keyBlock (b := .aes128) #v[key.c0, key.c1, key.c2, key.c3] = toBlock key := by
    ext r c
    fin_cases c <;> rfl
  have hspec := toBlock_cipherOf (b := .aes128) #v[key.c0, key.c1, key.c2, key.c3] s
  have hiff := invCipherOf_eq_iff (b := .aes128) (keyExpansion key) s t
  rw [hkey, hcipher, hblock] at hspec
  rw [hinv, hcipher] at hiff
  rw [hiff, ← toBlock_injective.eq_iff, hspec]
  exact ⟨Iff.rfl, Iff.rfl⟩

end PgKmcb.Crypto
