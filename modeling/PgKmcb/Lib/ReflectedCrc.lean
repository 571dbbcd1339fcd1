import Mathlib.Tactic.Common

/-!
# Reflected cyclic redundancy checks

The register of a reflected CRC is shifted to the right one bit at a time; the
polynomial is added whenever the bit that leaves is set.  This file defines the
check bit by bit, for any width and any polynomial, and collects what a proof
about a table-driven implementation needs.

* `bitSteps_xor` — the shift register is linear.
* `byteStep_eq_table` — eight single steps are one shift by eight and one table
  word, the table being `tableEntry`.
* `bitStep_injective` — a polynomial whose top bit is set loses nothing, so the
  register after a byte determines the register before it, and the byte.
* `register_injective_burst` — nor does it lose anything of as many bytes as the
  register has room for.
-/

namespace PgKmcb.Lib.Crc

variable {w : ℕ}

/-- One bit of the check: shift, and add the polynomial if a set bit left. -/
def bitStep (poly crc : BitVec w) : BitVec w :=
  if crc.getLsbD 0 then (crc >>> 1) ^^^ poly else crc >>> 1

/-- `n` bits of the check. -/
def bitSteps (poly : BitVec w) : ℕ → BitVec w → BitVec w
  | 0, crc => crc
  | n + 1, crc => bitStep poly (bitSteps poly n crc)

/-- One byte of the check: the byte is added to the low end of the register. -/
def byteStep (poly crc : BitVec w) (b : BitVec 8) : BitVec w :=
  bitSteps poly 8 (crc ^^^ b.setWidth w)

/-- The register after a string of bytes. -/
def register (poly init : BitVec w) (bs : List (BitVec 8)) : BitVec w :=
  bs.foldl (byteStep poly) init

/-- The check of a string of bytes. -/
def checksum (poly init final : BitVec w) (bs : List (BitVec 8)) : BitVec w :=
  register poly init bs ^^^ final

/-- The word a table-driven implementation keeps for a byte. -/
def tableEntry (poly : BitVec w) (b : BitVec 8) : BitVec w :=
  bitSteps poly 8 (b.setWidth w)

@[simp] theorem register_nil (poly init : BitVec w) : register poly init [] = init := rfl

theorem register_append (poly init : BitVec w) (as bs : List (BitVec 8)) :
    register poly init (as ++ bs) = register poly (register poly init as) bs :=
  List.foldl_append

/-! ## Linearity -/

theorem bitStep_xor (poly x y : BitVec w) :
    bitStep poly (x ^^^ y) = bitStep poly x ^^^ bitStep poly y := by
  unfold bitStep
  rw [BitVec.getLsbD_xor, BitVec.ushiftRight_xor_distrib]
  cases hx : x.getLsbD 0 <;> cases hy : y.getLsbD 0
  · rfl
  · exact BitVec.xor_assoc _ _ _
  · change x >>> 1 ^^^ y >>> 1 ^^^ poly = x >>> 1 ^^^ poly ^^^ y >>> 1
    rw [BitVec.xor_assoc, BitVec.xor_comm (y >>> 1), ← BitVec.xor_assoc]
  · change x >>> 1 ^^^ y >>> 1 = (x >>> 1 ^^^ poly) ^^^ (y >>> 1 ^^^ poly)
    calc x >>> 1 ^^^ y >>> 1
        = x >>> 1 ^^^ (poly ^^^ poly) ^^^ y >>> 1 := by rw [BitVec.xor_self, BitVec.xor_zero]
      _ = (x >>> 1 ^^^ poly) ^^^ (y >>> 1 ^^^ poly) := by
          rw [BitVec.xor_comm (y >>> 1) poly]
          simp only [BitVec.xor_assoc]

/-- The shift register is linear. -/
theorem bitSteps_xor (poly : BitVec w) (n : ℕ) (x y : BitVec w) :
    bitSteps poly n (x ^^^ y) = bitSteps poly n x ^^^ bitSteps poly n y := by
  induction n with
  | zero => rfl
  | succ n ih => simp only [bitSteps, ih, bitStep_xor]

/-- As long as only clear bits leave the register, it is merely shifted. -/
theorem bitSteps_of_low_clear (poly : BitVec w) {x : BitVec w} {n : ℕ}
    (h : ∀ i < n, x.getLsbD i = false) : bitSteps poly n x = x >>> n := by
  induction n with
  | zero => simp [bitSteps]
  | succ n ih =>
      have hlow : (x >>> n).getLsbD 0 = false := by
        simpa using h n (Nat.lt_succ_self n)
      rw [bitSteps, ih fun i hi ↦ h i (Nat.lt_succ_of_lt hi), bitStep, hlow,
        BitVec.shiftRight_add]
      rfl

/-! ## One byte at a time -/

/-- The low byte of a register, as a register. -/
def lowByte (x : BitVec w) : BitVec w := (x.setWidth 8).setWidth w

theorem getLsbD_lowByte (x : BitVec w) (i : ℕ) :
    (lowByte x).getLsbD i = (decide (i < 8) && x.getLsbD i) := by
  by_cases hw : i < w
  · simp [lowByte, hw]
  · simp [lowByte, hw, BitVec.getLsbD_of_ge x i (Nat.le_of_not_lt hw)]

theorem lowByte_shift (b : BitVec 8) : (b.setWidth w) >>> 8 = 0#w := by
  apply BitVec.eq_of_getLsbD_eq
  intro i _
  simp [BitVec.getLsbD_ushiftRight]

/-- Eight steps shift the register by a byte and add the table word of the byte
that left. -/
theorem bitSteps_eight (poly x : BitVec w) :
    bitSteps poly 8 x = (x >>> 8) ^^^ tableEntry poly (x.setWidth 8) := by
  have hsplit : x = (x ^^^ lowByte x) ^^^ lowByte x := by
    rw [BitVec.xor_assoc, BitVec.xor_self, BitVec.xor_zero]
  have hclear : ∀ i < 8, (x ^^^ lowByte x).getLsbD i = false := by
    intro i hi
    simp [getLsbD_lowByte, hi]
  have hhigh : (x ^^^ lowByte x) >>> 8 = x >>> 8 := by
    rw [BitVec.ushiftRight_xor_distrib, lowByte, lowByte_shift, BitVec.xor_zero]
  calc bitSteps poly 8 x
      = bitSteps poly 8 (x ^^^ lowByte x) ^^^ bitSteps poly 8 (lowByte x) := by
        rw [← bitSteps_xor, ← hsplit]
    _ = (x >>> 8) ^^^ tableEntry poly (x.setWidth 8) := by
        rw [bitSteps_of_low_clear poly hclear, hhigh]
        rfl

/-- The table-driven step: the bitwise step of a byte is a shift by eight and one
table word. -/
theorem byteStep_eq_table (poly crc : BitVec w) (b : BitVec 8) :
    byteStep poly crc b =
      (crc >>> 8) ^^^ tableEntry poly ((crc ^^^ b.setWidth w).setWidth 8) := by
  rw [byteStep, bitSteps_eight, BitVec.ushiftRight_xor_distrib, lowByte_shift,
    BitVec.xor_zero]

/-! ## Nothing is lost -/

/-- With the top bit of the polynomial set, the top bit of the new register says
which bit left. -/
theorem getLsbD_bitStep_top {poly : BitVec w} (hp : poly.getLsbD (w - 1) = true)
    (x : BitVec w) : (bitStep poly x).getLsbD (w - 1) = x.getLsbD 0 := by
  have hout : (x >>> 1).getLsbD (w - 1) = false := by
    rw [BitVec.getLsbD_ushiftRight]
    exact BitVec.getLsbD_of_ge x _ (by omega)
  unfold bitStep
  cases hx : x.getLsbD 0 with
  | false => simpa using hout
  | true => simp [hout, hp]

/-- A register is determined by its lowest bit and the rest. -/
theorem eq_of_low_of_shift {x y : BitVec w} (h0 : x.getLsbD 0 = y.getLsbD 0)
    (h1 : x >>> 1 = y >>> 1) : x = y := by
  apply BitVec.eq_of_getLsbD_eq
  intro i _
  cases i with
  | zero => exact h0
  | succ i => simpa [Nat.add_comm] using congrArg (fun z ↦ z.getLsbD i) h1

/-- A step of a polynomial whose top bit is set can be undone. -/
theorem bitStep_injective {poly : BitVec w} (hp : poly.getLsbD (w - 1) = true) :
    Function.Injective (bitStep poly) := by
  intro x y h
  have h0 : x.getLsbD 0 = y.getLsbD 0 := by
    rw [← getLsbD_bitStep_top hp x, h, getLsbD_bitStep_top hp y]
  refine eq_of_low_of_shift h0 ?_
  unfold bitStep at h
  rw [h0] at h
  cases hy : y.getLsbD 0 with
  | false => simpa [hy] using h
  | true =>
      simp only [hy, if_true] at h
      have := congrArg (· ^^^ poly) h
      simpa [BitVec.xor_assoc] using this

theorem bitSteps_injective {poly : BitVec w} (hp : poly.getLsbD (w - 1) = true) (n : ℕ) :
    Function.Injective (bitSteps poly n) := by
  induction n with
  | zero => exact fun _ _ h ↦ h
  | succ n ih => exact fun x y h ↦ ih (bitStep_injective hp h)

/-- After the same register, different bytes leave different registers. -/
theorem byteStep_injective_byte {poly : BitVec w} (hp : poly.getLsbD (w - 1) = true)
    (hw : 8 ≤ w) (crc : BitVec w) : Function.Injective (byteStep poly crc) := by
  intro a b h
  have hab : crc ^^^ a.setWidth w = crc ^^^ b.setWidth w := bitSteps_injective hp 8 h
  have hext : a.setWidth w = b.setWidth w := by
    have := congrArg (crc ^^^ ·) hab
    simpa [← BitVec.xor_assoc] using this
  have := congrArg (BitVec.setWidth 8) hext
  simpa [BitVec.setWidth_setWidth_of_le _ hw] using this

/-- After different registers, the same bytes leave different registers. -/
theorem register_injective {poly : BitVec w} (hp : poly.getLsbD (w - 1) = true)
    (bs : List (BitVec 8)) : Function.Injective (register poly · bs) := by
  induction bs with
  | nil => exact fun _ _ h ↦ h
  | cons b bs ih =>
      intro x y h
      have hxy : x ^^^ b.setWidth w = y ^^^ b.setWidth w := bitSteps_injective hp 8 (ih h)
      have := congrArg (· ^^^ b.setWidth w) hxy
      simpa [BitVec.xor_assoc] using this

/-! ## Bursts

As long as bytes fit into the register next to each other, they can be added to it all at
once, and the steps can be done afterwards. -/

theorem bitSteps_add (poly : BitVec w) (m n : ℕ) (x : BitVec w) :
    bitSteps poly (m + n) x = bitSteps poly m (bitSteps poly n x) := by
  induction m with
  | zero => rw [Nat.zero_add, bitSteps]
  | succ m ih => rw [Nat.succ_add, bitSteps, bitSteps, ih]

/-- Bytes next to each other, the first one at the low end. -/
def pack (w : ℕ) : List (BitVec 8) → BitVec w
  | [] => 0#w
  | b :: bs => b.setWidth w ^^^ pack w bs <<< 8

/-- The bytes take no more than their room. -/
theorem getLsbD_pack {bs : List (BitVec 8)} {i : ℕ} (h : 8 * bs.length ≤ i) :
    (pack w bs).getLsbD i = false := by
  induction bs generalizing i with
  | nil => exact BitVec.getLsbD_zero
  | cons b bs ih =>
      rw [List.length_cons, Nat.mul_succ] at h
      rw [pack, BitVec.getLsbD_xor, BitVec.getLsbD_setWidth, BitVec.getLsbD_shiftLeft,
        BitVec.getLsbD_of_ge b i (by omega), ih (by omega)]
      simp

/-- With room for one byte more, the bytes can be moved up and down again. -/
theorem pack_shiftLeft_shiftRight {bs : List (BitVec 8)} (h : 8 * (bs.length + 1) ≤ w) :
    pack w bs <<< 8 >>> 8 = pack w bs := by
  apply BitVec.eq_of_getLsbD_eq
  intro i hi
  rw [BitVec.getLsbD_ushiftRight, BitVec.getLsbD_shiftLeft]
  by_cases hroom : 8 + i < w
  · simp [hroom]
  · have hclear : (pack w bs).getLsbD i = false := getLsbD_pack (by omega)
    simp [hroom, hclear]

/-- Bytes that have been moved up only move down again. -/
theorem bitSteps_pack_shiftLeft (poly : BitVec w) {bs : List (BitVec 8)}
    (h : 8 * (bs.length + 1) ≤ w) : bitSteps poly 8 (pack w bs <<< 8) = pack w bs := by
  rw [bitSteps_of_low_clear poly, pack_shiftLeft_shiftRight h]
  intro i hi
  simp [hi]

/-- Adding the bytes at once. -/
theorem register_eq_pack (poly init : BitVec w) {bs : List (BitVec 8)} (h : 8 * bs.length ≤ w) :
    register poly init bs = bitSteps poly (8 * bs.length) (init ^^^ pack w bs) := by
  induction bs generalizing init with
  | nil => simp [pack, bitSteps]
  | cons b bs ih =>
      rw [List.length_cons] at h ⊢
      calc register poly init (b :: bs)
          = bitSteps poly (8 * bs.length) (byteStep poly init b ^^^ pack w bs) :=
            ih _ (by omega)
        _ = bitSteps poly (8 * bs.length)
              (bitSteps poly 8 (init ^^^ b.setWidth w ^^^ pack w bs <<< 8)) := by
            rw [bitSteps_xor poly 8, bitSteps_pack_shiftLeft poly h, byteStep]
        _ = bitSteps poly (8 * (bs.length + 1)) (init ^^^ pack w (b :: bs)) := by
            rw [← bitSteps_add, Nat.mul_succ, pack, BitVec.xor_assoc]

/-- Where they fit, different bytes are packed differently. -/
theorem pack_injective {as bs : List (BitVec 8)} (hlen : as.length = bs.length)
    (h : 8 * as.length ≤ w) (heq : pack w as = pack w bs) : as = bs := by
  induction as generalizing bs with
  | nil => exact (List.length_eq_zero_iff.mp hlen.symm).symm
  | cons a as ih =>
      cases bs with
      | nil => cases hlen
      | cons b bs =>
          rw [List.length_cons] at h
          have hlen' : as.length = bs.length := Nat.succ.inj hlen
          have hlow : ∀ (c : BitVec 8) (cs : List (BitVec 8)),
              (pack w (c :: cs)).setWidth 8 = c := by
            intro c cs
            apply BitVec.eq_of_getLsbD_eq
            intro i hi
            rw [BitVec.getLsbD_setWidth, pack, BitVec.getLsbD_xor, BitVec.getLsbD_setWidth,
              BitVec.getLsbD_shiftLeft]
            simp [hi, show i < w by omega]
          have hhigh : ∀ (c : BitVec 8) {cs : List (BitVec 8)}, 8 * (cs.length + 1) ≤ w →
              pack w (c :: cs) >>> 8 = pack w cs := by
            intro c cs hcs
            rw [pack, BitVec.ushiftRight_xor_distrib, lowByte_shift, BitVec.zero_xor,
              pack_shiftLeft_shiftRight hcs]
          have hab : a = b := by rw [← hlow a as, heq, hlow]
          have hrest : pack w as = pack w bs := by
            rw [← hhigh a h, heq, hhigh b (hlen' ▸ h)]
          rw [hab, ih hlen' (by omega) hrest]

/-- After the same register, different bytes leave different registers, if there are no
more of them than the register has room for. -/
theorem register_injective_burst {poly : BitVec w} (hp : poly.getLsbD (w - 1) = true)
    (init : BitVec w) {as bs : List (BitVec 8)} (hlen : as.length = bs.length)
    (h : 8 * as.length ≤ w) (heq : register poly init as = register poly init bs) : as = bs := by
  rw [register_eq_pack poly init h, register_eq_pack poly init (hlen ▸ h), ← hlen] at heq
  have hpack := congrArg (init ^^^ ·) (bitSteps_injective hp _ heq)
  refine pack_injective hlen h ?_
  simpa [← BitVec.xor_assoc] using hpack

/-! ## Trailers

A string that carries the bytes of its own register, the low one first, leaves in the
register what does not depend on the string. -/

/-- The first `n` bytes of a word from its low end on. -/
def unpack : ℕ → BitVec w → List (BitVec 8)
  | 0, _ => []
  | n + 1, x => x.setWidth 8 :: unpack n (x >>> 8)

@[simp] theorem length_unpack (n : ℕ) (x : BitVec w) : (unpack n x).length = n := by
  induction n generalizing x with
  | zero => rfl
  | succ n ih => rw [unpack, List.length_cons, ih]

/-- A word is packed from its bytes. -/
theorem pack_unpack {n : ℕ} {x : BitVec w} (hx : x >>> (8 * n) = 0#w) :
    pack w (unpack n x) = x := by
  induction n generalizing x with
  | zero => simpa [unpack, pack] using hx.symm
  | succ n ih =>
      rw [Nat.mul_succ, Nat.add_comm, BitVec.shiftRight_add] at hx
      rw [unpack, pack, ih hx]
      apply BitVec.eq_of_getLsbD_eq
      intro i hi
      rw [BitVec.getLsbD_xor, BitVec.getLsbD_setWidth, BitVec.getLsbD_setWidth,
        BitVec.getLsbD_shiftLeft, BitVec.getLsbD_ushiftRight]
      by_cases h8 : i < 8
      · simp [hi, h8]
      · simp [hi, h8, Nat.add_sub_cancel' (Nat.le_of_not_lt h8)]

/-- The bytes behind a string leave the constant in the register if and only if they are those
of the register after the string, with what is added to it in the end. -/
theorem register_append_iff {poly : BitVec w} (hp : poly.getLsbD (w - 1) = true) {n : ℕ}
    (hw : 8 * n = w) (init final : BitVec w) (as bs : List (BitVec 8)) (hbs : bs.length = n) :
    register poly init (as ++ bs) = bitSteps poly w final ↔
      bs = unpack n (register poly init as ^^^ final) := by
  have hroom : 8 * bs.length = w := by rw [hbs, hw]
  have hle : 8 * bs.length ≤ w := Nat.le_of_eq hroom
  have hpack : pack w (unpack n (register poly init as ^^^ final)) =
      register poly init as ^^^ final :=
    pack_unpack (by rw [hw, BitVec.ushiftRight_eq_zero (Nat.le_refl w)])
  rw [register_append, register_eq_pack poly _ hle, hroom, (bitSteps_injective hp w).eq_iff]
  constructor
  · intro h
    refine pack_injective (by rw [hbs, length_unpack]) hle ?_
    rw [hpack, ← h, ← BitVec.xor_assoc, BitVec.xor_self, BitVec.zero_xor]
  · intro h
    rw [h, hpack, ← BitVec.xor_assoc, BitVec.xor_self, BitVec.zero_xor]

end PgKmcb.Lib.Crc
