import PgKmcb.Lib.CrcPolynomial
import PgKmcb.Text.Crc32

/-!
# The checksum as a division (`generate_crc32`)

The checksum of `PgKmcb.Text.Crc32` without its register: the remainder of a division of
polynomials over the field of two elements (`generateCrc32_division`).  Which errors it
finds is then a question of divisibility, and is answered for strings of any length: the
errors that it does not find are the multiples of the polynomial (`generateCrc32_eq_iff`).

A string that carries its checksum at its end, the low byte first, has always the same
checksum (`generateCrc32_trailer_iff`).
-/

namespace PgKmcb.Text

open Polynomial PgKmcb.Lib BinaryPolynomial

/-- The polynomial of CRC-32. -/
noncomputable def crc32Polynomial : (ZMod 2)[X] :=
  X ^ 32 + X ^ 26 + X ^ 23 + X ^ 22 + X ^ 16 + X ^ 12 + X ^ 11 + X ^ 10 + X ^ 8 + X ^ 7 +
    X ^ 5 + X ^ 4 + X ^ 2 + X + 1

/-- The polynomial of a string. -/
noncomputable def crc32Message (s : List Byte) : (ZMod 2)[X] :=
  Crc.message (s.map UInt8.toBitVec)

/-- The polynomial of a checksum. -/
noncomputable def crc32Word (crc : UInt32) : (ZMod 2)[X] := Crc.reflect crc.toBitVec

/-- The constant of the table has the coefficients of the polynomial. -/
theorem checkPolynomial_crc32Poly : Crc.checkPolynomial crc32Poly = crc32Polynomial := by
  have hreverse : crc32Poly.reverse.toNat = 0x04C11DB7 := by decide +kernel
  have hbits : ofBits 32 0x04C11DB7 = X ^ 26 + X ^ 23 + X ^ 22 + X ^ 16 + X ^ 12 + X ^ 11 +
      X ^ 10 + X ^ 8 + X ^ 7 + X ^ 5 + X ^ 4 + X ^ 2 + X + 1 := by
    simp [ofBits, Finset.sum_range_succ, Nat.testBit, Nat.shiftRight_eq_div_pow]
    ring
  rw [Crc.checkPolynomial, hreverse, modulus, hbits, crc32Polynomial]
  ring

theorem generateCrc32_register (sign : CharSign) {s : List Byte} (h : 0 ∉ s) (m : List Byte)
    (crc : UInt32) : generateCrc32 sign (some (s ++ 0 :: m)) = .ok crc ↔
      Crc.register crc32Poly 0xFFFFFFFF#32 (s.map UInt8.toBitVec) =
        crc.toBitVec ^^^ 0xFFFFFFFF#32 := by
  rw [generateCrc32_terminated sign h, Except.ok.injEq, ← UInt32.toBitVec_inj,
    crc32_toBitVec sign, crc32Spec, Crc.checksum]
  constructor
  · intro hcrc
    rw [← hcrc, BitVec.xor_assoc, BitVec.xor_self, BitVec.xor_zero]
  · intro hcrc
    rw [hcrc, BitVec.xor_assoc, BitVec.xor_self, BitVec.xor_zero]

/-- The checksum is the remainder of the division by the polynomial: of the string with 32
zeros behind it, and with the 32 highest bits and the result inverted. -/
theorem generateCrc32_division (sign : CharSign) (s m : List Byte) (h : 0 ∉ s) (crc : UInt32) :
    generateCrc32 sign (some (s ++ 0 :: m)) = .ok crc ↔
      crc32Polynomial ∣ X ^ (8 * s.length) * crc32Word 0xFFFFFFFF + X ^ 32 * crc32Message s -
        (crc32Word crc + crc32Word 0xFFFFFFFF) := by
  have hdvd := Crc.register_eq_iff_dvd crc32Poly (by decide) 0xFFFFFFFF#32
    (crc.toBitVec ^^^ 0xFFFFFFFF#32) (s.map UInt8.toBitVec)
  have hones : (0xFFFFFFFF : UInt32).toBitVec = 0xFFFFFFFF#32 := rfl
  rw [generateCrc32_register sign h, hdvd, checkPolynomial_crc32Poly, Crc.reflect_xor,
    List.length_map, crc32Word, crc32Word, hones, crc32Message]

/-- The letter `a`. -/
theorem generateCrc32_division_a : generateCrc32 .signed (some ([0x61] ++ 0 :: [])) =
    .ok 0xE8B7BE43 ↔ crc32Polynomial ∣
      X ^ (8 * 1) * crc32Word 0xFFFFFFFF + X ^ 32 * crc32Message [0x61] -
        (crc32Word 0xE8B7BE43 + crc32Word 0xFFFFFFFF) :=
  generateCrc32_division .signed [0x61] [] (by decide) 0xE8B7BE43

/-- Two strings of one length have the same checksum exactly when the polynomial divides
their difference. -/
theorem generateCrc32_eq_iff (sign : CharSign) (s t m m' : List Byte) (hs : 0 ∉ s) (ht : 0 ∉ t)
    (hlen : s.length = t.length) :
    generateCrc32 sign (some (s ++ 0 :: m)) = generateCrc32 sign (some (t ++ 0 :: m')) ↔
      crc32Polynomial ∣ crc32Message s - crc32Message t := by
  have htop : crc32Poly.getLsbD 31 = true := by decide
  have hmap : (s.map UInt8.toBitVec).length = (t.map UInt8.toBitVec).length := by
    rw [List.length_map, List.length_map, hlen]
  have hdvd := Crc.register_eq_register_iff (by decide) htop 0xFFFFFFFF#32 hmap
  rw [generateCrc32_terminated sign ht, generateCrc32_register sign hs, crc32_toBitVec sign,
    crc32Spec, Crc.checksum, BitVec.xor_assoc, BitVec.xor_self, BitVec.xor_zero, hdvd,
    checkPolynomial_crc32Poly, crc32Message, crc32Message]

/-- Two letters. -/
theorem generateCrc32_eq_iff_a_b :
    generateCrc32 .signed (some ([0x61] ++ 0 :: [])) =
      generateCrc32 .signed (some ([0x62] ++ 0 :: [])) ↔
      crc32Polynomial ∣ crc32Message [0x61] - crc32Message [0x62] :=
  generateCrc32_eq_iff .signed [0x61] [0x62] [] [] (by decide) (by decide) rfl

/-! ## A checksum at the end -/

/-- The bytes of a checksum, the low one first. -/
def leBytes (crc : UInt32) : List Byte :=
  [crc.toUInt8, (crc >>> 8).toUInt8, (crc >>> 16).toUInt8, (crc >>> 24).toUInt8]

theorem map_leBytes (crc : UInt32) :
    (leBytes crc).map UInt8.toBitVec = Crc.unpack 4 crc.toBitVec := by
  simp [leBytes, Crc.unpack, ← BitVec.shiftRight_add]

/-- A string with four bytes behind it has this checksum exactly when they are the checksum
of the string. -/
theorem generateCrc32_trailer_iff (sign : CharSign) (s v m m' : List Byte) (h : 0 ∉ s ++ v)
    (hv : v.length = 4) : generateCrc32 sign (some (s ++ v ++ 0 :: m)) = .ok 0x2144DF1C ↔
      ∃ crc, generateCrc32 sign (some (s ++ 0 :: m')) = .ok crc ∧ v = leBytes crc := by
  have hs : 0 ∉ s := fun h0 ↦ h (List.mem_append_left v h0)
  have hmap : ∀ crc, v = leBytes crc ↔
      v.map UInt8.toBitVec = Crc.unpack 4 crc.toBitVec := by
    intro crc
    rw [← map_leBytes, (List.map_injective_iff.mpr fun _ _ ↦ UInt8.toBitVec_inj.mp).eq_iff]
  have hconst : (0x2144DF1C : UInt32).toBitVec ^^^ 0xFFFFFFFF#32 =
      Crc.bitSteps crc32Poly 32 0xFFFFFFFF#32 := by decide +kernel
  have htop : crc32Poly.getLsbD (32 - 1) = true := by decide
  have htrailer := Crc.register_append_iff htop (n := 4) rfl 0xFFFFFFFF#32 0xFFFFFFFF#32
    (s.map UInt8.toBitVec) (v.map UInt8.toBitVec) (by rw [List.length_map, hv])
  rw [generateCrc32_register sign h, hconst, List.map_append, htrailer,
    generateCrc32_terminated sign hs]
  constructor
  · intro hbytes
    refine ⟨_, rfl, (hmap _).mpr ?_⟩
    rw [hbytes, crc32_toBitVec sign]
    rfl
  · rintro ⟨crc, hcrc, hbytes⟩
    rw [Except.ok.injEq] at hcrc
    rw [(hmap _).mp hbytes, ← hcrc, crc32_toBitVec sign]
    rfl

/-- The letter `a` and the bytes of its checksum. -/
theorem generateCrc32_trailer_iff_a :
    generateCrc32 .signed (some ([0x61] ++ [0x43, 0xBE, 0xB7, 0xE8] ++ 0 :: [])) =
      .ok 0x2144DF1C ↔ ∃ crc, generateCrc32 .signed (some ([0x61] ++ 0 :: [])) = .ok crc ∧
        [0x43, 0xBE, 0xB7, 0xE8] = leBytes crc :=
  generateCrc32_trailer_iff .signed [0x61] [0x43, 0xBE, 0xB7, 0xE8] [] [] (by decide) rfl

end PgKmcb.Text
