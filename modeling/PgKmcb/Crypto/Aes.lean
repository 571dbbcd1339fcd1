import PgKmcb.Postgres
import PgKmcb.Lib.BlockChain
import PgKmcb.Lib.LookupTable

/-!
# The block cipher (`aes.c`)

AES with a key of 128 bits.  A `State` is the array `state_t`, which the code indexes
by column and row; a column is a `Word`.  Every step of a round has an inverse that
`InvCipher` applies in the opposite order, but cut in other places: a round of
`InvCipher` ends where the last step of a round of `Cipher` is undone only by half.
`invCipher_cipher` therefore regroups the rounds of `Cipher` first.
-/

namespace PgKmcb.Crypto

open PgKmcb.Lib

/-! ## Tables -/

set_option maxRecDepth 4000 in
/-- `sbox`. -/
def sbox : Vector Byte 256 := #v[
  0x63, 0x7c, 0x77, 0x7b, 0xf2, 0x6b, 0x6f, 0xc5, 0x30, 0x01, 0x67, 0x2b, 0xfe, 0xd7, 0xab, 0x76,
  0xca, 0x82, 0xc9, 0x7d, 0xfa, 0x59, 0x47, 0xf0, 0xad, 0xd4, 0xa2, 0xaf, 0x9c, 0xa4, 0x72, 0xc0,
  0xb7, 0xfd, 0x93, 0x26, 0x36, 0x3f, 0xf7, 0xcc, 0x34, 0xa5, 0xe5, 0xf1, 0x71, 0xd8, 0x31, 0x15,
  0x04, 0xc7, 0x23, 0xc3, 0x18, 0x96, 0x05, 0x9a, 0x07, 0x12, 0x80, 0xe2, 0xeb, 0x27, 0xb2, 0x75,
  0x09, 0x83, 0x2c, 0x1a, 0x1b, 0x6e, 0x5a, 0xa0, 0x52, 0x3b, 0xd6, 0xb3, 0x29, 0xe3, 0x2f, 0x84,
  0x53, 0xd1, 0x00, 0xed, 0x20, 0xfc, 0xb1, 0x5b, 0x6a, 0xcb, 0xbe, 0x39, 0x4a, 0x4c, 0x58, 0xcf,
  0xd0, 0xef, 0xaa, 0xfb, 0x43, 0x4d, 0x33, 0x85, 0x45, 0xf9, 0x02, 0x7f, 0x50, 0x3c, 0x9f, 0xa8,
  0x51, 0xa3, 0x40, 0x8f, 0x92, 0x9d, 0x38, 0xf5, 0xbc, 0xb6, 0xda, 0x21, 0x10, 0xff, 0xf3, 0xd2,
  0xcd, 0x0c, 0x13, 0xec, 0x5f, 0x97, 0x44, 0x17, 0xc4, 0xa7, 0x7e, 0x3d, 0x64, 0x5d, 0x19, 0x73,
  0x60, 0x81, 0x4f, 0xdc, 0x22, 0x2a, 0x90, 0x88, 0x46, 0xee, 0xb8, 0x14, 0xde, 0x5e, 0x0b, 0xdb,
  0xe0, 0x32, 0x3a, 0x0a, 0x49, 0x06, 0x24, 0x5c, 0xc2, 0xd3, 0xac, 0x62, 0x91, 0x95, 0xe4, 0x79,
  0xe7, 0xc8, 0x37, 0x6d, 0x8d, 0xd5, 0x4e, 0xa9, 0x6c, 0x56, 0xf4, 0xea, 0x65, 0x7a, 0xae, 0x08,
  0xba, 0x78, 0x25, 0x2e, 0x1c, 0xa6, 0xb4, 0xc6, 0xe8, 0xdd, 0x74, 0x1f, 0x4b, 0xbd, 0x8b, 0x8a,
  0x70, 0x3e, 0xb5, 0x66, 0x48, 0x03, 0xf6, 0x0e, 0x61, 0x35, 0x57, 0xb9, 0x86, 0xc1, 0x1d, 0x9e,
  0xe1, 0xf8, 0x98, 0x11, 0x69, 0xd9, 0x8e, 0x94, 0x9b, 0x1e, 0x87, 0xe9, 0xce, 0x55, 0x28, 0xdf,
  0x8c, 0xa1, 0x89, 0x0d, 0xbf, 0xe6, 0x42, 0x68, 0x41, 0x99, 0x2d, 0x0f, 0xb0, 0x54, 0xbb, 0x16]

set_option maxRecDepth 4000 in
/-- `rsbox`. -/
def rsbox : Vector Byte 256 := #v[
  0x52, 0x09, 0x6a, 0xd5, 0x30, 0x36, 0xa5, 0x38, 0xbf, 0x40, 0xa3, 0x9e, 0x81, 0xf3, 0xd7, 0xfb,
  0x7c, 0xe3, 0x39, 0x82, 0x9b, 0x2f, 0xff, 0x87, 0x34, 0x8e, 0x43, 0x44, 0xc4, 0xde, 0xe9, 0xcb,
  0x54, 0x7b, 0x94, 0x32, 0xa6, 0xc2, 0x23, 0x3d, 0xee, 0x4c, 0x95, 0x0b, 0x42, 0xfa, 0xc3, 0x4e,
  0x08, 0x2e, 0xa1, 0x66, 0x28, 0xd9, 0x24, 0xb2, 0x76, 0x5b, 0xa2, 0x49, 0x6d, 0x8b, 0xd1, 0x25,
  0x72, 0xf8, 0xf6, 0x64, 0x86, 0x68, 0x98, 0x16, 0xd4, 0xa4, 0x5c, 0xcc, 0x5d, 0x65, 0xb6, 0x92,
  0x6c, 0x70, 0x48, 0x50, 0xfd, 0xed, 0xb9, 0xda, 0x5e, 0x15, 0x46, 0x57, 0xa7, 0x8d, 0x9d, 0x84,
  0x90, 0xd8, 0xab, 0x00, 0x8c, 0xbc, 0xd3, 0x0a, 0xf7, 0xe4, 0x58, 0x05, 0xb8, 0xb3, 0x45, 0x06,
  0xd0, 0x2c, 0x1e, 0x8f, 0xca, 0x3f, 0x0f, 0x02, 0xc1, 0xaf, 0xbd, 0x03, 0x01, 0x13, 0x8a, 0x6b,
  0x3a, 0x91, 0x11, 0x41, 0x4f, 0x67, 0xdc, 0xea, 0x97, 0xf2, 0xcf, 0xce, 0xf0, 0xb4, 0xe6, 0x73,
  0x96, 0xac, 0x74, 0x22, 0xe7, 0xad, 0x35, 0x85, 0xe2, 0xf9, 0x37, 0xe8, 0x1c, 0x75, 0xdf, 0x6e,
  0x47, 0xf1, 0x1a, 0x71, 0x1d, 0x29, 0xc5, 0x89, 0x6f, 0xb7, 0x62, 0x0e, 0xaa, 0x18, 0xbe, 0x1b,
  0xfc, 0x56, 0x3e, 0x4b, 0xc6, 0xd2, 0x79, 0x20, 0x9a, 0xdb, 0xc0, 0xfe, 0x78, 0xcd, 0x5a, 0xf4,
  0x1f, 0xdd, 0xa8, 0x33, 0x88, 0x07, 0xc7, 0x31, 0xb1, 0x12, 0x10, 0x59, 0x27, 0x80, 0xec, 0x5f,
  0x60, 0x51, 0x7f, 0xa9, 0x19, 0xb5, 0x4a, 0x0d, 0x2d, 0xe5, 0x7a, 0x9f, 0x93, 0xc9, 0x9c, 0xef,
  0xa0, 0xe0, 0x3b, 0x4d, 0xae, 0x2a, 0xf5, 0xb0, 0xc8, 0xeb, 0xbb, 0x3c, 0x83, 0x53, 0x99, 0x61,
  0x17, 0x2b, 0x04, 0x7e, 0xba, 0x77, 0xd6, 0x26, 0xe1, 0x69, 0x14, 0x63, 0x55, 0x21, 0x0c, 0x7d]

/-- `Rcon`. -/
def rcon : Vector Byte 11 :=
  #v[0x8d, 0x01, 0x02, 0x04, 0x08, 0x10, 0x20, 0x40, 0x80, 0x1b, 0x36]

/-- `getSBoxValue`. -/
def getSBoxValue (num : Byte) : Byte := sbox.get num.toFin

/-- `getSBoxInvert`. -/
def getSBoxInvert (num : Byte) : Byte := rsbox.get num.toFin

/-! ## States -/

/-- Four bytes: a column of a state, or a word of a key. -/
@[ext] structure Word where
  b0 : Byte
  b1 : Byte
  b2 : Byte
  b3 : Byte
deriving DecidableEq

/-- `state_t`. -/
@[ext] structure State where
  c0 : Word
  c1 : Word
  c2 : Word
  c3 : Word
deriving DecidableEq

/-- A function of the four bytes of a word. -/
def Word.map (f : Byte → Byte) (w : Word) : Word := ⟨f w.b0, f w.b1, f w.b2, f w.b3⟩

/-- Byte by byte. -/
def Word.xor (v w : Word) : Word := ⟨v.b0 ^^^ w.b0, v.b1 ^^^ w.b1, v.b2 ^^^ w.b2, v.b3 ^^^ w.b3⟩

/-- A function of the four columns of a state. -/
def State.map (f : Word → Word) (s : State) : State := ⟨f s.c0, f s.c1, f s.c2, f s.c3⟩

/-- Column by column. -/
def State.xor (s t : State) : State :=
  ⟨s.c0.xor t.c0, s.c1.xor t.c1, s.c2.xor t.c2, s.c3.xor t.c3⟩

/-! ## The key schedule -/

/-- `RotWord`. -/
def rotWord (w : Word) : Word := ⟨w.b1, w.b2, w.b3, w.b0⟩

/-- `SubWord`. -/
def subWord (w : Word) : Word := w.map getSBoxValue

/-- `Nk`, the number of words in a key. -/
def nk : ℕ := 4

/-- The word that `KeyExpansion` adds to word `i - Nk`, from word `i - 1`. -/
def tempa (i : ℕ) (hi : i < 44) (last : Word) : Word :=
  if i % nk = 0 then
    (subWord (rotWord last)).xor ⟨rcon.get ⟨i / nk, by rw [nk]; omega⟩, 0, 0, 0⟩
  else last

/-- The loop of `KeyExpansion`: the first `n` words after the key, which is the first
four. -/
def expand (key : Vector Word 4) : (n : ℕ) → n ≤ 40 → Vector Word (4 + n)
  | 0, _ => key
  | n + 1, h =>
      let roundKey := expand key n (Nat.le_of_succ_le h)
      roundKey.push (roundKey[n].xor (tempa (4 + n) (by omega) roundKey[n + 3]))

/-- `KeyExpansion`. -/
def keyExpansion (key : State) : Vector Word 44 :=
  expand #v[key.c0, key.c1, key.c2, key.c3] 40 (Nat.le_refl 40)

/-! ## Steps of a round -/

/-- `AddRoundKey`. -/
def addRoundKey (round : Fin 11) (s : State) (roundKey : Vector Word 44) : State :=
  s.xor ⟨roundKey[round.val * 4], roundKey[round.val * 4 + 1], roundKey[round.val * 4 + 2],
    roundKey[round.val * 4 + 3]⟩

/-- `SubBytes`. -/
def subBytes (s : State) : State := s.map (Word.map getSBoxValue)

/-- `ShiftRows`; row `j` is the byte `j` of all columns. -/
def shiftRows (s : State) : State :=
  ⟨⟨s.c0.b0, s.c1.b1, s.c2.b2, s.c3.b3⟩, ⟨s.c1.b0, s.c2.b1, s.c3.b2, s.c0.b3⟩,
    ⟨s.c2.b0, s.c3.b1, s.c0.b2, s.c1.b3⟩, ⟨s.c3.b0, s.c0.b1, s.c1.b2, s.c2.b3⟩⟩

/-- `xtime`. -/
def xtime (x : Byte) : Byte := (x <<< 1) ^^^ (((x >>> 7) &&& (1 : Byte)) * 0x1b)

/-- The body of the loop of `MixColumns`. -/
def mixColumn (w : Word) : Word :=
  let tmp := w.b0 ^^^ w.b1 ^^^ w.b2 ^^^ w.b3
  { b0 := w.b0 ^^^ (xtime (w.b0 ^^^ w.b1) ^^^ tmp)
    b1 := w.b1 ^^^ (xtime (w.b1 ^^^ w.b2) ^^^ tmp)
    b2 := w.b2 ^^^ (xtime (w.b2 ^^^ w.b3) ^^^ tmp)
    b3 := w.b3 ^^^ (xtime (w.b3 ^^^ w.b0) ^^^ tmp) }

/-- `MixColumns`. -/
def mixColumns (s : State) : State := s.map mixColumn

/-- `Multiply`. -/
def multiply (x y : Byte) : Byte :=
  ((y &&& (1 : Byte)) * x) ^^^
  (((y >>> 1) &&& (1 : Byte)) * xtime x) ^^^
  (((y >>> 2) &&& (1 : Byte)) * xtime (xtime x)) ^^^
  (((y >>> 3) &&& (1 : Byte)) * xtime (xtime (xtime x))) ^^^
  (((y >>> 4) &&& (1 : Byte)) * xtime (xtime (xtime (xtime x))))

/-- The body of the loop of `InvMixColumns`. -/
def invMixColumn (w : Word) : Word where
  b0 := multiply w.b0 0x0e ^^^ multiply w.b1 0x0b ^^^ multiply w.b2 0x0d ^^^ multiply w.b3 0x09
  b1 := multiply w.b0 0x09 ^^^ multiply w.b1 0x0e ^^^ multiply w.b2 0x0b ^^^ multiply w.b3 0x0d
  b2 := multiply w.b0 0x0d ^^^ multiply w.b1 0x09 ^^^ multiply w.b2 0x0e ^^^ multiply w.b3 0x0b
  b3 := multiply w.b0 0x0b ^^^ multiply w.b1 0x0d ^^^ multiply w.b2 0x09 ^^^ multiply w.b3 0x0e

/-- `InvMixColumns`. -/
def invMixColumns (s : State) : State := s.map invMixColumn

/-- `InvSubBytes`. -/
def invSubBytes (s : State) : State := s.map (Word.map getSBoxInvert)

/-- `InvShiftRows`. -/
def invShiftRows (s : State) : State :=
  ⟨⟨s.c0.b0, s.c3.b1, s.c2.b2, s.c1.b3⟩, ⟨s.c1.b0, s.c0.b1, s.c3.b2, s.c2.b3⟩,
    ⟨s.c2.b0, s.c1.b1, s.c0.b2, s.c3.b3⟩, ⟨s.c3.b0, s.c2.b1, s.c1.b2, s.c0.b3⟩⟩

/-! ## The cipher -/

/-- The rounds 1 to `Nr - 1`. -/
def middleRounds : List (Fin 11) := [1, 2, 3, 4, 5, 6, 7, 8, 9]

/-- `Cipher`. -/
def cipher (roundKey : Vector Word 44) (s : State) : State :=
  let s := addRoundKey 0 s roundKey
  let s := middleRounds.foldl
    (fun s round ↦ addRoundKey round (mixColumns (shiftRows (subBytes s))) roundKey) s
  addRoundKey 10 (shiftRows (subBytes s)) roundKey

/-- `InvCipher`. -/
def invCipher (roundKey : Vector Word 44) (s : State) : State :=
  let s := addRoundKey 10 s roundKey
  let s := middleRounds.reverse.foldl
    (fun s round ↦ invMixColumns (addRoundKey round (invSubBytes (invShiftRows s)) roundKey)) s
  addRoundKey 0 (invSubBytes (invShiftRows s)) roundKey

/-! ## Each step has its inverse -/

theorem xor_xor_self (x y : Byte) : x ^^^ y ^^^ y = x := by
  rw [UInt8.xor_assoc, UInt8.xor_self, UInt8.xor_zero]

theorem xor_left_comm (x y z : Byte) : x ^^^ (y ^^^ z) = y ^^^ (x ^^^ z) := by
  rw [← UInt8.xor_assoc, UInt8.xor_comm x y, UInt8.xor_assoc]

theorem Word.xor_xor_self (v w : Word) : (v.xor w).xor w = v := by
  simp only [Word.xor, Crypto.xor_xor_self]

theorem State.xor_xor_self (s t : State) : (s.xor t).xor t = s := by
  simp only [State.xor, Word.xor_xor_self]

theorem addRoundKey_addRoundKey (round : Fin 11) (s : State) (roundKey : Vector Word 44) :
    addRoundKey round (addRoundKey round s roundKey) roundKey = s :=
  State.xor_xor_self s _

/-- The tables are inverse to each other. -/
theorem getSBoxInvert_getSBoxValue (x : Byte) : getSBoxInvert (getSBoxValue x) = x := by
  have htable : sbox.toList.map (fun b ↦
      LookupTable.pack rsbox.toList >>> (8 * b.toNat) % 256) = List.range 256 := by
    decide +kernel
  exact LookupTable.get_get_of_pack htable x.toFin

theorem invSubBytes_subBytes (s : State) : invSubBytes (subBytes s) = s := by
  simp only [invSubBytes, subBytes, State.map, Word.map, getSBoxInvert_getSBoxValue]

theorem invShiftRows_shiftRows (s : State) : invShiftRows (shiftRows s) = s := rfl

/-- The top bit of a byte. -/
theorem shiftRight_seven (x : Byte) :
    (x >>> 7) &&& (1 : Byte) = x >>> 7 ∧ (x >>> 7 = 0 ∨ x >>> 7 = 1) := by
  have hbits : ∀ i : Fin 256, (UInt8.ofFin i >>> 7) &&& (1 : Byte) = UInt8.ofFin i >>> 7 ∧
      (UInt8.ofFin i >>> 7 = 0 ∨ UInt8.ofFin i >>> 7 = 1) := by decide +kernel
  exact hbits x.toFin

/-- `xtime` is additive. -/
theorem xtime_xor (x y : Byte) : xtime (x ^^^ y) = xtime x ^^^ xtime y := by
  have hmul : (((x ^^^ y) >>> 7) &&& (1 : Byte)) * (0x1b : Byte) =
      (((x >>> 7) &&& (1 : Byte)) * (0x1b : Byte)) ^^^
        (((y >>> 7) &&& (1 : Byte)) * (0x1b : Byte)) := by
    rw [(shiftRight_seven _).1, (shiftRight_seven x).1, (shiftRight_seven y).1,
      UInt8.shiftRight_xor]
    rcases (shiftRight_seven x).2 with hx | hx <;> rcases (shiftRight_seven y).2 with hy | hy <;>
      rw [hx, hy] <;> decide
  rw [xtime, xtime, xtime, hmul, UInt8.shiftLeft_xor]
  simp only [UInt8.xor_assoc, UInt8.xor_comm, xor_left_comm]

/-- The factors of `InvMixColumns`. -/
theorem multiply_eq (x : Byte) :
    multiply x 0x09 = x ^^^ xtime (xtime (xtime x)) ∧
    multiply x 0x0b = x ^^^ xtime x ^^^ xtime (xtime (xtime x)) ∧
    multiply x 0x0d = x ^^^ xtime (xtime x) ^^^ xtime (xtime (xtime x)) ∧
    multiply x 0x0e = xtime x ^^^ xtime (xtime x) ^^^ xtime (xtime (xtime x)) := by
  have hbits : ∀ y b₀ b₁ b₂ b₃ b₄ : Byte, y &&& 1 = b₀ → (y >>> 1) &&& 1 = b₁ →
      (y >>> 2) &&& 1 = b₂ → (y >>> 3) &&& 1 = b₃ → (y >>> 4) &&& 1 = b₄ →
      multiply x y = (b₀ * x) ^^^ (b₁ * xtime x) ^^^ (b₂ * xtime (xtime x)) ^^^
        (b₃ * xtime (xtime (xtime x))) ^^^ (b₄ * xtime (xtime (xtime (xtime x)))) := by
    rintro y _ _ _ _ _ rfl rfl rfl rfl rfl
    rfl
  refine ⟨?_, ?_, ?_, ?_⟩
  · rw [hbits 0x09 1 0 0 1 0 rfl rfl rfl rfl rfl]
    simp only [UInt8.one_mul, UInt8.zero_mul, UInt8.xor_zero]
  · rw [hbits 0x0b 1 1 0 1 0 rfl rfl rfl rfl rfl]
    simp only [UInt8.one_mul, UInt8.zero_mul, UInt8.xor_zero]
  · rw [hbits 0x0d 1 0 1 1 0 rfl rfl rfl rfl rfl]
    simp only [UInt8.one_mul, UInt8.zero_mul, UInt8.xor_zero]
  · rw [hbits 0x0e 0 1 1 1 0 rfl rfl rfl rfl rfl]
    simp only [UInt8.one_mul, UInt8.zero_mul, UInt8.xor_zero, UInt8.zero_xor]

theorem xor_self_left (x y : Byte) : x ^^^ (x ^^^ y) = y := by
  rw [← UInt8.xor_assoc, UInt8.xor_self, UInt8.zero_xor]

/-- One byte of a mixed column, mixed back; the others are the same with the column
rotated. -/
theorem invMix_byte {a b c d a' b' c' d' s : Byte} (hs : a ^^^ b ^^^ c ^^^ d = s)
    (ha : a' = a ^^^ (xtime (a ^^^ b) ^^^ s)) (hb : b' = b ^^^ (xtime (b ^^^ c) ^^^ s))
    (hc : c' = c ^^^ (xtime (c ^^^ d) ^^^ s)) (hd : d' = d ^^^ (xtime (d ^^^ a) ^^^ s)) :
    multiply a' 0x0e ^^^ multiply b' 0x0b ^^^ multiply c' 0x0d ^^^ multiply d' 0x09 = a := by
  have hall : a' ^^^ b' ^^^ c' ^^^ d' = s := by
    simp only [ha, hb, hc, hd, ← hs, xtime_xor, UInt8.xor_assoc, UInt8.xor_comm, xor_left_comm,
      UInt8.xor_self, xor_self_left, UInt8.xor_zero]
  have hac : a' ^^^ c' = a ^^^ c ^^^ xtime s := by
    simp only [ha, hc, ← hs, xtime_xor, UInt8.xor_assoc, UInt8.xor_comm, xor_left_comm,
      xor_self_left]
  have hab : a' ^^^ b' = a ^^^ b ^^^ xtime (a ^^^ c) := by
    simp only [ha, hb, xtime_xor, UInt8.xor_assoc, UInt8.xor_comm, xor_left_comm, xor_self_left]
  have hbcd : b' ^^^ c' ^^^ d' = a ^^^ xtime (a ^^^ b) := by
    simp only [hb, hc, hd, ← hs, xtime_xor, UInt8.xor_assoc, UInt8.xor_comm, xor_left_comm,
      UInt8.xor_self, xor_self_left, UInt8.zero_xor]
  calc multiply a' 0x0e ^^^ multiply b' 0x0b ^^^ multiply c' 0x0d ^^^ multiply d' 0x09
      = xtime (xtime (xtime (a' ^^^ b' ^^^ c' ^^^ d'))) ^^^ xtime (xtime (a' ^^^ c')) ^^^
          xtime (a' ^^^ b') ^^^ (b' ^^^ c' ^^^ d') := by
        simp only [(multiply_eq _).1, (multiply_eq _).2.1, (multiply_eq _).2.2.1,
          (multiply_eq _).2.2.2, xtime_xor, UInt8.xor_assoc, UInt8.xor_comm, xor_left_comm]
    _ = a := by
        rw [hall, hac, hab, hbcd]
        simp only [xtime_xor, UInt8.xor_assoc, UInt8.xor_comm, xor_left_comm, UInt8.xor_self,
          UInt8.xor_zero]

theorem xor_rotate (w x y z : Byte) : w ^^^ x ^^^ y ^^^ z = x ^^^ y ^^^ z ^^^ w := by
  rw [UInt8.xor_assoc, UInt8.xor_assoc, UInt8.xor_comm, UInt8.xor_assoc x y z]

/-- Mixing a column back. -/
theorem invMixColumn_mixColumn (w : Word) : invMixColumn (mixColumn w) = w := by
  obtain ⟨a, b, c, d⟩ := w
  have h1 : b ^^^ c ^^^ d ^^^ a = a ^^^ b ^^^ c ^^^ d := (xor_rotate a b c d).symm
  have h2 : c ^^^ d ^^^ a ^^^ b = a ^^^ b ^^^ c ^^^ d := (xor_rotate b c d a).symm.trans h1
  have h3 : d ^^^ a ^^^ b ^^^ c = a ^^^ b ^^^ c ^^^ d := (xor_rotate c d a b).symm.trans h2
  refine Word.ext ?_ ?_ ?_ ?_
  · exact invMix_byte rfl rfl rfl rfl rfl
  · exact (xor_rotate _ _ _ _).trans (invMix_byte h1 rfl rfl rfl rfl)
  · exact (xor_rotate _ _ _ _).trans ((xor_rotate _ _ _ _).trans
      (invMix_byte h2 rfl rfl rfl rfl))
  · exact (xor_rotate _ _ _ _).trans ((xor_rotate _ _ _ _).trans
      ((xor_rotate _ _ _ _).trans (invMix_byte h3 rfl rfl rfl rfl)))

theorem invMixColumns_mixColumns (s : State) : invMixColumns (mixColumns s) = s := by
  simp only [invMixColumns, mixColumns, State.map, invMixColumn_mixColumn]

/-! ## The cipher is undone -/

/-- Before a round of `InvCipher` the state is half of a round of `Cipher` further. -/
theorem foldl_middleRounds (roundKey : Vector Word 44) (rounds : List (Fin 11)) (s : State) :
    shiftRows (subBytes (rounds.foldl
      (fun s round ↦ addRoundKey round (mixColumns (shiftRows (subBytes s))) roundKey) s)) =
    rounds.foldl
      (fun s round ↦ shiftRows (subBytes (addRoundKey round (mixColumns s) roundKey)))
      (shiftRows (subBytes s)) := by
  induction rounds generalizing s with
  | nil => rfl
  | cons round rounds ih => exact ih _

/-- `InvCipher` undoes `Cipher`, with the same round keys. -/
theorem invCipher_cipher (roundKey : Vector Word 44) (s : State) :
    invCipher roundKey (cipher roundKey s) = s := by
  have hround : ∀ (t : State) (round : Fin 11),
      invMixColumns (addRoundKey round (invSubBytes (invShiftRows
        (shiftRows (subBytes (addRoundKey round (mixColumns t) roundKey))))) roundKey) = t := by
    intro t round
    rw [invShiftRows_shiftRows, invSubBytes_subBytes, addRoundKey_addRoundKey,
      invMixColumns_mixColumns]
  rw [invCipher, cipher, addRoundKey_addRoundKey, foldl_middleRounds,
    BlockChain.foldl_reverse hround, invShiftRows_shiftRows, invSubBytes_subBytes,
    addRoundKey_addRoundKey]

/-- The first block of the test vectors that the file is verified against. -/
example : cipher (keyExpansion ⟨⟨0x2b, 0x7e, 0x15, 0x16⟩, ⟨0x28, 0xae, 0xd2, 0xa6⟩,
      ⟨0xab, 0xf7, 0x15, 0x88⟩, ⟨0x09, 0xcf, 0x4f, 0x3c⟩⟩)
    ⟨⟨0x6b, 0xc1, 0xbe, 0xe2⟩, ⟨0x2e, 0x40, 0x9f, 0x96⟩, ⟨0xe9, 0x3d, 0x7e, 0x11⟩,
      ⟨0x73, 0x93, 0x17, 0x2a⟩⟩ =
    ⟨⟨0x3a, 0xd7, 0x7b, 0xb4⟩, ⟨0x0d, 0x7a, 0x36, 0x60⟩, ⟨0xa8, 0x9e, 0xca, 0xf3⟩,
      ⟨0x24, 0x66, 0xef, 0x97⟩⟩ := by
  decide +kernel

end PgKmcb.Crypto
