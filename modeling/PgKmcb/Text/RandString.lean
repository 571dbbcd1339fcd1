import PgKmcb.Lib.Draws
import PgKmcb.Lib.MachineInt
import PgKmcb.Lib.Utf8
import PgKmcb.Text.Same

/-!
# Random texts (`se_rand.c`, `pg_rand.c`)

`generateRandString` draws a number of characters, then for each of them a class and a
character of the class, and writes the characters one behind the other.  The flag of the
caller is turned into a code of the generator by further draws.

What is drawn is not random here: a run has the stream of all values that `random()` is
going to return.
-/

namespace PgKmcb.Text

open PgKmcb.Lib

/-- A call that draws values from `random()`. -/
abbrev RandCall (α : Type) := Draws ℕ PgError α

/-! ## The functions -/

/-- `RANGE_RANDOM`. -/
def rangeRandom (lmin lmax : ℤ) : RandCall ℤ := do
  let random ← draw
  if lmax + 1 - lmin = 0 then
    throw (.undefined .divideByZero)
  else
    return (random : ℤ).tmod (lmax + 1 - lmin) + lmin

/-- `random_utf8_zh`, which writes the encoding of a code and returns its size. -/
def randomUtf8Zh (code : ℤ) (buffer : List Byte) (ptr : ℕ) : Call (List Byte × ℕ) :=
  if code ≤ 0x7F then do
    let buffer ← writeRange buffer ptr [UInt8.ofInt code]
    return (buffer, 1)
  else
    -- from here on the code is not negative
    let code := code.toNat
    if code ≤ 0x7FF then do
      let buffer ← writeRange buffer ptr
        [UInt8.ofNat ((code >>> 6) + 192), UInt8.ofNat ((code &&& 63) + 128)]
      return (buffer, 2)
    else if 0xd800 ≤ code ∧ code ≤ 0xdfff then
      return (buffer, 0)
    else if code ≤ 0xFFFF then do
      let buffer ← writeRange buffer ptr
        [UInt8.ofNat ((code >>> 12) + 224), UInt8.ofNat (((code >>> 6) &&& 63) + 128),
          UInt8.ofNat ((code &&& 63) + 128)]
      return (buffer, 3)
    else if code ≤ 0x10FFFF then do
      let buffer ← writeRange buffer ptr
        [UInt8.ofNat ((code >>> 18) + 240), UInt8.ofNat (((code >>> 12) &&& 63) + 128),
          UInt8.ofNat (((code >>> 6) &&& 63) + 128), UInt8.ofNat ((code &&& 63) + 128)]
      return (buffer, 4)
    else
      return (buffer, 0)

/-- `buffer[0] = RANGE_RANDOM(lmin, lmax); return 1;`, with the buffer from `ptr` on. -/
def randomByte (lmin lmax : ℤ) (buffer : List Byte) (ptr : ℕ) : RandCall (List Byte × ℕ) := do
  let code ← rangeRandom lmin lmax
  let buffer ← (writeRange buffer ptr [UInt8.ofInt code] : Call (List Byte))
  return (buffer, 1)

/-- `do is_valid = random_utf8_zh(RANGE_RANDOM(19968, 20901), buffer); while (0 == is_valid)`,
for at most so many rounds. -/
def randomZh (buffer : List Byte) (ptr : ℕ) : ℕ → RandCall (List Byte × ℕ)
  | 0 => throw .outOfFuel
  | fuel + 1 => do
      let code ← rangeRandom 19968 20901
      let (buffer, isValid) ← randomUtf8Zh code buffer ptr
      if 0 = isValid then randomZh buffer ptr fuel else return (buffer, isValid)

/-- `rand_num_abc_zh`. -/
def randNumAbcZh (fuel : ℕ) (flag : ℤ) (buffer : List Byte) (ptr : ℕ) :
    RandCall (List Byte × ℕ) :=
  match flag with
  | 1 => randomByte 48 57 buffer ptr
  | 2 => randomByte 65 90 buffer ptr
  | 3 => randomByte 97 122 buffer ptr
  | 4 => randomZh buffer ptr fuel
  | _ => do
      let flagUpper ← rangeRandom 0 3
      match flagUpper with
      | 1 => randomByte 65 90 buffer ptr
      | 2 => randomByte 97 122 buffer ptr
      | 3 => randomZh buffer ptr fuel
      | _ => randomByte 48 57 buffer ptr

/-- `RANGE_RANDOM(0, 1) ? x : y`. -/
def randomChoice (x y : RandCall ℤ) : RandCall ℤ := do
  let random ← rangeRandom 0 1
  if random ≠ 0 then x else y

/-- `ckeck_flag`. -/
def ckeckFlag (flag : ℤ) : RandCall ℤ :=
  match flag with
  | 1 => return 1
  | 2 => return 2
  | 3 => rangeRandom 1 2
  | 4 => return 3
  | 5 => randomChoice (return 1) (return 3)
  | 6 => rangeRandom 2 3
  | 7 => rangeRandom 1 3
  | 8 => return 4
  | 9 => randomChoice (return 1) (return 4)
  | 10 => randomChoice (return 2) (return 4)
  | 11 => randomChoice (rangeRandom 1 2) (return 4)
  | 12 => rangeRandom 3 4
  | 13 => randomChoice (return 1) (rangeRandom 3 4)
  | 14 => rangeRandom 2 4
  | _ => return 0

/-- `SE_INVALID_PARAMETER_VALUE`. -/
def seInvalidParameterValue : ℤ := -1

/-- `SE_PARAMETER_VALUE_OUT_OF_RANGE`. -/
def seParameterValueOutOfRange : ℤ := -2

/-- The variables of `num_abc_zh_rand`. -/
structure RandState where
  buffer : List Byte
  ptmp : ℕ
  useMemSize : ℕ

/-- The loop of `num_abc_zh_rand`, for so many more characters. -/
def numAbcZhLoop (fuel : ℕ) (flag : ℤ) : ℕ → RandState → RandCall RandState
  | 0, s => return s
  | n + 1, s => do
      let code ← ckeckFlag flag
      let (buffer, chrMemSize) ← randNumAbcZh fuel code s.buffer s.ptmp
      numAbcZhLoop fuel flag n {
        buffer := buffer
        ptmp := s.ptmp + chrMemSize
        useMemSize := s.useMemSize + chrMemSize }

/-- `num_abc_zh_rand`: the buffer and `use_mem_size` for `SE_OK`, or another code.  The
pointer to `use_mem_size` is the address of a variable of the caller. -/
def numAbcZhRand (fuel : ℕ) (flag characterCount : ℤ) (buffer : Option (List Byte)) :
    RandCall (Except ℤ (List Byte × ℕ)) :=
  match buffer with
  | none => return .error seInvalidParameterValue
  | some buffer =>
      if characterCount > 0x8000 then return .error seParameterValueOutOfRange
      else do
        let s ← numAbcZhLoop fuel flag characterCount.toNat
          { buffer := buffer, ptmp := 0, useMemSize := 0 }
        return .ok (s.buffer, s.useMemSize)

/-- `UTF8_MAX_SIZE`. -/
def utf8MaxSize : ℕ := 6

/-- The error of `generate_rand_string`. -/
def randStringError (reason : String) : PgError :=
  .ereport .invalidParameterValue
    ("function returning generate_rand_string fail(" ++ reason ++ ")!")

/-- `generate_rand_string`; the bytes behind the header are all that has been allocated. -/
def generateRandString (garbage : ℕ → Byte) (fuel : ℕ) (minLen maxLen flag : ℤ) :
    RandCall (SqlResult Varlena) := do
  if (minLen < 1 ∨ maxLen < 1) ∨ (minLen > 0x8000 ∨ maxLen > 0x8000) then
    throw (.raised (randStringError "min_len < 0 or max_len > 32768"))
  else
    let (minLen, maxLen) := if minLen > maxLen then (maxLen, minLen) else (minLen, maxLen)
    let characterCount ← rangeRandom minLen maxLen
    let buffer := palloc garbage (characterCount.toNat * utf8MaxSize)
    match ← numAbcZhRand fuel flag characterCount (some buffer) with
    | .error code => throw (.raised (randStringError
        (if code = seInvalidParameterValue then "invalid parameter"
        else "min_len < 0 or max_len > 32768")))
    | .ok (buffer, usrMemSize) => return .datum { size := usrMemSize + varhdrsz, data := buffer }

/-! ## The encoder -/

/-- A small code is its own byte. -/
theorem ofInt_natCast (n : ℕ) : UInt8.ofInt n = UInt8.ofNat n := by
  apply UInt8.toNat_inj.mp
  rw [UInt8.ofInt, UInt8.toNat_ofNat', UInt8.toNat_ofNat']
  omega

theorem and_63 (n : ℕ) : n &&& 63 = n % 64 := Nat.and_two_pow_sub_one_eq_mod n 6

/-- `random_utf8_zh` writes the UTF-8 encoding of every character. -/
theorem randomUtf8Zh_char (c : Char) (buffer : List Byte) (ptr : ℕ) :
    randomUtf8Zh c.toNat buffer ptr = (writeRange buffer ptr (Utf8.encodeChar c) >>=
      fun buffer ↦ .ok (buffer, (Utf8.encodeChar c).length)) := by
  have hvalid : c.val.toNat < 0xd800 ∨ 0xdfff < c.val.toNat ∧ c.val.toNat < 0x110000 := c.valid
  unfold Utf8.encodeChar String.utf8EncodeChar
  change randomUtf8Zh c.val.toNat buffer ptr = _
  generalize c.val.toNat = v at hvalid
  rw [randomUtf8Zh]
  dsimp only
  rw [Int.toNat_natCast, and_63, and_63, and_63, Nat.shiftRight_eq_div_pow,
    Nat.shiftRight_eq_div_pow, Nat.shiftRight_eq_div_pow]
  rcases Nat.lt_or_ge 0x7f v with h₁ | h₁
  · rw [if_neg (show ¬ (v : ℤ) ≤ 0x7f by omega), if_neg (show ¬ v ≤ 0x7f by omega)]
    rcases Nat.lt_or_ge 0x7ff v with h₂ | h₂
    · rw [if_neg (show ¬ v ≤ 0x7ff by omega), if_neg (show ¬ v ≤ 0x7ff by omega),
        if_neg (show ¬ (0xd800 ≤ v ∧ v ≤ 0xdfff) by omega)]
      rcases Nat.lt_or_ge 0xffff v with h₃ | h₃
      · -- four bytes
        rw [if_neg (show ¬ v ≤ 0xffff by omega), if_neg (show ¬ v ≤ 0xffff by omega),
          if_pos (show v ≤ 0x10ffff by omega), show v / 2 ^ 18 = v / 262144 % 8 by omega]
        rfl
      · -- three bytes
        rw [if_pos h₃, if_pos h₃, show v / 2 ^ 12 = v / 4096 % 16 by omega]
        rfl
    · -- two bytes
      rw [if_pos h₂, if_pos h₂, show v / 2 ^ 6 = v / 64 % 32 by omega]
      rfl
  · -- one byte
    rw [if_pos (show (v : ℤ) ≤ 0x7f by omega), if_pos h₁, ofInt_natCast]
    rfl

theorem randomUtf8Zh_toNat {buffer : List Byte} {ptr : ℕ} (c : Char)
    (h : ptr + (Utf8.encodeChar c).length ≤ buffer.length) :
    randomUtf8Zh c.toNat buffer ptr =
      .ok (overwrite buffer ptr (Utf8.encodeChar c), (Utf8.encodeChar c).length) := by
  rw [randomUtf8Zh_char, writeRange_of_le h, Run.ok_bind]

end PgKmcb.Text
