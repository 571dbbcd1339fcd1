import Mathlib.Data.Int.ConditionallyCompleteOrder
import Mathlib.Tactic.IntervalCases
import PgKmcb.Text.RandString

/-!
# What random texts there are (`se_rand.c`, `pg_rand.c`)

The results of `generateRandString` for all streams of values, from both sides: no stream
leads to another text than the documentation promises, and every such text has a stream
that leads to it (`generateRandString_texts`).

Each function of the generator gets its own `Yields`.  The flag goes through two
numberings on the way, the codes of `ckeck_flag` and the ranges of `rand_num_abc_zh`;
`iUnion_codeChars` says that together they are the classes of the documentation.
-/

namespace PgKmcb.Text

open PgKmcb.Lib

/-! ## The characters of a flag -/

/-- The characters from one code to another. -/
def charRange (lo hi : ℕ) : Set Char := {c | lo ≤ c.toNat ∧ c.toNat ≤ hi}

/-- The digits. -/
def digits : Set Char := charRange 48 57

/-- The upper-case letters. -/
def uppers : Set Char := charRange 65 90

/-- The lower-case letters. -/
def lowers : Set Char := charRange 97 122

/-- The Chinese characters that are generated. -/
def hanzi : Set Char := charRange 19968 20901

/-- The characters that the documentation lists for a flag. -/
def flagChars (flag : ℤ) : Set Char :=
  match flag with
  | 1 => digits
  | 2 => uppers
  | 3 => digits ∪ uppers
  | 4 => lowers
  | 5 => digits ∪ lowers
  | 6 => uppers ∪ lowers
  | 7 => digits ∪ uppers ∪ lowers
  | 8 => hanzi
  | 9 => digits ∪ hanzi
  | 10 => uppers ∪ hanzi
  | 11 => digits ∪ uppers ∪ hanzi
  | 12 => lowers ∪ hanzi
  | 13 => digits ∪ lowers ∪ hanzi
  | 14 => uppers ∪ lowers ∪ hanzi
  | _ => digits ∪ uppers ∪ lowers ∪ hanzi

/-! ## What is drawn -/

/-- The values that `random()` has. -/
def randomValues : Set ℕ := {n | n < 2 ^ 31}

/-- A number is drawn from a range that has no more numbers than `random()` has values. -/
theorem rangeRandom_yields {lo hi : ℤ} (hle : lo ≤ hi) (hfew : hi - lo < 2 ^ 31) :
    Yields randomValues (rangeRandom lo hi) (Set.Icc lo hi) := by
  have hpos : 0 < hi + 1 - lo := by omega
  have hform : rangeRandom lo hi = draw >>= fun random : ℕ ↦
      pure ((random : ℤ).tmod (hi + 1 - lo) + lo) := by
    rw [rangeRandom]
    simp only [if_neg hpos.ne']
  have hmod : ∀ v : ℕ, 0 ≤ (v : ℤ).tmod (hi + 1 - lo) ∧ (v : ℤ).tmod (hi + 1 - lo) < hi + 1 - lo :=
    fun v ↦ ⟨Int.tmod_nonneg _ (Int.natCast_nonneg v), Int.tmod_lt_of_pos v hpos⟩
  rw [hform]
  refine (Yields.draw_map ?_).congr ?_
  · -- the remainder itself is a value that gives the same
    intro v
    obtain ⟨hnonneg, hlt⟩ := hmod v
    refine ⟨((v : ℤ).tmod (hi + 1 - lo)).toNat, ?_, ?_⟩
    · show _ < 2 ^ 31
      omega
    · rw [Int.toNat_of_nonneg hnonneg, Int.tmod_tmod]
  · ext n
    constructor
    · rintro ⟨v, rfl⟩
      obtain ⟨hnonneg, hlt⟩ := hmod v
      dsimp only
      exact ⟨by omega, by omega⟩
    · rintro ⟨hlo, hhi⟩
      refine ⟨(n - lo).toNat, ?_⟩
      dsimp only
      rw [Int.toNat_of_nonneg (by omega), Int.tmod_eq_of_lt (by omega) (by omega)]
      omega

/-- The same for a range whose numbers are listed. -/
theorem rangeRandom_yields_of_mem {lo hi : ℤ} {S : Set ℤ} (hle : lo ≤ hi)
    (hfew : hi - lo < 2 ^ 31) (hS : ∀ k, lo ≤ k ∧ k ≤ hi ↔ k ∈ S) :
    Yields randomValues (rangeRandom lo hi) S :=
  (rangeRandom_yields hle hfew).congr (Set.ext hS)

/-- What a generator has done that has written a character at a position. -/
def written (buffer : List Byte) (ptr : ℕ) (A : Set Char) : Set (List Byte × ℕ) :=
  (fun c ↦ (overwrite buffer ptr (Utf8.encodeChar c), (Utf8.encodeChar c).length)) '' A

theorem written_iUnion {ι : Type} (buffer : List Byte) (ptr : ℕ) (I : Set ι) (A : ι → Set Char) :
    ⋃ i ∈ I, written buffer ptr (A i) = written buffer ptr (⋃ i ∈ I, A i) :=
  (Set.image_iUnion₂ _ _).symm

variable {buffer : List Byte} {ptr : ℕ}

/-- The codes of a range are the characters of the range. -/
theorem exists_char {lo hi : ℕ} (hhi : hi < 0xd800) {code : ℤ}
    (hcode : code ∈ Set.Icc (lo : ℤ) hi) :
    ∃ c ∈ charRange lo hi, (c.toNat : ℤ) = code := by
  obtain ⟨hlo, hhi'⟩ := hcode
  have hnat : (Char.ofNat code.toNat).toNat = code.toNat := Utf8.toNat_ofNat (.inl (by omega))
  refine ⟨Char.ofNat code.toNat, ⟨?_, ?_⟩, ?_⟩
  · rw [hnat]
    omega
  · rw [hnat]
    omega
  · rw [hnat]
    omega

/-- A generator that draws a code and writes the character that has it. -/
theorem draw_written {lo hi : ℕ} (hle : lo ≤ hi) (hhi : hi < 0xd800)
    {f : ℤ → RandCall (List Byte × ℕ)} (hf : ∀ c ∈ charRange lo hi, Yields randomValues
      (f c.toNat) {(overwrite buffer ptr (Utf8.encodeChar c), (Utf8.encodeChar c).length)}) :
    Yields randomValues (rangeRandom lo hi >>= f) (written buffer ptr (charRange lo hi)) := by
  have hdraw : Yields randomValues (rangeRandom lo hi)
      ((fun c : Char ↦ (c.toNat : ℤ)) '' charRange lo hi) := by
    refine (rangeRandom_yields (by omega) (by omega)).congr ?_
    ext code
    constructor
    · exact exists_char hhi
    · rintro ⟨c, ⟨hlo, hhi'⟩, rfl⟩
      exact ⟨Int.ofNat_le.mpr hlo, Int.ofNat_le.mpr hhi'⟩
  exact (hdraw.bind_of_image hf).congr (Set.image_eq_iUnion _ _).symm

/-- The encoding of a character of one byte. -/
theorem encodeChar_of_lt {c : Char} (h : c.toNat < 0x80) :
    Utf8.encodeChar c = [UInt8.ofInt c.toNat] := by
  rw [ofInt_natCast, Utf8.encodeChar, String.utf8EncodeChar]
  exact if_pos (Nat.le_of_lt_succ h)

theorem randomByte_yields {lo hi : ℕ} (hle : lo ≤ hi) (hhi : hi < 0x80)
    (hroom : ptr + utf8MaxSize ≤ buffer.length) :
    Yields randomValues (randomByte lo hi buffer ptr) (written buffer ptr (charRange lo hi)) := by
  refine draw_written hle (by omega) ?_
  rintro c ⟨-, hc⟩
  rw [encodeChar_of_lt (by omega)]
  rw [utf8MaxSize] at hroom
  refine Yields.lift_bind (writeRange_of_le ?_) (Yields.pure _)
  rw [List.length_singleton]
  omega

theorem length_encodeChar_le (c : Char) : (Utf8.encodeChar c).length ≤ utf8MaxSize := by
  rw [Utf8.length_encodeChar, utf8MaxSize]
  exact c.utf8Size_le_four.trans (by decide)

theorem randomZh_yields (fuel : ℕ) (hroom : ptr + utf8MaxSize ≤ buffer.length) :
    Yields randomValues (randomZh buffer ptr (fuel + 1)) (written buffer ptr hanzi) := by
  refine draw_written (show 19968 ≤ 20901 by decide) (by decide) ?_
  rintro c -
  have hlen := length_encodeChar_le c
  have hpos := c.utf8Size_pos
  rw [← Utf8.length_encodeChar] at hpos
  refine Yields.lift_bind (randomUtf8Zh_toNat c (by omega)) ?_
  dsimp only
  rw [if_neg hpos.ne]
  exact Yields.pure _

/-! ## Codes and flags -/

/-- The characters for a code of the generator. -/
def codeChars (code : ℤ) : Set Char :=
  match code with
  | 1 => digits
  | 2 => uppers
  | 3 => lowers
  | 4 => hanzi
  | _ => digits ∪ uppers ∪ lowers ∪ hanzi

/-- The codes of the generator that a flag leads to. -/
def flagCodes (flag : ℤ) : Set ℤ :=
  match flag with
  | 1 => {1}
  | 2 => {2}
  | 3 => {1, 2}
  | 4 => {3}
  | 5 => {1, 3}
  | 6 => {2, 3}
  | 7 => {1, 2, 3}
  | 8 => {4}
  | 9 => {1, 4}
  | 10 => {2, 4}
  | 11 => {1, 2, 4}
  | 12 => {3, 4}
  | 13 => {1, 3, 4}
  | 14 => {2, 3, 4}
  | _ => {0}

/-- The characters for a value of `flag_upper`. -/
def flagUpperChars (flagUpper : ℤ) : Set Char :=
  match flagUpper with
  | 1 => uppers
  | 2 => lowers
  | 3 => hanzi
  | _ => digits

/-- A flag is one of the fourteen or has the characters of all classes. -/
theorem flag_cases (flag : ℤ) : 1 ≤ flag ∧ flag ≤ 14 ∨
    ckeckFlag flag = pure 0 ∧ flagCodes flag = {0} ∧ flagChars flag = codeChars 0 := by
  by_cases h : 1 ≤ flag ∧ flag ≤ 14
  · exact .inl h
  · refine .inr ⟨?_, ?_, ?_⟩
    · unfold ckeckFlag
      split <;> first | rfl | omega
    · unfold flagCodes
      split <;> first | rfl | omega
    · unfold flagChars
      split <;> first | rfl | omega

/-- `rand_num_abc_zh` yields the characters of its code. -/
theorem randNumAbcZh_yields (fuel : ℕ) {code : ℤ} (hcode : code ∈ ({0, 1, 2, 3, 4} : Set ℤ))
    (hroom : ptr + utf8MaxSize ≤ buffer.length) :
    Yields randomValues (randNumAbcZh (fuel + 1) code buffer ptr)
      (written buffer ptr (codeChars code)) := by
  have hdigits := randomByte_yields (show 48 ≤ 57 by decide) (by decide) hroom
  have huppers := randomByte_yields (show 65 ≤ 90 by decide) (by decide) hroom
  have hlowers := randomByte_yields (show 97 ≤ 122 by decide) (by decide) hroom
  have hhanzi := randomZh_yields fuel hroom
  rcases hcode with rfl | rfl | rfl | rfl | rfl
  · -- one more draw decides between the classes
    have hdraw : Yields randomValues (rangeRandom 0 3) ({0, 1, 2, 3} : Set ℤ) := by
      refine rangeRandom_yields_of_mem (by decide) (by decide) ?_
      intro k
      simp only [Set.mem_insert_iff, Set.mem_singleton_iff]
      omega
    refine (hdraw.bind (T := fun flagUpper ↦ written buffer ptr (flagUpperChars flagUpper))
      ?_).congr ?_
    · rintro flagUpper (rfl | rfl | rfl | rfl)
      · exact hdigits
      · exact huppers
      · exact hlowers
      · exact hhanzi
    · rw [written_iUnion]
      simp only [Set.biUnion_insert, Set.biUnion_singleton, flagUpperChars, codeChars,
        Set.union_assoc]
  · exact hdigits
  · exact huppers
  · exact hlowers
  · exact hhanzi

/-- A draw decides between two programs. -/
theorem randomChoice_yields {x y : RandCall ℤ} {S T : Set ℤ} (hx : Yields randomValues x S)
    (hy : Yields randomValues y T) : Yields randomValues (randomChoice x y) (S ∪ T) := by
  have hdraw : Yields randomValues (rangeRandom 0 1) ({1, 0} : Set ℤ) := by
    refine rangeRandom_yields_of_mem (by decide) (by decide) ?_
    intro k
    simp only [Set.mem_insert_iff, Set.mem_singleton_iff]
    omega
  have hbranch : ∀ random ∈ ({1, 0} : Set ℤ), Yields randomValues
      (if random ≠ 0 then x else y) (if random ≠ 0 then S else T) := by
    rintro random (rfl | rfl)
    · exact hx
    · exact hy
  refine (hdraw.bind hbranch).congr ?_
  rw [Set.biUnion_insert, Set.biUnion_singleton]
  rfl

/-- `ckeck_flag` yields the codes of its flag. -/
theorem ckeckFlag_yields (flag : ℤ) : Yields randomValues (ckeckFlag flag) (flagCodes flag) := by
  rcases flag_cases flag with ⟨h1, h14⟩ | ⟨hcheck, hcodes, -⟩
  · have h12 : Yields randomValues (rangeRandom 1 2) {1, 2} :=
      rangeRandom_yields_of_mem (by decide) (by decide) (by intro k; simp; omega)
    have h23 : Yields randomValues (rangeRandom 2 3) {2, 3} :=
      rangeRandom_yields_of_mem (by decide) (by decide) (by intro k; simp; omega)
    have h34 : Yields randomValues (rangeRandom 3 4) {3, 4} :=
      rangeRandom_yields_of_mem (by decide) (by decide) (by intro k; simp; omega)
    have h13 : Yields randomValues (rangeRandom 1 3) {1, 2, 3} :=
      rangeRandom_yields_of_mem (by decide) (by decide) (by intro k; simp; omega)
    have h24 : Yields randomValues (rangeRandom 2 4) {2, 3, 4} :=
      rangeRandom_yields_of_mem (by decide) (by decide) (by intro k; simp; omega)
    interval_cases flag
    · exact Yields.pure 1
    · exact Yields.pure 2
    · exact h12
    · exact Yields.pure 3
    · exact randomChoice_yields (Yields.pure 1) (Yields.pure 3)
    · exact h23
    · exact h13
    · exact Yields.pure 4
    · exact randomChoice_yields (Yields.pure 1) (Yields.pure 4)
    · exact randomChoice_yields (Yields.pure 2) (Yields.pure 4)
    · exact (randomChoice_yields h12 (Yields.pure 4)).congr (by ext k; simp [flagCodes]; omega)
    · exact h34
    · exact randomChoice_yields (Yields.pure 1) h34
    · exact h24
  · rw [hcheck, hcodes]
    exact Yields.pure 0

/-- The characters of the codes of a flag are those that the documentation lists. -/
theorem iUnion_codeChars (flag : ℤ) : ⋃ code ∈ flagCodes flag, codeChars code = flagChars flag := by
  rcases flag_cases flag with ⟨h1, h14⟩ | ⟨-, hcodes, hchars⟩
  · interval_cases flag <;> simp only [flagCodes, flagChars, codeChars, Set.biUnion_insert,
      Set.biUnion_singleton, Set.union_assoc]
  · rw [hcodes, hchars, Set.biUnion_singleton]

theorem flagCodes_subset (flag : ℤ) : flagCodes flag ⊆ {0, 1, 2, 3, 4} := by
  intro code hcode
  rcases flag_cases flag with ⟨h1, h14⟩ | ⟨-, hcodes, -⟩
  · interval_cases flag <;>
      simp only [flagCodes, Set.mem_insert_iff, Set.mem_singleton_iff] at hcode ⊢ <;> omega
  · rw [hcodes] at hcode
    exact .inl hcode

/-- One round writes one character of the flag. -/
theorem round_yields (fuel : ℕ) (flag : ℤ) (hroom : ptr + utf8MaxSize ≤ buffer.length) :
    Yields randomValues (ckeckFlag flag >>= fun code ↦ randNumAbcZh (fuel + 1) code buffer ptr)
      (written buffer ptr (flagChars flag)) := by
  refine ((ckeckFlag_yields flag).bind fun code hcode ↦
    randNumAbcZh_yields fuel (flagCodes_subset flag hcode) hroom).congr ?_
  rw [written_iUnion, iUnion_codeChars]

/-! ## The loop -/

namespace RandState

/-- The state after so many characters more. -/
def after (s : RandState) (cs : List Char) : RandState where
  buffer := overwrite s.buffer s.ptmp (Utf8.encode cs)
  ptmp := s.ptmp + (Utf8.encode cs).length
  useMemSize := s.useMemSize + (Utf8.encode cs).length

@[simp] theorem after_nil (s : RandState) : s.after [] = s := by
  cases s
  simp [after]

theorem after_singleton (s : RandState) (c : Char) : s.after [c] =
    ⟨overwrite s.buffer s.ptmp (Utf8.encodeChar c), s.ptmp + (Utf8.encodeChar c).length,
      s.useMemSize + (Utf8.encodeChar c).length⟩ := by
  rw [after, Utf8.encode_cons, Utf8.encode_nil, List.append_nil]

theorem after_cons {s : RandState} {c : Char} {cs : List Char}
    (h : s.ptmp + (Utf8.encode [c]).length ≤ s.buffer.length) :
    (s.after [c]).after cs = s.after (c :: cs) := by
  have hcons : Utf8.encode (c :: cs) = Utf8.encode [c] ++ Utf8.encode cs :=
    Utf8.encode_append [c] cs
  rw [after, after, after, hcons, List.length_append, overwrite_append h, Nat.add_assoc,
    Nat.add_assoc]

end RandState

/-- A character takes no more room than is left for it. -/
theorem length_encode_singleton_le (c : Char) : (Utf8.encode [c]).length ≤ utf8MaxSize := by
  rw [Utf8.encode_cons, Utf8.encode_nil, List.append_nil]
  exact length_encodeChar_le c

/-- The loop writes texts of so many characters of the flag. -/
theorem numAbcZhLoop_yields (fuel : ℕ) (flag : ℤ) (n : ℕ) (s : RandState)
    (hroom : s.ptmp + utf8MaxSize * n ≤ s.buffer.length) :
    Yields randomValues (numAbcZhLoop (fuel + 1) flag n s)
      (s.after '' {cs | cs.length = n ∧ ∀ c ∈ cs, c ∈ flagChars flag}) := by
  have hfits : ∀ n (s : RandState) c, s.ptmp + utf8MaxSize * (n + 1) ≤ s.buffer.length →
      s.ptmp + (Utf8.encode [c]).length ≤ s.buffer.length := by
    intro n s c hroom
    have hlen := length_encode_singleton_le c
    rw [Nat.mul_succ] at hroom
    omega
  refine Yields.loop (numAbcZhLoop (fuel + 1) flag) (fun s c ↦ s.after [c]) RandState.after
    (fun n s ↦ s.ptmp + utf8MaxSize * n ≤ s.buffer.length) ?_ ?_ ?_ ?_ hroom
  · intro s _
    rw [RandState.after_nil]
    exact Yields.pure s
  · intro n s hroom T hT
    rw [Nat.mul_succ] at hroom
    have hround := round_yields fuel flag (show s.ptmp + utf8MaxSize ≤ s.buffer.length by omega)
    have hloop : numAbcZhLoop (fuel + 1) flag (n + 1) s =
        (ckeckFlag flag >>= fun code ↦ randNumAbcZh (fuel + 1) code s.buffer s.ptmp) >>=
        fun p ↦ numAbcZhLoop (fuel + 1) flag n
          ⟨p.1, s.ptmp + p.2, s.useMemSize + p.2⟩ := by
      rw [bind_assoc]
      rfl
    rw [hloop]
    refine hround.bind_of_image fun c hc ↦ ?_
    rw [← s.after_singleton]
    exact hT c hc
  · intro n s c hroom
    have hlen := length_encode_singleton_le c
    rw [RandState.after, length_overwrite (hfits n s c hroom)]
    rw [Nat.mul_succ] at hroom
    dsimp only
    omega
  · intro n s c cs hroom
    exact RandState.after_cons (hfits n s c hroom)

/-- `num_abc_zh_rand` does not use its error codes for a buffer that is large enough and
a number of characters in range. -/
theorem numAbcZhRand_yields (fuel : ℕ) (flag : ℤ) {n : ℕ} (hn : n ≤ 0x8000)
    (hroom : utf8MaxSize * n ≤ buffer.length) :
    Yields randomValues (numAbcZhRand (fuel + 1) flag n (some buffer))
      ((fun cs ↦ .ok (overwrite buffer 0 (Utf8.encode cs), (Utf8.encode cs).length)) ''
        {cs | cs.length = n ∧ ∀ c ∈ cs, c ∈ flagChars flag}) := by
  rw [numAbcZhRand, if_neg (by omega), Int.toNat_natCast]
  refine ((numAbcZhLoop_yields fuel flag n ⟨buffer, 0, 0⟩
    (show 0 + utf8MaxSize * n ≤ buffer.length by omega)).bind_pure _).congr ?_
  rw [Set.image_image]
  simp only [RandState.after, Nat.zero_add]

/-! ## The texts -/

/-- The texts that the documentation promises: as many characters as one of the bounds or
as a number between them, and only characters that are listed for the flag. -/
structure IsRandText (minLen maxLen flag : ℤ) (cs : List Char) : Prop where
  min_le : min minLen maxLen ≤ cs.length
  le_max : cs.length ≤ max minLen maxLen
  chars : ∀ c ∈ cs, c ∈ flagChars flag

/-- The `text` of characters in a block that has been allocated for their number. -/
def randVarlena (garbage : ℕ → Byte) (cs : List Char) : Varlena where
  size := (Utf8.encode cs).length + varhdrsz
  data := overwrite (palloc garbage (cs.length * utf8MaxSize)) 0 (Utf8.encode cs)

theorem generateRandString_yields (garbage : ℕ → Byte) (fuel : ℕ) {minLen maxLen : ℤ} (flag : ℤ)
    (hmin : 1 ≤ minLen ∧ minLen ≤ 0x8000) (hmax : 1 ≤ maxLen ∧ maxLen ≤ 0x8000) :
    Yields randomValues (generateRandString garbage (fuel + 1) minLen maxLen flag)
      ((fun cs ↦ .datum (randVarlena garbage cs)) '' {cs | IsRandText minLen maxLen flag cs}) := by
  have hrange : ¬ ((minLen < 1 ∨ maxLen < 1) ∨ (minLen > 0x8000 ∨ maxLen > 0x8000)) := by omega
  have hswap : (if minLen > maxLen then (maxLen, minLen) else (minLen, maxLen)) =
      (min minLen maxLen, max minLen maxLen) := by
    split_ifs with h
    · rw [min_eq_right h.le, max_eq_left h.le]
    · rw [min_eq_left (not_lt.mp h), max_eq_right (not_lt.mp h)]
  have hdraw : Yields randomValues (rangeRandom (min minLen maxLen) (max minLen maxLen)) _ :=
    rangeRandom_yields min_le_max (by omega)
  rw [generateRandString, if_neg hrange, hswap]
  refine (hdraw.bind (T := fun n ↦ (fun cs ↦ .datum (randVarlena garbage cs)) ''
    {cs | (cs.length : ℤ) = n ∧ ∀ c ∈ cs, c ∈ flagChars flag}) ?_).congr ?_
  · rintro n ⟨hlo, hhi⟩
    obtain ⟨n, rfl⟩ := Int.eq_ofNat_of_zero_le (show 0 ≤ n by omega)
    have hbuffer : (palloc garbage (n * utf8MaxSize)).length = utf8MaxSize * n := by
      rw [palloc, List.length_map, List.length_range, Nat.mul_comm]
    have hrand := numAbcZhRand_yields fuel flag (show n ≤ 0x8000 by omega) hbuffer.ge
    dsimp only
    rw [Int.toNat_natCast]
    refine (hrand.bind_image (h := fun cs ↦ .datum (randVarlena garbage cs)) ?_).congr ?_
    · rintro cs ⟨rfl, -⟩
      rfl
    · simp only [Nat.cast_inj]
  · ext result
    constructor
    · intro hresult
      obtain ⟨n, ⟨hlo, hhi⟩, cs, ⟨rfl, hchars⟩, rfl⟩ := Set.mem_iUnion₂.mp hresult
      exact ⟨cs, ⟨hlo, hhi, hchars⟩, rfl⟩
    · rintro ⟨cs, ⟨hlo, hhi, hchars⟩, rfl⟩
      exact Set.mem_biUnion (show (cs.length : ℤ) ∈ Set.Icc _ _ from ⟨hlo, hhi⟩)
        ⟨cs, ⟨rfl, hchars⟩, rfl⟩

/-- A block for the characters has room for their encodings, which are written from its
beginning on. -/
theorem randVarlena_data (garbage : ℕ → Byte) (cs : List Char) : (randVarlena garbage cs).data =
    Utf8.encode cs ++ (palloc garbage (cs.length * 6)).drop (Utf8.encode cs).length := by
  rw [randVarlena, overwrite_zero, utf8MaxSize]

theorem randVarlena_payload (garbage : ℕ → Byte) (cs : List Char) :
    (randVarlena garbage cs).payload = Utf8.encode cs := by
  rw [Varlena.payload, randVarlena_data, randVarlena, Nat.add_sub_cancel, List.take_left]

/-- The texts that `generate_rand_string` returns for some stream of values. -/
def randTexts (garbage : ℕ → Byte) (fuel : ℕ) (minLen maxLen flag : ℤ) (R : Set ℕ) :
    Set (List Byte) :=
  {t | ∃ draws rest v, draws.All (· ∈ R) ∧
    generateRandString garbage fuel minLen maxLen flag draws = .ok (.datum v, rest) ∧
    v.payload = t}

/-- For two bounds from 1 to 32768, in either order, and any flag, the texts that are
returned are exactly those that the documentation promises, whether `random()` is thought
of as returning any number or numbers below `2 ^ 31` only.  Every run returns a text: it
writes nowhere outside of its block and does not meet the error of its helper; and the
size in the header is that of what has been written, with the rest of the block left as it
was allocated. -/
theorem generateRandString_texts (garbage : ℕ → Byte) (fuel : ℕ) (minLen maxLen flag : ℤ)
    (hmin : 1 ≤ minLen ∧ minLen ≤ 32768) (hmax : 1 ≤ maxLen ∧ maxLen ≤ 32768) :
    (∀ R : Set ℕ, (∀ n < 2 ^ 31, n ∈ R) → randTexts garbage (fuel + 1) minLen maxLen flag R =
      Utf8.encode '' {cs | IsRandText minLen maxLen flag cs}) ∧
    ∀ draws, ∃ cs v rest, IsRandText minLen maxLen flag cs ∧
      generateRandString garbage (fuel + 1) minLen maxLen flag draws = .ok (.datum v, rest) ∧
      v.size = (Utf8.encode cs).length + varhdrsz ∧
      v.data = Utf8.encode cs ++ (palloc garbage (cs.length * 6)).drop (Utf8.encode cs).length := by
  have hyields := generateRandString_yields garbage fuel flag hmin hmax
  constructor
  · intro R hR
    have hresults := hyields.setOf_results ⟨0, show 0 < 2 ^ 31 by decide⟩ hR
    ext t
    constructor
    · rintro ⟨draws, rest, v, hdraws, hrun, rfl⟩
      have hv : SqlResult.datum v ∈ {a | ∃ s s', s.All (· ∈ R) ∧
          generateRandString garbage (fuel + 1) minLen maxLen flag s = .ok (a, s')} :=
        ⟨draws, rest, hdraws, hrun⟩
      rw [hresults] at hv
      obtain ⟨cs, hcs, hv⟩ := hv
      cases hv
      exact ⟨cs, hcs, (randVarlena_payload garbage cs).symm⟩
    · rintro ⟨cs, hcs, rfl⟩
      have hv : SqlResult.datum (randVarlena garbage cs) ∈ {a | ∃ s s', s.All (· ∈ R) ∧
          generateRandString garbage (fuel + 1) minLen maxLen flag s = .ok (a, s')} := by
        rw [hresults]
        exact ⟨cs, hcs, rfl⟩
      obtain ⟨draws, rest, hdraws, hrun⟩ := hv
      exact ⟨draws, rest, _, hdraws, hrun, randVarlena_payload garbage cs⟩
  · intro draws
    obtain ⟨result, rest, hrun, cs, hcs, rfl⟩ := hyields.sound draws
    exact ⟨cs, _, rest, hcs, hrun, rfl, randVarlena_data garbage cs⟩

/-- The defaults of the SQL function: from 8 to 32 characters of all classes. -/
theorem generateRandString_texts_default :
    (∀ R : Set ℕ, (∀ n < 2 ^ 31, n ∈ R) → randTexts (fun _ ↦ 0) (0 + 1) 8 32 0 R =
      Utf8.encode '' {cs | IsRandText 8 32 0 cs}) ∧
    ∀ draws, ∃ cs v rest, IsRandText 8 32 0 cs ∧
      generateRandString (fun _ ↦ 0) (0 + 1) 8 32 0 draws = .ok (.datum v, rest) ∧
      v.size = (Utf8.encode cs).length + varhdrsz ∧
      v.data = Utf8.encode cs ++
        (palloc (fun _ ↦ 0) (cs.length * 6)).drop (Utf8.encode cs).length :=
  generateRandString_texts (fun _ ↦ 0) 0 8 32 0 (by decide) (by decide)

end PgKmcb.Text
