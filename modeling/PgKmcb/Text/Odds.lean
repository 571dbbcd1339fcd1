import PgKmcb.Lib.Chance
import PgKmcb.Text.RandTexts

/-!
# How likely the texts are (`se_rand.c`, `pg_rand.c`)

`generate_rand_string` draws the number of the characters, and for each of them first the
class that its flag asks for and then the code.  A number that is drawn from a range is a
remainder, and the values of `random` do not divide evenly, so `share` is not the same for
all remainders.  How many values a character takes depends on its flag and, for some flags,
on the values themselves, which is why the chances of the parts are put together with the
rules of `Chance`.

The classes are chosen before the codes.  So a digit is more likely than a letter where both
are asked for, and both are more likely than a Chinese character.
-/

namespace PgKmcb.Text

open PgKmcb.Lib

/-- The share of the values of `random` that leave a remainder. -/
def share (m r : ℕ) : ℚ := (2 ^ 31 / m + if r < 2 ^ 31 % m then 1 else 0 : ℕ) / 2 ^ 31

/-- The mean of what a number stands for that is drawn from a range. -/
def rangeMean (lo hi : ℤ) (q : ℤ → ℚ) : ℚ :=
  ∑ i ∈ Finset.range (hi + 1 - lo).toNat, share (hi + 1 - lo).toNat i * q (i + lo)

/-- The mean of what the code of a flag stands for. -/
def flagMean (flag : ℤ) (q : ℤ → ℚ) : ℚ :=
  match flag with
  | 1 => q 1
  | 2 => q 2
  | 3 => rangeMean 1 2 q
  | 4 => q 3
  | 5 => (q 1 + q 3) / 2
  | 6 => rangeMean 2 3 q
  | 7 => rangeMean 1 3 q
  | 8 => q 4
  | 9 => (q 1 + q 4) / 2
  | 10 => (q 2 + q 4) / 2
  | 11 => (rangeMean 1 2 q + q 4) / 2
  | 12 => rangeMean 3 4 q
  | 13 => (q 1 + rangeMean 3 4 q) / 2
  | 14 => rangeMean 2 4 q
  | _ => q 0

/-- The share of a number that may be drawn from a range. -/
def numberShare (lo hi k : ℤ) : ℚ :=
  if lo ≤ k ∧ k ≤ hi then share (hi + 1 - lo).toNat (k - lo).toNat else 0

/-- The share of a character among those of a range. -/
def rangeShare (lo hi : ℕ) (c : Char) : ℚ := numberShare lo hi c.toNat

/-- The share of a character among those of a value of `flag_upper`. -/
def flagUpperShare (flagUpper : ℤ) (c : Char) : ℚ :=
  match flagUpper with
  | 1 => rangeShare 65 90 c
  | 2 => rangeShare 97 122 c
  | 3 => rangeShare 19968 20901 c
  | _ => rangeShare 48 57 c

/-- The share of a character among those of a code. -/
def codeShare (code : ℤ) (c : Char) : ℚ :=
  match code with
  | 1 => rangeShare 48 57 c
  | 2 => rangeShare 65 90 c
  | 3 => rangeShare 97 122 c
  | 4 => rangeShare 19968 20901 c
  | _ => rangeMean 0 3 (flagUpperShare · c)

/-- The share of a character among those of a flag. -/
def flagShare (flag : ℤ) (c : Char) : ℚ := flagMean flag (codeShare · c)

theorem rangeMean_mul (lo hi : ℤ) (p : ℤ → ℚ) (q : ℚ) :
    rangeMean lo hi (fun code ↦ p code * q) = rangeMean lo hi p * q := by
  simp only [rangeMean, Finset.sum_mul, mul_assoc]

/-- The mean of what one number stands for. -/
theorem rangeMean_ite (lo hi k : ℤ) (q : ℚ) :
    rangeMean lo hi (fun code ↦ if code = k then q else 0) = numberShare lo hi k * q := by
  rw [rangeMean, numberShare]
  simp only [mul_ite, mul_zero, ite_mul, zero_mul]
  split_ifs with hk
  · have hmem : (k - lo).toNat ∈ Finset.range (hi + 1 - lo).toNat := by
      rw [Finset.mem_range]
      omega
    rw [Finset.sum_eq_single_of_mem _ hmem fun i _ hi ↦ if_neg (by omega), if_pos (by omega)]
  · refine Finset.sum_eq_zero fun i hi ↦ if_neg ?_
    rw [Finset.mem_range] at hi
    omega

theorem flagMean_mul (flag : ℤ) (p : ℤ → ℚ) (q : ℚ) :
    flagMean flag (fun code ↦ p code * q) = flagMean flag p * q := by
  unfold flagMean
  split <;> simp only [rangeMean_mul] <;> ring

/-- The values of `random`. -/
def values : Finset ℕ := Finset.range (2 ^ 31)

variable {α : Type} {A : Set α} {N : ℕ}

/-! ## Draws -/

theorem card_values : values.card = 2 ^ 31 := Finset.card_range _

theorem values_nonempty : values.Nonempty := ⟨0, Finset.mem_range.mpr (by norm_num)⟩

/-- The values are told apart by their remainders. -/
theorem sum_values_mod {m : ℕ} (hm : 0 < m) (q : ℕ → ℚ) :
    (∑ v ∈ values, q (v % m)) / values.card = ∑ i ∈ Finset.range m, share m i * q i := by
  rw [← Finset.sum_fiberwise_of_maps_to (t := Finset.range m)
    fun v _ ↦ Finset.mem_range.mpr (Nat.mod_lt v hm), Finset.sum_div]
  refine Finset.sum_congr rfl fun i hi ↦ ?_
  have hcard : (values.filter (· % m = i)).card = 2 ^ 31 / m + if i < 2 ^ 31 % m then 1 else 0 := by
    rw [← ncard_mod_eq _ (Finset.mem_range.mp hi), ← Set.ncard_coe_finset]
    congr 1
    ext v
    rw [Finset.mem_coe, Finset.mem_filter, values, Finset.mem_range]
    rfl
  have hsum : ∑ v ∈ values with v % m = i, q (v % m) = (values.filter (· % m = i)).card * q i := by
    rw [Finset.sum_congr rfl fun v hv ↦ congrArg q (Finset.mem_filter.mp hv).2,
      Finset.sum_const, nsmul_eq_mul]
  rw [hsum, hcard, share, card_values, mul_div_right_comm, Nat.cast_pow, Nat.cast_ofNat]

theorem rangeRandom_chance {lo hi : ℤ} (hle : lo ≤ hi) {g : ℤ → RandCall α} {q : ℤ → ℚ}
    (h : ∀ code, lo ≤ code → code ≤ hi → Chance values N (g code) A (q code)) :
    Chance values (N + 1) (rangeRandom lo hi >>= g) A (rangeMean lo hi q) := by
  have hpos : 0 < hi + 1 - lo := by omega
  obtain ⟨m, hm⟩ := Int.eq_ofNat_of_zero_le hpos.le
  have hform : rangeRandom lo hi >>= g = draw >>= fun v : ℕ ↦ g ((v % m : ℕ) + lo) := by
    rw [rangeRandom, bind_assoc]
    simp only [if_neg hpos.ne', pure_bind]
    rw [hm]
    rfl
  rw [hform, rangeMean, hm, Int.toNat_natCast, ← sum_values_mod (by omega)]
  refine Chance.draw_bind values_nonempty fun v _ ↦ h _ (by omega) ?_
  have hlt := Nat.mod_lt v (show 0 < m by omega)
  omega

/-- A draw decides between two programs. -/
theorem randomChoice_chance {x y : RandCall ℤ} {g : ℤ → RandCall α} {p q : ℚ}
    (hx : Chance values N (x >>= g) A p) (hy : Chance values N (y >>= g) A q) :
    Chance values (N + 1) (randomChoice x y >>= g) A ((p + q) / 2) := by
  rw [randomChoice, bind_assoc]
  refine (rangeRandom_chance (q := fun random ↦ if random = 0 then q else p) (by decide)
    fun random hlo hhi ↦ ?_).congr ?_
  · obtain rfl | rfl : random = 0 ∨ random = 1 := by omega
    · exact hy
    · exact hx
  · have hshare : ∀ i < 2, share 2 i = 1 / 2 := by
      intro i hi
      norm_num [share]
    show ∑ i ∈ Finset.range 2, share 2 i * _ = _
    rw [Finset.sum_range_succ, Finset.sum_range_one, hshare 0 (by decide), hshare 1 (by decide)]
    norm_num
    ring

/-- The code of a flag is drawn before a program. -/
theorem ckeckFlag_chance (flag : ℤ) {g : ℤ → RandCall α} {q : ℤ → ℚ}
    (h : ∀ code, Chance values N (g code) A (q code)) :
    Chance values (N + 2) (ckeckFlag flag >>= g) A (flagMean flag q) := by
  have hrange : ∀ {lo hi : ℤ}, lo ≤ hi →
      Chance values (N + 1) (rangeRandom lo hi >>= g) A (rangeMean lo hi q) :=
    fun hle ↦ rangeRandom_chance hle fun code _ _ ↦ h code
  have hpure : ∀ code, Chance values (N + 1) (pure code >>= g) A (q code) := by
    intro code
    rw [pure_bind]
    exact (h code).mono (Nat.le_succ N)
  by_cases h14 : 1 ≤ flag ∧ flag ≤ 14
  · obtain ⟨h1, h14⟩ := h14
    interval_cases flag
    · exact (hpure 1).mono (Nat.le_succ _)
    · exact (hpure 2).mono (Nat.le_succ _)
    · exact (hrange (by decide)).mono (Nat.le_succ _)
    · exact (hpure 3).mono (Nat.le_succ _)
    · exact randomChoice_chance (hpure 1) (hpure 3)
    · exact (hrange (by decide)).mono (Nat.le_succ _)
    · exact (hrange (by decide)).mono (Nat.le_succ _)
    · exact (hpure 4).mono (Nat.le_succ _)
    · exact randomChoice_chance (hpure 1) (hpure 4)
    · exact randomChoice_chance (hpure 2) (hpure 4)
    · exact randomChoice_chance (hrange (by decide)) (hpure 4)
    · exact (hrange (by decide)).mono (Nat.le_succ _)
    · exact randomChoice_chance (hpure 1) (hrange (by decide))
    · exact (hrange (by decide)).mono (Nat.le_succ _)
  · have hzero : ckeckFlag flag = pure 0 ∧ flagMean flag q = q 0 := by
      constructor
      · unfold ckeckFlag
        split <;> first | rfl | omega
      · unfold flagMean
        split <;> first | rfl | omega
    rw [hzero.1, hzero.2]
    exact (hpure 0).mono (Nat.le_succ _)

/-! ## Characters -/

variable {c₀ : Char} {q : ℚ}

/-- A character is drawn from a range, before a program that asks for one of them. -/
theorem draw_chance {lo hi : ℕ} (hle : lo ≤ hi) (hhi : hi < 0xd800) {f : ℤ → RandCall α}
    (h : ∀ c ∈ charRange lo hi, Chance values N (f c.toNat) A (if c = c₀ then q else 0)) :
    Chance values (N + 1) (rangeRandom lo hi >>= f) A (rangeShare lo hi c₀ * q) := by
  refine (rangeRandom_chance (q := fun code ↦ if code = c₀.toNat then q else 0) (by omega)
    fun code hlo hhi' ↦ ?_).congr ?_
  · obtain ⟨c, hc, rfl⟩ := exists_char hhi ⟨hlo, hhi'⟩
    refine (h c hc).congr (if_congr ?_ rfl rfl)
    rw [Int.natCast_inj, Char.toNat_inj]
  · exact rangeMean_ite _ _ _ q

variable {buffer : List Byte} {ptr : ℕ} {g : List Byte × ℕ → RandCall α}

theorem randomByte_chance {lo hi : ℕ} (hle : lo ≤ hi) (hhi : hi < 0x80)
    (hroom : ptr + utf8MaxSize ≤ buffer.length)
    (h : ∀ c, Chance values N (g (overwrite buffer ptr (Utf8.encodeChar c),
      (Utf8.encodeChar c).length)) A (if c = c₀ then q else 0)) :
    Chance values (N + 1) (randomByte lo hi buffer ptr >>= g) A (rangeShare lo hi c₀ * q) := by
  rw [randomByte, bind_assoc]
  refine draw_chance hle (by omega) ?_
  rintro c ⟨-, hc⟩
  have hg := h c
  rw [encodeChar_of_lt (by omega)] at hg
  rw [utf8MaxSize] at hroom
  rw [bind_assoc]
  refine Chance.lift_bind (writeRange_of_le ?_) hg
  rw [List.length_singleton]
  omega

theorem randomZh_chance (fuel : ℕ) (hroom : ptr + utf8MaxSize ≤ buffer.length)
    (h : ∀ c, Chance values N (g (overwrite buffer ptr (Utf8.encodeChar c),
      (Utf8.encodeChar c).length)) A (if c = c₀ then q else 0)) :
    Chance values (N + 1) (randomZh buffer ptr (fuel + 1) >>= g) A
      (rangeShare 19968 20901 c₀ * q) := by
  rw [randomZh, bind_assoc]
  refine draw_chance (show 19968 ≤ 20901 by decide) (by decide) ?_
  rintro c -
  have hlen := length_encodeChar_le c
  have hpos := c.utf8Size_pos
  rw [← Utf8.length_encodeChar] at hpos
  rw [bind_assoc]
  refine Chance.lift_bind (randomUtf8Zh_toNat c (by omega)) ?_
  dsimp only
  rw [if_neg hpos.ne]
  exact h c

/-- A character of a code is written before a program that asks for one of them. -/
theorem randNumAbcZh_chance (fuel : ℕ) (code : ℤ) (hroom : ptr + utf8MaxSize ≤ buffer.length)
    (h : ∀ c, Chance values N (g (overwrite buffer ptr (Utf8.encodeChar c),
      (Utf8.encodeChar c).length)) A (if c = c₀ then q else 0)) :
    Chance values (N + 2) (randNumAbcZh (fuel + 1) code buffer ptr >>= g) A
      (codeShare code c₀ * q) := by
  have hdigits := randomByte_chance (show 48 ≤ 57 by decide) (by decide) hroom h
  have huppers := randomByte_chance (show 65 ≤ 90 by decide) (by decide) hroom h
  have hlowers := randomByte_chance (show 97 ≤ 122 by decide) (by decide) hroom h
  have hhanzi := randomZh_chance fuel hroom h
  by_cases h4 : 1 ≤ code ∧ code ≤ 4
  · obtain ⟨h1, h4⟩ := h4
    interval_cases code
    · exact hdigits.mono (Nat.le_succ _)
    · exact huppers.mono (Nat.le_succ _)
    · exact hlowers.mono (Nat.le_succ _)
    · exact hhanzi.mono (Nat.le_succ _)
  · have hzero : randNumAbcZh (fuel + 1) code buffer ptr = randNumAbcZh (fuel + 1) 0 buffer ptr ∧
        codeShare code c₀ = codeShare 0 c₀ := by
      constructor
      · conv_lhs => unfold randNumAbcZh
        split <;> first | omega | rfl
      · conv_lhs => unfold codeShare
        split <;> first | omega | rfl
    rw [hzero.1, hzero.2]
    simp only [randNumAbcZh, bind_assoc]
    -- one more draw decides between the classes
    refine (rangeRandom_chance (q := fun flagUpper ↦ flagUpperShare flagUpper c₀ * q) (by decide)
      fun flagUpper hlo hhi ↦ ?_).congr ?_
    · interval_cases flagUpper
      · exact hdigits
      · exact huppers
      · exact hlowers
      · exact hhanzi
    · exact rangeMean_mul _ _ _ q

/-! ## Texts -/

/-- A character leaves room for the others. -/
theorem room_after {s : RandState} {n : ℕ} (c : Char)
    (hroom : s.ptmp + (utf8MaxSize * n + utf8MaxSize) ≤ s.buffer.length) :
    s.ptmp + (Utf8.encode [c]).length ≤ s.buffer.length ∧
      (s.after [c]).ptmp + utf8MaxSize * n ≤ (s.after [c]).buffer.length := by
  have hlen := length_encode_singleton_le c
  have hfits : s.ptmp + (Utf8.encode [c]).length ≤ s.buffer.length := by omega
  refine ⟨hfits, ?_⟩
  rw [RandState.after, length_overwrite hfits]
  dsimp only
  omega

/-- The loop writes a text of so many characters, before a program that asks for one of them. -/
theorem numAbcZhLoop_chance (fuel : ℕ) (flag : ℤ) {g : RandState → RandCall α} (cs : List Char)
    (s : RandState) {q : ℚ} (hroom : s.ptmp + utf8MaxSize * cs.length ≤ s.buffer.length)
    (h : ∀ ds, ds.length = cs.length →
      Chance values N (g (s.after ds)) A (if ds = cs then q else 0)) :
    Chance values (N + 4 * cs.length) (numAbcZhLoop (fuel + 1) flag cs.length s >>= g) A
      ((cs.map (flagShare flag)).prod * q) := by
  induction cs generalizing s q with
  | nil =>
      have hg := h [] rfl
      rw [s.after_nil, if_pos rfl] at hg
      rw [List.length_nil, numAbcZhLoop, pure_bind, List.map_nil, List.prod_nil, one_mul]
      exact hg
  | cons c₀ cs ih =>
      rw [List.length_cons, Nat.mul_succ] at hroom
      have hloop : numAbcZhLoop (fuel + 1) flag (cs.length + 1) s >>= g =
          ckeckFlag flag >>= fun code ↦ randNumAbcZh (fuel + 1) code s.buffer s.ptmp >>=
          fun p ↦ numAbcZhLoop (fuel + 1) flag cs.length
            ⟨p.1, s.ptmp + p.2, s.useMemSize + p.2⟩ >>= g := by
        simp only [numAbcZhLoop, bind_assoc]
      have hrest : ∀ c, Chance values (N + 4 * cs.length)
          (numAbcZhLoop (fuel + 1) flag cs.length (s.after [c]) >>= g) A
          (if c = c₀ then (cs.map (flagShare flag)).prod * q else 0) := by
        intro c
        obtain ⟨hfits, hroom'⟩ := room_after c hroom
        have hnext : ∀ ds, ds.length = cs.length → Chance values N (g ((s.after [c]).after ds)) A
            (if c :: ds = c₀ :: cs then q else 0) := by
          intro ds hds
          rw [RandState.after_cons hfits]
          exact h (c :: ds) (congrArg (· + 1) hds)
        simp only [List.cons.injEq] at hnext
        split_ifs with hc
        · subst hc
          simp only [true_and] at hnext
          exact ih _ hroom' hnext
        · simp only [hc, false_and, if_false] at hnext
          refine (ih (s.after [c]) (q := 0) hroom' fun ds hds ↦ ?_).congr (mul_zero _)
          rw [ite_self]
          exact hnext ds hds
      rw [List.length_cons, hloop, List.map_cons, List.prod_cons, mul_assoc, flagShare,
        ← flagMean_mul]
      refine (ckeckFlag_chance (N := N + 4 * cs.length + 2) flag fun code ↦ ?_).mono (by omega)
      refine randNumAbcZh_chance fuel code (by omega) fun c ↦ ?_
      rw [← s.after_singleton]
      exact hrest c

theorem numAbcZhRand_chance (fuel : ℕ) (flag : ℤ)
    {g : Except ℤ (List Byte × ℕ) → RandCall α} (cs : List Char) (hn : cs.length ≤ 0x8000)
    (hroom : utf8MaxSize * cs.length ≤ buffer.length)
    (h : ∀ ds, ds.length = cs.length → Chance values N
      (g (.ok (overwrite buffer 0 (Utf8.encode ds), (Utf8.encode ds).length))) A
      (if ds = cs then q else 0)) :
    Chance values (N + 4 * cs.length)
      (numAbcZhRand (fuel + 1) flag cs.length (some buffer) >>= g) A
      ((cs.map (flagShare flag)).prod * q) := by
  rw [numAbcZhRand, if_neg (by omega), Int.toNat_natCast, bind_assoc]
  simp only [pure_bind]
  refine numAbcZhLoop_chance fuel flag cs ⟨buffer, 0, 0⟩ (by dsimp only; omega) fun ds hds ↦ ?_
  simp only [RandState.after, Nat.zero_add]
  exact h ds hds

/-- The results that are a text. -/
def isText (t : List Byte) : Set (SqlResult Varlena) :=
  {result | ∃ v, result = .datum v ∧ v.payload = t}

theorem randVarlena_mem_isText (garbage : ℕ → Byte) {ds cs : List Char} :
    .datum (randVarlena garbage ds) ∈ isText (Utf8.encode cs) ↔ ds = cs := by
  constructor
  · rintro ⟨v, hv, htext⟩
    cases hv
    exact Utf8.encode_injective ((randVarlena_payload garbage ds).symm.trans htext)
  · rintro rfl
    exact ⟨_, rfl, randVarlena_payload garbage ds⟩

/-- What is written for a number of characters is returned as a text. -/
theorem fillText_chance (garbage : ℕ → Byte) (fuel : ℕ) (flag : ℤ) {m : ℕ} (hm : m ≤ 0x8000)
    {g : Except ℤ (List Byte × ℕ) → RandCall (SqlResult Varlena)}
    (hg : ∀ ds, ds.length = m → g (.ok (overwrite (palloc garbage (m * utf8MaxSize)) 0
      (Utf8.encode ds), (Utf8.encode ds).length)) = pure (.datum (randVarlena garbage ds)))
    (cs : List Char) : Chance values (4 * m)
      (numAbcZhRand (fuel + 1) flag m (some (palloc garbage (m * utf8MaxSize))) >>= g)
      (isText (Utf8.encode cs))
      (if (m : ℤ) = cs.length then (cs.map (flagShare flag)).prod else 0) := by
  have hroom : utf8MaxSize * m ≤ (palloc garbage (m * utf8MaxSize)).length := by
    rw [palloc, List.length_map, List.length_range, Nat.mul_comm]
  have hpure : ∀ ds, ds.length = m → Chance values 0 (g (.ok (overwrite (palloc garbage
      (m * utf8MaxSize)) 0 (Utf8.encode ds), (Utf8.encode ds).length)))
      (isText (Utf8.encode cs)) (if ds = cs then 1 else 0) := by
    intro ds hds
    rw [hg ds hds]
    exact Chance.pure (randVarlena_mem_isText garbage)
  by_cases hlen : m = cs.length
  · subst hlen
    refine ((numAbcZhRand_chance fuel flag cs hm hroom hpure).mono (by omega)).congr ?_
    rw [if_pos rfl, mul_one]
  · -- a text of another length is not the one that is asked for
    obtain ⟨es, rfl⟩ : ∃ es : List Char, es.length = m := ⟨List.replicate m 'a', by simp⟩
    rw [if_neg fun h ↦ hlen (Int.ofNat_inj.mp h)]
    refine ((numAbcZhRand_chance fuel flag es hm hroom (N := 0) (q := 0) fun ds hds ↦
      (hpure ds hds).congr ?_).mono (by omega)).congr (mul_zero _)
    rw [ite_self, if_neg]
    rintro rfl
    exact hlen hds.symm

/-- The share of a text: of its length, and of its characters. -/
def textShare (minLen maxLen flag : ℤ) (cs : List Char) : ℚ :=
  numberShare (min minLen maxLen) (max minLen maxLen) cs.length * (cs.map (flagShare flag)).prod

theorem generateRandString_chance (garbage : ℕ → Byte) (fuel : ℕ) {minLen maxLen : ℤ} (flag : ℤ)
    (hmin : 1 ≤ minLen ∧ minLen ≤ 0x8000) (hmax : 1 ≤ maxLen ∧ maxLen ≤ 0x8000)
    (cs : List Char) : Chance values (4 * 0x8000 + 1)
      (generateRandString garbage (fuel + 1) minLen maxLen flag) (isText (Utf8.encode cs))
      (textShare minLen maxLen flag cs) := by
  have hrange : ¬ ((minLen < 1 ∨ maxLen < 1) ∨ (minLen > 0x8000 ∨ maxLen > 0x8000)) := by omega
  have hswap : (if minLen > maxLen then (maxLen, minLen) else (minLen, maxLen)) =
      (min minLen maxLen, max minLen maxLen) := by
    split_ifs with h
    · rw [min_eq_right h.le, max_eq_left h.le]
    · rw [min_eq_left (not_lt.mp h), max_eq_right (not_lt.mp h)]
  rw [generateRandString, if_neg hrange, hswap, textShare, ← rangeMean_ite]
  dsimp only
  refine rangeRandom_chance min_le_max fun code hlo hhi ↦ ?_
  obtain ⟨m, rfl⟩ := Int.eq_ofNat_of_zero_le (show 0 ≤ code by omega)
  rw [Int.toNat_natCast]
  refine (fillText_chance garbage fuel flag (show m ≤ 0x8000 by omega) ?_ cs).mono (by omega)
  rintro ds rfl
  rfl

/-- The texts that have a share are those that the documentation promises. -/
theorem textShare_pos_iff {minLen maxLen : ℤ} (flag : ℤ)
    (hmin : 1 ≤ minLen ∧ minLen ≤ 0x8000) (hmax : 1 ≤ maxLen ∧ maxLen ≤ 0x8000)
    (cs : List Char) :
    0 < textShare minLen maxLen flag cs ↔ IsRandText minLen maxLen flag cs := by
  have hvalues : (values : Set ℕ) = randomValues := by
    ext v
    exact Finset.mem_range
  have hyields := generateRandString_yields (fun _ ↦ 0) 0 flag hmin hmax
  rw [← hvalues] at hyields
  rw [(generateRandString_chance (fun _ ↦ 0) 0 flag hmin hmax cs).pos_iff hyields values_nonempty]
  constructor
  · rintro ⟨_, ⟨ds, hds, rfl⟩, htext⟩
    rwa [← (randVarlena_mem_isText _).mp htext]
  · intro h
    exact ⟨_, ⟨cs, h, rfl⟩, (randVarlena_mem_isText _).mpr rfl⟩

/-- Of the lists of values that are long enough for every run, the share that makes
`generate_rand_string` return a text is the product of the share of its length and those of
its characters, whatever values come behind them; and it is not zero for the texts that the
documentation promises, and for no others. -/
theorem generateRandString_odds (garbage : ℕ → Byte) (fuel : ℕ) (minLen maxLen flag : ℤ)
    (hmin : 1 ≤ minLen ∧ minLen ≤ 32768) (hmax : 1 ≤ maxLen ∧ maxLen ≤ 32768)
    (cs : List Char) (n : ℕ) (hn : 1 + 4 * 32768 ≤ n) (s : Stream' ℕ) :
    ((makers values (generateRandString garbage (fuel + 1) minLen maxLen flag)
      (isText (Utf8.encode cs)) n s).ncard : ℚ) =
        textShare minLen maxLen flag cs * (2 ^ 31) ^ n ∧
      (0 < textShare minLen maxLen flag cs ↔ IsRandText minLen maxLen flag cs) := by
  refine ⟨?_, textShare_pos_iff flag hmin hmax cs⟩
  rw [generateRandString_chance garbage fuel flag hmin hmax cs n (by omega) s, card_values,
    Nat.cast_pow, Nat.cast_ofNat]

/-- The text of a digit and a Chinese character, with a flag that asks for both. -/
theorem generateRandString_odds_seven :
    ((makers values (generateRandString (fun _ ↦ 0) 1 2 2 9)
      (isText (Utf8.encode ['7', '一'])) 131073 (Stream'.const 0)).ncard : ℚ) =
        textShare 2 2 9 ['7', '一'] * (2 ^ 31) ^ 131073 ∧
      (0 < textShare 2 2 9 ['7', '一'] ↔ IsRandText 2 2 9 ['7', '一']) :=
  generateRandString_odds (fun _ ↦ 0) 0 2 2 9 (by decide) (by decide) ['7', '一'] 131073
    (by decide) (Stream'.const 0)

example : flagShare 9 '7' = 1 / 2 * (214748365 / 2 ^ 31) := by
  decide +kernel

end PgKmcb.Text
