import PgKmcb.Crypto.Aes

/-!
# The builds of the cipher (`aes.c`)

A macro in the header chooses the length of the key, and with it the number of rounds and of
the words of the key schedule; the longest key has a branch of its own in `KeyExpansion`.
The steps of a round are the same in every build.  The extension is built for AES-128
(`cipherOf_aes128`).  Every word of the schedule after the key is an exclusive or, so it can
be run backwards from any part of it (`keyExpansionOf_window_iff`).

A round of `InvCipher` takes half of a round of `Cipher` back and half of the one before it,
so `invRounds_rounds` is about states that stand in the middle of a round.
-/

namespace PgKmcb.Crypto

/-- The macro that is set, `AES128` if none of the others is. -/
inductive Build where
  | aes128
  | aes192
  | aes256
deriving DecidableEq, Repr

namespace Build

/-- `Nk`. -/
abbrev nk : Build → ℕ
  | aes128 => 4
  | aes192 => 6
  | aes256 => 8

/-- `Nr`. -/
abbrev nr : Build → ℕ
  | aes128 => 10
  | aes192 => 12
  | aes256 => 14

/-- The number of words in the `AES_keyExpSize` bytes of `RoundKey`. -/
abbrev keyExpWords : Build → ℕ
  | aes128 => 44
  | aes192 => 52
  | aes256 => 60

theorem keyExpWords_eq (b : Build) : b.keyExpWords = 4 * (b.nr + 1) := by
  cases b <;> rfl

theorem nk_pos (b : Build) : 0 < b.nk := by
  cases b <;> decide

theorem nk_le (b : Build) : b.nk ≤ b.keyExpWords := by
  cases b <;> decide

/-- The table of constants is long enough for the key schedule. -/
theorem div_nk_lt (b : Build) {i : ℕ} (hi : i < b.keyExpWords) : i / b.nk < 11 := by
  have hlen : b.keyExpWords ≤ 11 * b.nk := by
    cases b <;> decide
  exact (Nat.div_lt_iff_lt_mul b.nk_pos).mpr (Nat.lt_of_lt_of_le hi hlen)

end Build

variable {b : Build}

/-! ## The key schedule -/

/-- The word that `KeyExpansion` adds to word `i - Nk`, from word `i - 1`. -/
def tempaOf (b : Build) (i : ℕ) (hi : i < b.keyExpWords) (last : Word) : Word :=
  let tempa :=
    if i % b.nk = 0 then
      (subWord (rotWord last)).xor ⟨rcon.get ⟨i / b.nk, b.div_nk_lt hi⟩, 0, 0, 0⟩
    else last
  if b = .aes256 ∧ i % b.nk = 4 then subWord tempa else tempa

/-- The loop of `KeyExpansion`: the first `n` words after the key. -/
def expandOf (key : Vector Word b.nk) :
    (n : ℕ) → b.nk + n ≤ b.keyExpWords → Vector Word (b.nk + n)
  | 0, _ => key
  | n + 1, h =>
      have hn : n < b.nk + n := Nat.lt_add_of_pos_left b.nk_pos
      let roundKey := expandOf key n (Nat.le_of_succ_le h)
      roundKey.push (roundKey[n].xor (tempaOf b (b.nk + n) h roundKey[b.nk + n - 1]))

/-- `KeyExpansion`. -/
def keyExpansionOf (key : Vector Word b.nk) : Vector Word b.keyExpWords :=
  (expandOf key (b.keyExpWords - b.nk) (Nat.le_of_eq (Nat.add_sub_of_le b.nk_le))).cast
    (Nat.add_sub_of_le b.nk_le)

/-! ## The cipher -/

/-- `AddRoundKey`. -/
def addRoundKeyOf (roundKey : Vector Word b.keyExpWords) (round : ℕ) (hround : round ≤ b.nr)
    (s : State) : State :=
  have hlast : round * 4 + 3 < b.keyExpWords := by
    rw [b.keyExpWords_eq]
    omega
  s.xor ⟨roundKey[round * 4], roundKey[round * 4 + 1], roundKey[round * 4 + 2],
    roundKey[round * 4 + 3]⟩

/-- `Cipher` up to the end of round `n` of its loop. -/
def rounds (roundKey : Vector Word b.keyExpWords) (s : State) : (n : ℕ) → n ≤ b.nr → State
  | 0, h => addRoundKeyOf roundKey 0 h s
  | n + 1, h =>
      addRoundKeyOf roundKey (n + 1) h
        (mixColumns (shiftRows (subBytes (rounds roundKey s n (Nat.le_of_succ_le h)))))

/-- `Cipher`. -/
def cipherOf (roundKey : Vector Word b.keyExpWords) (s : State) : State :=
  addRoundKeyOf roundKey b.nr (Nat.le_refl _)
    (shiftRows (subBytes (rounds roundKey s (b.nr - 1) (Nat.sub_le _ _))))

/-- The loop of `InvCipher` from round `n` on. -/
def invRounds (roundKey : Vector Word b.keyExpWords) (s : State) : (n : ℕ) → n ≤ b.nr → State
  | 0, _ => s
  | n + 1, h =>
      invRounds roundKey
        (invMixColumns (addRoundKeyOf roundKey (n + 1) h (invSubBytes (invShiftRows s)))) n
        (Nat.le_of_succ_le h)

/-- `InvCipher`. -/
def invCipherOf (roundKey : Vector Word b.keyExpWords) (s : State) : State :=
  addRoundKeyOf roundKey 0 (Nat.zero_le _)
    (invSubBytes (invShiftRows (invRounds roundKey
      (addRoundKeyOf roundKey b.nr (Nat.le_refl _) s) (b.nr - 1) (Nat.sub_le _ _))))

/-! ## Parts of the key schedule -/

theorem getElem_expandOf (key : Vector Word b.nk) {n : ℕ} (hn : b.nk + n ≤ b.keyExpWords) {i : ℕ}
    (hi : i < n) : (expandOf key n hn)[b.nk + i] = (expandOf key n hn)[i].xor
      (tempaOf b (b.nk + i) (by omega) (expandOf key n hn)[b.nk + i - 1]) := by
  induction n with
  | zero => exact absurd hi (Nat.not_lt_zero i)
  | succ n ih =>
      have hpos := b.nk_pos
      have hlow : i < b.nk + n := by omega
      have hlast : b.nk + i - 1 < b.nk + n := by omega
      simp only [expandOf, Vector.getElem_push, hlow, hlast, dif_pos]
      split
      · exact ih _ (by omega)
      · -- the word that the loop has appended
        obtain rfl : i = n := by omega
        rfl

theorem getElem_expandOf_key (key : Vector Word b.nk) (n : ℕ) (hn : b.nk + n ≤ b.keyExpWords)
    {i : ℕ} (hi : i < b.nk) : (expandOf key n hn)[i] = key[i] := by
  induction n with
  | zero => rfl
  | succ n ih =>
      have hlow : i < b.nk + n := by omega
      simp only [expandOf, Vector.getElem_push, hlow, dif_pos]
      exact ih _

/-- What `KeyExpansion` computes a word of. -/
theorem getElem_keyExpansionOf (key : Vector Word b.nk) {i : ℕ}
    (hi : b.nk + i < b.keyExpWords) : (keyExpansionOf key)[b.nk + i] =
      (keyExpansionOf key)[i].xor (tempaOf b (b.nk + i) hi (keyExpansionOf key)[b.nk + i - 1]) := by
  simp only [keyExpansionOf, Vector.getElem_cast]
  exact getElem_expandOf key _ (by omega)

/-- The key schedule runs backwards as well: as many words as the key has, wherever they
stand, are those of one key only. -/
theorem keyExpansionOf_window_iff (b : Build) (key key' : Vector Word b.nk) (i : ℕ)
    (hi : i + b.nk ≤ b.keyExpWords) :
    (∀ j (hj : j < b.nk), (keyExpansionOf key)[i + j] = (keyExpansionOf key')[i + j]) ↔
      key = key' := by
  refine ⟨fun h ↦ ?_, fun h _ _ ↦ h ▸ rfl⟩
  induction i with
  | zero =>
      ext1 j hj
      have hword := h j hj
      simp only [Nat.zero_add, keyExpansionOf, Vector.getElem_cast] at hword
      rwa [getElem_expandOf_key key _ _ hj, getElem_expandOf_key key' _ _ hj] at hword
  | succ i ih =>
      have hwindow : ∀ m (hm : m < b.keyExpWords), i + 1 ≤ m → m ≤ i + b.nk →
          (keyExpansionOf key)[m] = (keyExpansionOf key')[m] := by
        intro m _ hle hlast
        obtain ⟨j, rfl⟩ := Nat.exists_eq_add_of_le hle
        exact h j (by omega)
      refine ih (by omega) fun j hj ↦ ?_
      rcases Nat.eq_zero_or_pos j with rfl | hj0
      · -- the word before the window, from the last one and the one before that
        have htwo : 2 ≤ b.nk := by cases b <;> decide
        have hlast := hwindow (b.nk + i) (by omega) (by omega) (by omega)
        rw [getElem_keyExpansionOf key (by omega), getElem_keyExpansionOf key' (by omega),
          hwindow (b.nk + i - 1) (by omega) (by omega) (by omega)] at hlast
        have hword := congrArg (Word.xor · (tempaOf b (b.nk + i) (by omega)
          (keyExpansionOf key')[b.nk + i - 1])) hlast
        simp only [Word.xor_xor_self] at hword
        exact hword
      · exact hwindow (i + j) (by omega) (by omega) (by omega)

/-- The last eight words of the longest schedule. -/
theorem keyExpansionOf_window_iff_last :
    (∀ j (hj : j < 8),
      have hlt : 52 + j < Build.aes256.keyExpWords := Nat.add_lt_add_left hj 52
      (keyExpansionOf (b := .aes256) (.replicate 8 ⟨0, 0, 0, 0⟩))[52 + j] =
        (keyExpansionOf (b := .aes256) (.replicate 8 ⟨1, 0, 0, 0⟩))[52 + j]) ↔
      Vector.replicate 8 (⟨0, 0, 0, 0⟩ : Word) = .replicate 8 ⟨1, 0, 0, 0⟩ :=
  keyExpansionOf_window_iff .aes256 _ _ 52 (by decide)

section Inverse

variable (roundKey : Vector Word b.keyExpWords)

theorem addRoundKeyOf_addRoundKeyOf {round : ℕ} (h : round ≤ b.nr) (s : State) :
    addRoundKeyOf roundKey round h (addRoundKeyOf roundKey round h s) = s :=
  State.xor_xor_self s _

/-- In the middle of round `n + 1` the loop of `InvCipher` goes back to the middle of the
first round. -/
theorem invRounds_rounds (s : State) (n : ℕ) (h : n ≤ b.nr) :
    invRounds roundKey (shiftRows (subBytes (rounds roundKey s n h))) n h =
      shiftRows (subBytes (addRoundKeyOf roundKey 0 (Nat.zero_le _) s)) := by
  induction n with
  | zero => rfl
  | succ n ih =>
      rw [invRounds, invShiftRows_shiftRows, invSubBytes_subBytes, rounds,
        addRoundKeyOf_addRoundKeyOf, invMixColumns_mixColumns, ih]

/-- `InvCipher` undoes `Cipher` in every build, with the same round keys. -/
theorem invCipherOf_cipherOf (s : State) : invCipherOf roundKey (cipherOf roundKey s) = s := by
  rw [invCipherOf, cipherOf, addRoundKeyOf_addRoundKeyOf, invRounds_rounds,
    invShiftRows_shiftRows, invSubBytes_subBytes, addRoundKeyOf_addRoundKeyOf]

end Inverse

/-! ## AES-128 -/

theorem tempaOf_aes128 {i : ℕ} (hi : i < 44) (last : Word) :
    tempaOf .aes128 i hi last = tempa i hi last := by
  simp only [tempaOf, reduceCtorEq, false_and, if_false]
  rfl

theorem expandOf_aes128 (key : Vector Word 4) (n : ℕ) (h : n ≤ 40) :
    expandOf (b := .aes128) key n (Nat.add_le_add_left h 4) = expand key n h := by
  induction n with
  | zero => rfl
  | succ n ih =>
      have hlast : Build.aes128.nk + n - 1 = n + 3 := by
        show 4 + n - 1 = n + 3
        omega
      simp only [expandOf, expand, tempaOf_aes128, ih (Nat.le_of_succ_le h), hlast]

/-- The build that the extension uses. -/
theorem cipherOf_aes128 (key s : State) :
    keyExpansionOf (b := .aes128) #v[key.c0, key.c1, key.c2, key.c3] = keyExpansion key ∧
    cipherOf (b := .aes128) (keyExpansion key) s = cipher (keyExpansion key) s ∧
    invCipherOf (b := .aes128) (keyExpansion key) s = invCipher (keyExpansion key) s := by
  exact ⟨expandOf_aes128 _ 40 (Nat.le_refl _), rfl, rfl⟩

end PgKmcb.Crypto
