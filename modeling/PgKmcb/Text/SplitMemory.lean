import Mathlib.Algebra.BigOperators.Group.Finset.Basic
import Mathlib.Tactic.IntervalCases
import PgKmcb.Text.SplitString

/-!
# What a split reads and writes (`split_string_v0`)

The loop that fills the block copies one run of characters after the other.  On any byte
string, valid or not, `fillLoop_eq` says where it begins each copy and where it puts it, and
that it goes out of bounds if and only if the last element does not fit into the block or
reaches behind the memory of the text.

The size of the block is computed in 32 bits, the one of its pointer table in 64 bits.  The
sum can wrap around and still be one that the server grants (`splitStringV0_request_iff`).

The end of the last copy is where the announced sizes say that the text ends.  On a byte
string that is no UTF-8 this need not be its end (`splitStringV0_reads`).
-/

namespace PgKmcb.Text

open PgKmcb.Lib

/-! ## The loop -/

/-- The argument of `palloc`. -/
def splitRequest (characterCount splitSize : UInt32) : ℕ :=
  arrayHeadSize (arraySize characterCount splitSize) +
    allTxtMemSize (arraySize characterCount splitSize) splitSize

/-- The loop of `split_string_v0` that fills the block, for so many rounds. -/
def fillLoop (str : List Byte) (characterCount splitSize : UInt32) (block rounds : ℕ) :
    Call SplitState :=
  forLoop (splitStep str (itemCount characterCount splitSize).toNat block) rounds
    { ptrInTmp := 0, ptrValTmp := arrayHeadSize (arraySize characterCount splitSize),
      values := [] }

/-- The whole function, with the request and the loop by name. -/
theorem splitStringV0_eq_fillLoop (grants : ℕ → Bool) (inStr : TextImage) (splitSize : UInt32) :
    splitStringV0 grants inStr splitSize = (do
      let b ← readAt inStr.vardata 0
      if b = 0 then
        return none
      let count ← utf8CharacterCount (some inStr.vardata) (UInt32.ofNat inStr.varsizeExhdr)
      let block ← allocate grants (splitRequest (UInt32.ofInt count) splitSize)
      let s ← fillLoop inStr.vardata (UInt32.ofInt count) splitSize block
        (arraySize (UInt32.ofInt count) splitSize).toNat
      return some (arraySize (UInt32.ofInt count) splitSize, s.values)) := rfl

/-- Where the element with number `i` begins in the block, behind the table. -/
def valOffset (payload : List Byte) (w head i : ℕ) : ℕ :=
  head + ∑ j ∈ Finset.range i, (varhdrsz + (walk payload (j + w) - walk payload j))

/-- The state of the loop before the element with number `i`. -/
structure Walked (payload : List Byte) (w head i : ℕ) (s : SplitState) : Prop where
  ptrInTmp : s.ptrInTmp = walk payload i
  ptrValTmp : s.ptrValTmp = valOffset payload w head i

variable {payload : List Byte} {m : List Byte}

theorem valOffset_succ (payload : List Byte) (w head i : ℕ) : valOffset payload w head (i + 1) =
    valOffset payload w head i + (varhdrsz + (walk payload (i + w) - walk payload i)) := by
  rw [valOffset, valOffset, Finset.sum_range_succ, Nat.add_assoc]

/-- One round, on any bytes: only the copy can leave the memory of the text. -/
theorem splitStep_walk {i w head : ℕ} (block : ℕ) {s : SplitState} (hw : 0 < w)
    (hlast : walk payload (i + (w - 1)) < payload.length) (hs : Walked payload w head i s) :
    ∃ s', Walked payload w head (i + 1) s' ∧ splitStep (payload ++ m) w block i s =
      if pointerSize * (i + 1) ≤ block ∧ valOffset payload w head (i + 1) ≤ block ∧
        walk payload (i + w) ≤ (payload ++ m).length
      then .ok s' else .error (.undefined .outOfBounds) := by
  obtain ⟨hin, hval⟩ := hs
  have hfirst : walk payload i ≤ walk payload (i + (w - 1)) :=
    Walk.pos_mono _ _ (Nat.le_add_right _ _)
  have hmono : walk payload i ≤ walk payload (i + w) := Walk.pos_mono _ _ (Nat.le_add_right _ _)
  obtain ⟨b, hb, hnext⟩ := readAt_walk (m := m) (hfirst.trans_lt hlast)
  have hsize := windowSize_walk (m := m) hw hlast hnext
  rw [← hin] at hb hsize
  rw [splitStep_eq hb hsize, hin, hval, ← valOffset_succ, Nat.add_sub_cancel' hmono, hnext]
  exact ⟨_, ⟨rfl, rfl⟩, rfl⟩

/-- The rounds, on any bytes: the last one decides. -/
theorem forLoop_splitStep {n w head r : ℕ} (hn : Walk.Steps utf8Len payload n) (hw : 0 < w)
    (hr : r + w ≤ n + 1) (hhead : pointerSize * r ≤ head) (block : ℕ) :
    ∃ s, Walked payload w head r s ∧
      forLoop (splitStep (payload ++ m) w block) r ⟨0, head, []⟩ =
        if r = 0 ∨ valOffset payload w head r ≤ block ∧
          walk payload (r - 1 + w) ≤ (payload ++ m).length
        then .ok s else .error (.undefined .outOfBounds) := by
  induction r with
  | zero => exact ⟨_, ⟨rfl, rfl⟩, (if_pos (Or.inl rfl)).symm⟩
  | succ r ih =>
      obtain ⟨s, hs, hrun⟩ := ih (by omega) ((Nat.mul_le_mul_left _ (Nat.le_succ r)).trans hhead)
      obtain ⟨s', hs', hstep⟩ :=
        splitStep_walk (m := m) block hw (hn.lt (r + (w - 1)) (by omega)) hs
      refine ⟨s', hs', ?_⟩
      have hslot : pointerSize * (r + 1) ≤ valOffset payload w head (r + 1) :=
        hhead.trans (Nat.le_add_right _ _)
      have hval : valOffset payload w head r ≤ valOffset payload w head (r + 1) := by
        rw [valOffset_succ]
        exact Nat.le_add_right _ _
      have hwalk : walk payload (r - 1 + w) ≤ walk payload (r + w) :=
        Walk.pos_mono _ _ (Nat.add_le_add_right (Nat.sub_le r 1) w)
      rw [forLoop, hrun, Nat.add_sub_cancel]
      by_cases hfits : valOffset payload w head (r + 1) ≤ block ∧
          walk payload (r + w) ≤ (payload ++ m).length
      · have hbefore : r = 0 ∨ valOffset payload w head r ≤ block ∧
            walk payload (r - 1 + w) ≤ (payload ++ m).length :=
          .inr ⟨hval.trans hfits.1, hwalk.trans hfits.2⟩
        rw [if_pos hbefore, Run.ok_bind, hstep, if_pos ⟨hslot.trans hfits.1, hfits⟩,
          if_pos (Or.inr hfits)]
      · have hnow : ¬ (r + 1 = 0 ∨ valOffset payload w head (r + 1) ≤ block ∧
            walk payload (r + w) ≤ (payload ++ m).length) :=
          fun h ↦ hfits (h.resolve_left (Nat.succ_ne_zero r))
        rw [if_neg hnow]
        split_ifs
        · rw [Run.ok_bind, hstep, if_neg fun h ↦ hfits h.2]
        · rfl

/-- The last run ends with the last character. -/
theorem windowCount_add_min (n k : ℕ) : windowCount n k + min n k = n + 1 := by
  rw [windowCount]
  omega

theorem windowCount_pos (n k : ℕ) : 0 < windowCount n k :=
  Nat.lt_of_lt_of_le Nat.zero_lt_one (le_max_left _ _)

/-- The loop in the sizes that the function computes. -/
theorem fillLoop_eq {n r : ℕ} {splitSize : UInt32} (hn : Walk.Steps utf8Len payload n)
    (hpos : 0 < n) (hn32 : n < 2 ^ 32) (hk : 0 < splitSize.toNat)
    (hr : r ≤ windowCount n splitSize.toNat) (block : ℕ) :
    ∃ s, Walked payload (min n splitSize.toNat)
        (windowCount n splitSize.toNat * pointerSize) r s ∧
      fillLoop (payload ++ m) (UInt32.ofInt n) splitSize block r =
        if r = 0 ∨ valOffset payload (min n splitSize.toNat)
            (windowCount n splitSize.toNat * pointerSize) r ≤ block ∧
          walk payload (r - 1 + min n splitSize.toNat) ≤ (payload ++ m).length
        then .ok s else .error (.undefined .outOfBounds) := by
  have hlast := windowCount_add_min n splitSize.toNat
  have hhead : pointerSize * r ≤ windowCount n splitSize.toNat * pointerSize := by
    rw [Nat.mul_comm]
    exact Nat.mul_le_mul_right _ hr
  rw [fillLoop, itemCount_toNat hn32, arrayHeadSize, arraySize_toNat hk hn32]
  exact forLoop_splitStep hn (lt_min hpos hk) (by omega) hhead block

/-! ## What is written -/

/-- An element has a header, and a byte at least and `UTF8_MAX_SIZE` bytes at most for each of
its characters. -/
theorem valOffset_bounds {n w i : ℕ} (head : ℕ) (hn : Walk.Steps utf8Len payload n)
    (hi : i + w ≤ n + 1) : head + i * (4 + w) ≤ valOffset payload w head i ∧
      valOffset payload w head i ≤ head + i * (4 + 6 * w) := by
  induction i with
  | zero =>
      rw [Nat.zero_mul, Nat.zero_mul]
      exact ⟨le_rfl, le_rfl⟩
  | succ i ih =>
      obtain ⟨hlo, hhi⟩ := ih (by omega)
      have hmin : walk payload i + w ≤ walk payload (i + w) :=
        hn.add_le_pos utf8Len_pos (by omega)
      have hmax : walk payload (i + w) ≤ walk payload i + 6 * w :=
        Walk.pos_add_le utf8Len_le payload i w
      rw [valOffset_succ, Nat.succ_mul, Nat.succ_mul, varhdrsz]
      omega

/-- The loop writes so many bytes: it fills every block of that size or larger, and it leaves
every smaller one. -/
def FillWrites (cs : List Char) (splitSize : UInt32) (size : ℕ) : Prop :=
  ∀ m block, (size ≤ block → ∃ s, fillLoop (Utf8.encode cs ++ m) (UInt32.ofInt cs.length)
      splitSize block (arraySize (UInt32.ofInt cs.length) splitSize).toNat = .ok s ∧
      s.ptrValTmp = size) ∧
    (block < size → fillLoop (Utf8.encode cs ++ m) (UInt32.ofInt cs.length) splitSize block
      (arraySize (UInt32.ofInt cs.length) splitSize).toNat = .error (.undefined .outOfBounds))

variable {cs : List Char} {splitSize : UInt32}

theorem fillWrites_valOffset (hcs : cs ≠ []) (hn32 : cs.length < 2 ^ 32)
    (hk : 0 < splitSize.toNat) : FillWrites cs splitSize
      (valOffset (Utf8.encode cs) (min cs.length splitSize.toNat)
        (windowCount cs.length splitSize.toNat * pointerSize)
        (windowCount cs.length splitSize.toNat)) := by
  intro m block
  have hpos := List.length_pos_of_ne_nil hcs
  have hrounds := (windowCount_pos cs.length splitSize.toNat).ne'
  -- every copy ends where a character ends
  have hread : ∀ j, walk (Utf8.encode cs) j ≤ (Utf8.encode cs ++ m).length := by
    intro j
    rw [walk_encode, List.length_append]
    exact Nat.le_add_right_of_le (Utf8.offset_le cs j)
  obtain ⟨s, hs, hrun⟩ := fillLoop_eq (m := m) (steps_encode cs) hpos hn32 hk le_rfl block
  rw [arraySize_toNat hk hn32, hrun]
  constructor
  · intro hblock
    exact ⟨s, if_pos (.inr ⟨hblock, hread _⟩), hs.ptrValTmp⟩
  · intro hblock
    refine if_neg ?_
    rintro (h | ⟨h, -⟩)
    · exact hrounds h
    · exact absurd h (Nat.not_le.mpr hblock)

/-- What is written is unique. -/
theorem FillWrites.unique {size size' : ℕ} (h : FillWrites cs splitSize size)
    (h' : FillWrites cs splitSize size') : size = size' := by
  have hle : ∀ {a b : ℕ}, FillWrites cs splitSize a → FillWrites cs splitSize b → a ≤ b := by
    intro a b ha hb
    by_contra hlt
    obtain ⟨s, hs, -⟩ := (hb [] b).1 le_rfl
    rw [(ha [] b).2 (Nat.lt_of_not_le hlt)] at hs
    cases hs
  exact le_antisymm (hle h h') (hle h' h)

theorem splitRequest_eq {n : ℕ} (hn32 : n < 2 ^ 32) (hk : 0 < splitSize.toNat) :
    splitRequest (UInt32.ofInt n) splitSize = windowCount n splitSize.toNat * pointerSize +
      windowCount n splitSize.toNat * (4 + 6 * splitSize.toNat) % 2 ^ 32 := by
  rw [splitRequest, arrayHeadSize, allTxtMemSize_eq, arraySize_toNat hk hn32]

/-- A request that has wrapped around and is granted is too small: what is cut off is more
than the reserve of five bytes for each character. -/
theorem le_request_iff {n k size : ℕ} (h1 : 1 ≤ k) (h6 : k ≤ 6)
    (hlo : windowCount n k * pointerSize + windowCount n k * (4 + min n k) ≤ size)
    (hhi : size ≤ windowCount n k * pointerSize + windowCount n k * (4 + 6 * min n k))
    (hrequest : windowCount n k * pointerSize + windowCount n k * (4 + 6 * k) % 2 ^ 32 ≤
      0x3fffffff) :
    size ≤ windowCount n k * pointerSize + windowCount n k * (4 + 6 * k) % 2 ^ 32 ↔
      windowCount n k * (4 + 6 * k) < 2 ^ 32 := by
  constructor
  · intro h
    by_contra hwrap
    have hmany : min n k = k := by
      refine min_eq_right (Nat.le_of_not_lt fun hlt ↦ hwrap ?_)
      have hone : windowCount n k = 1 := max_eq_left (by omega)
      rw [hone]
      omega
    rw [hmany] at hlo
    rw [pointerSize] at *
    generalize windowCount n k = count at *
    interval_cases k <;> omega
  · intro hwrap
    have hmin : windowCount n k * (4 + 6 * min n k) ≤ windowCount n k * (4 + 6 * k) :=
      Nat.mul_le_mul_left _ (Nat.add_le_add_left (Nat.mul_le_mul_left _ (min_le_right n k)) 4)
    rw [Nat.mod_eq_of_lt hwrap]
    exact hhi.trans (Nat.add_le_add_left hmin _)

/-- A request that the server can grant is as large as what is written if and only if the
32-bit part of it has not wrapped around. -/
theorem splitStringV0_request_iff (cs : List Char) (splitSize : UInt32) (hcs : cs ≠ [])
    (hlen : (Utf8.encode cs).length < 2 ^ 30) (h1 : 1 ≤ splitSize.toNat)
    (h6 : splitSize.toNat ≤ 6)
    (hrequest : splitRequest (UInt32.ofInt cs.length) splitSize ≤ 0x3fffffff) :
    ∃ size, FillWrites cs splitSize size ∧
      (size ≤ splitRequest (UInt32.ofInt cs.length) splitSize ↔
        windowCount cs.length splitSize.toNat * (4 + 6 * splitSize.toNat) < 2 ^ 32) := by
  have hn := Utf8.length_le_length_encode cs
  have hn32 : cs.length < 2 ^ 32 := by omega
  have hlast := windowCount_add_min cs.length splitSize.toNat
  obtain ⟨hlo, hhi⟩ := valOffset_bounds (windowCount cs.length splitSize.toNat * pointerSize)
    (steps_encode cs) hlast.le
  refine ⟨_, fillWrites_valOffset hcs hn32 h1, ?_⟩
  rw [splitRequest_eq hn32 h1] at hrequest ⊢
  exact le_request_iff h1 h6 hlo hhi hrequest

/-- The text `aé漢` in runs of two characters. -/
theorem splitStringV0_request_two : ∃ size, FillWrites ['a', 'é', '漢'] 2 size ∧
    (size ≤ splitRequest (UInt32.ofInt ['a', 'é', '漢'].length) 2 ↔
      windowCount ['a', 'é', '漢'].length 2 * (4 + 6 * 2) < 2 ^ 32) :=
  splitStringV0_request_iff ['a', 'é', '漢'] 2 (by decide) (by decide) (by decide) (by decide)
    (by decide)

/-- A hundred megabytes in runs of six characters: the sum is 24 behind `2 ^ 32`. -/
theorem splitStringV0_request_wraps : ¬ ∀ (cs : List Char) (splitSize : UInt32), cs ≠ [] →
    (Utf8.encode cs).length < 2 ^ 30 → 1 ≤ splitSize.toNat → splitSize.toNat ≤ 6 →
    splitRequest (UInt32.ofInt cs.length) splitSize ≤ 0x3fffffff →
    ∃ size, FillWrites cs splitSize size ∧
      size ≤ splitRequest (UInt32.ofInt cs.length) splitSize := by
  intro h
  obtain ⟨cs, hcs⟩ : ∃ cs : List Char, cs.length = 107374188 :=
    ⟨List.replicate 107374188 'a', List.length_replicate⟩
  have hne : cs ≠ [] := by
    rintro rfl
    cases hcs
  have hsix : (6 : UInt32).toNat = 6 := rfl
  have hbytes := Utf8.length_encode_le cs
  have hn32 : cs.length < 2 ^ 32 := by omega
  have hcount : windowCount cs.length 6 = 107374183 := by
    rw [hcs]
    rfl
  have hlast := windowCount_add_min cs.length 6
  have hmin : min cs.length 6 = 6 := by omega
  obtain ⟨hlo, -⟩ := valOffset_bounds (windowCount cs.length 6 * pointerSize)
    (steps_encode cs) hlast.le
  have hwrites := fillWrites_valOffset hne hn32 (show 0 < (6 : UInt32).toNat by decide)
  have hrequest := splitRequest_eq hn32 (show 0 < (6 : UInt32).toNat by decide)
  rw [hsix] at hwrites hrequest
  rw [hcount, pointerSize] at hrequest
  obtain ⟨size, hsize, hle⟩ := h cs 6 hne (by omega) (by decide) (by decide) (by omega)
  rw [hsize.unique hwrites, hrequest] at hle
  rw [hcount, hmin, pointerSize] at hlo hle
  omega

/-! ## What is read -/

/-- The request for the characters that are counted is granted, and the 32-bit part of it has
not wrapped around. -/
def Granted (grants : ℕ → Bool) (payload : List Byte) (splitSize : UInt32) : Prop :=
  ∀ count, utf8CharacterCount (some payload) (UInt32.ofNat payload.length) = .ok count →
    grants (splitRequest (UInt32.ofInt count) splitSize) = true ∧
    (arraySize (UInt32.ofInt count) splitSize).toNat * (4 + 6 * splitSize.toNat) < 2 ^ 32

/-- With nothing behind the text its elements are returned: every byte that is read or copied
is one of the text. -/
def ReadsInside (grants : ℕ → Bool) (payload : List Byte) (splitSize : UInt32) : Prop :=
  ∃ elements, splitStringV0 grants ⟨payload, []⟩ splitSize = .ok (some elements)

/-- The number of characters of any byte string, which the count finds without a look
behind it. -/
theorem exists_count (hne : payload ≠ []) (hlen : payload.length < 2 ^ 30) : ∃ n,
    Walk.Steps utf8Len payload n ∧ 0 < n ∧ n < 2 ^ 30 ∧
    walk payload n < payload.length + 6 ∧
    ∀ m, utf8CharacterCount (some (payload ++ m)) (UInt32.ofNat payload.length) = .ok n := by
  obtain ⟨n, hn⟩ := Walk.exists_steps utf8Len_pos payload
  have hle := hn.le_length utf8Len_pos
  have hend : walk payload n < payload.length + 6 := hn.pos_lt_add hne utf8Len_le
  exact ⟨n, hn, hn.pos_of_ne_nil hne, by omega, hend,
    fun m ↦ utf8CharacterCount_walk hn (by omega) (by omega)⟩

/-- The characters of a text end where it ends. -/
theorem meetsEnd_of_valid (h : Utf8.Valid payload) : Walk.MeetsEnd utf8Len payload := by
  obtain ⟨cs, rfl⟩ := h
  rw [(steps_encode cs).meetsEnd_iff utf8Len_pos, ← walk, walk_encode, Utf8.offset_length]

section Request

/-! A request for so many characters that has not wrapped around. -/

variable {n : ℕ} (hn : Walk.Steps utf8Len payload n) (hn32 : n < 2 ^ 32)
  (hk : 0 < splitSize.toNat)
  (hwrap : windowCount n splitSize.toNat * (4 + 6 * splitSize.toNat) < 2 ^ 32)
include hn hn32 hk hwrap

/-- It is as large as what is written in so many rounds. -/
theorem valOffset_le_request {r : ℕ} (hr : r ≤ windowCount n splitSize.toNat) :
    valOffset payload (min n splitSize.toNat) (windowCount n splitSize.toNat * pointerSize) r ≤
      splitRequest (UInt32.ofInt n) splitSize := by
  have hlast := windowCount_add_min n splitSize.toNat
  have hbound := (valOffset_bounds (windowCount n splitSize.toNat * pointerSize) hn
    (show r + min n splitSize.toNat ≤ n + 1 by omega)).2
  have hshare : r * (4 + 6 * min n splitSize.toNat) ≤
      windowCount n splitSize.toNat * (4 + 6 * splitSize.toNat) := by
    have hmin := min_le_right n splitSize.toNat
    gcongr
  rw [splitRequest_eq hn32 hk, Nat.mod_eq_of_lt hwrap]
  exact hbound.trans (Nat.add_le_add_left hshare _)

/-- The elements are returned if and only if the last copy ends inside of the memory. -/
theorem splitStringV0_returns_iff {grants : ℕ → Bool} (hpos : 0 < n)
    (h0 : payload.head? ≠ some 0)
    (hcount : utf8CharacterCount (some (payload ++ m)) (UInt32.ofNat payload.length) = .ok n)
    (hgrants : grants (splitRequest (UInt32.ofInt n) splitSize) = true) :
    (∃ elements, splitStringV0 grants ⟨payload, m⟩ splitSize = .ok (some elements)) ↔
      walk payload n ≤ payload.length + m.length := by
  have hlast := windowCount_add_min n splitSize.toNat
  have hrounds := windowCount_pos n splitSize.toNat
  have hend : windowCount n splitSize.toNat - 1 + min n splitSize.toNat = n := by omega
  have hroom := valOffset_le_request hn hn32 hk hwrap le_rfl
  obtain ⟨b, hb, hb0⟩ : ∃ b, (readAt (payload ++ m) 0 : Call Byte) = .ok b ∧ b ≠ 0 := by
    cases payload with
    | nil => exact absurd (hn.lt 0 hpos) (Nat.not_lt_zero _)
    | cons b rest => exact ⟨b, rfl, fun h ↦ h0 (congrArg some h)⟩
  obtain ⟨s, -, hfill⟩ := fillLoop_eq (m := m) hn hpos hn32 hk le_rfl
    (splitRequest (UInt32.ofInt n) splitSize)
  rw [hend, List.length_append] at hfill
  simp only [splitStringV0_eq_fillLoop, TextImage.vardata, TextImage.varsizeExhdr, hb,
    Run.ok_bind, if_neg hb0, hcount, allocate, if_pos hgrants, arraySize_toNat hk hn32, hfill]
  split_ifs with hfits
  · exact iff_of_true ⟨_, rfl⟩ (hfits.resolve_left hrounds.ne').2
  · refine iff_of_false ?_ fun hread ↦ hfits (.inr ⟨hroom, hread⟩)
    rintro ⟨elements, h⟩
    cases h

/-- The copies before the last one stay in the text, and so do the sizes that make up the
last one. -/
theorem fillLoop_before_last (hpos : 0 < n) :
    ∃ s b size, fillLoop payload (UInt32.ofInt n) splitSize
        (splitRequest (UInt32.ofInt n) splitSize)
        ((arraySize (UInt32.ofInt n) splitSize).toNat - 1) = .ok s ∧
      (readAt payload s.ptrInTmp : Call Byte) = .ok b ∧
      forLoop (windowStep payload s.ptrInTmp)
        ((itemCount (UInt32.ofInt n) splitSize).toNat - 1) (utf8Len b) = .ok size := by
  have hlast := windowCount_add_min n splitSize.toNat
  have hitems : 0 < min n splitSize.toNat := lt_min hpos hk
  have hrounds := windowCount_pos n splitSize.toNat
  have hroom := valOffset_le_request hn hn32 hk hwrap (Nat.sub_le _ 1)
  obtain ⟨s, hs, hrun⟩ := fillLoop_eq (m := []) hn hpos hn32 hk (Nat.sub_le _ 1)
    (splitRequest (UInt32.ofInt n) splitSize)
  obtain ⟨b, hb, hnext⟩ :=
    readAt_walk (m := []) (hn.lt (windowCount n splitSize.toNat - 1) (by omega))
  have hsize := windowSize_walk (m := []) hitems
    (hn.lt (windowCount n splitSize.toNat - 1 + (min n splitSize.toNat - 1)) (by omega)) hnext
  rw [List.append_nil] at hrun hb hsize
  rw [arraySize_toNat hk hn32, itemCount_toNat hn32, hrun]
  refine ⟨s, b, _, if_pos ?_, hs.ptrInTmp ▸ hb, hs.ptrInTmp ▸ hsize⟩
  rcases Nat.eq_zero_or_pos (windowCount n splitSize.toNat - 1) with hzero | hmany
  · exact .inl hzero
  · exact .inr ⟨hroom, (hn.lt _ (by omega)).le⟩

end Request

/-- Any bytes are counted without a look behind them.  If the request is granted and has not
wrapped around, the elements are returned as soon as there are five bytes behind the text.  All
elements but the last one are copied from the text, and the sizes that make up the last one
are found in it; its copy ends inside of the text if and only if the announced sizes add up to
the number of the bytes.  In a valid text they do. -/
theorem splitStringV0_reads (grants : ℕ → Bool) (payload : List Byte) (splitSize : UInt32)
    (hne : payload ≠ []) (h0 : payload.head? ≠ some 0) (hlen : payload.length < 2 ^ 30)
    (h1 : 1 ≤ splitSize.toNat) (hgranted : Granted grants payload splitSize) :
    ∃ count, utf8CharacterCount (some payload) (UInt32.ofNat payload.length) = .ok count ∧
      (∀ m, 5 ≤ m.length →
        ∃ elements, splitStringV0 grants ⟨payload, m⟩ splitSize = .ok (some elements)) ∧
      (∃ s b size, fillLoop payload (UInt32.ofInt count) splitSize
          (splitRequest (UInt32.ofInt count) splitSize)
          ((arraySize (UInt32.ofInt count) splitSize).toNat - 1) = .ok s ∧
        (readAt payload s.ptrInTmp : Call Byte) = .ok b ∧
        forLoop (windowStep payload s.ptrInTmp)
          ((itemCount (UInt32.ofInt count) splitSize).toNat - 1) (utf8Len b) = .ok size) ∧
      (ReadsInside grants payload splitSize ↔ Walk.MeetsEnd utf8Len payload) ∧
      (Utf8.Valid payload → ReadsInside grants payload splitSize) := by
  obtain ⟨n, hn, hpos, hn30, hend, hcount⟩ := exists_count hne hlen
  have hn32 : n < 2 ^ 32 := by omega
  have hcount' := hcount []
  rw [List.append_nil] at hcount'
  obtain ⟨hgrants, hwrap⟩ := hgranted n hcount'
  rw [arraySize_toNat h1 hn32] at hwrap
  have hreturns : ∀ m, (∃ elements, splitStringV0 grants ⟨payload, m⟩ splitSize =
      .ok (some elements)) ↔ walk payload n ≤ payload.length + m.length :=
    fun m ↦ splitStringV0_returns_iff hn hn32 h1 hwrap hpos h0 (hcount m) hgrants
  have hiff : ReadsInside grants payload splitSize ↔ Walk.MeetsEnd utf8Len payload := by
    rw [hn.meetsEnd_iff utf8Len_pos, ← hn.le.ge_iff_eq', ← walk]
    exact hreturns []
  refine ⟨n, hcount', fun m hm ↦ (hreturns m).mpr (by omega),
    fillLoop_before_last hn hn32 h1 hwrap hpos, hiff, fun hvalid ↦ ?_⟩
  exact hiff.mpr (meetsEnd_of_valid hvalid)

/-- The byte `F0` and three more that are no continuation bytes. -/
theorem splitStringV0_reads_four : ∃ count,
    utf8CharacterCount (some [0xF0, 97, 97, 97]) (UInt32.ofNat 4) = .ok count ∧
      (∀ m, 5 ≤ m.length → ∃ elements,
        splitStringV0 (fun _ ↦ true) ⟨[0xF0, 97, 97, 97], m⟩ 1 = .ok (some elements)) ∧
      (∃ s b size, fillLoop [0xF0, 97, 97, 97] (UInt32.ofInt count) 1
          (splitRequest (UInt32.ofInt count) 1)
          ((arraySize (UInt32.ofInt count) 1).toNat - 1) = .ok s ∧
        (readAt [0xF0, 97, 97, 97] s.ptrInTmp : Call Byte) = .ok b ∧
        forLoop (windowStep [0xF0, 97, 97, 97] s.ptrInTmp)
          ((itemCount (UInt32.ofInt count) 1).toNat - 1) (utf8Len b) = .ok size) ∧
      (ReadsInside (fun _ ↦ true) [0xF0, 97, 97, 97] 1 ↔
        Walk.MeetsEnd utf8Len [0xF0, 97, 97, 97]) ∧
      (Utf8.Valid [0xF0, 97, 97, 97] → ReadsInside (fun _ ↦ true) [0xF0, 97, 97, 97] 1) := by
  refine splitStringV0_reads (fun _ ↦ true) [0xF0, 97, 97, 97] 1 (by decide) (by decide)
    (by decide) (by decide) ?_
  rintro count ⟨⟩
  exact ⟨rfl, by decide⟩

/-- The byte `F0` alone: four bytes are copied. -/
theorem splitStringV0_reads_behind : ¬ ∀ (grants : ℕ → Bool) (payload : List Byte)
    (splitSize : UInt32), payload ≠ [] → 0 ∉ payload → 1 ≤ splitSize.toNat →
    splitSize.toNat ≤ 6 → Granted grants payload splitSize →
    ReadsInside grants payload splitSize := by
  intro h
  have hgranted : Granted (fun _ ↦ true) [0xF0] 1 := by
    rintro count ⟨⟩
    exact ⟨rfl, by decide⟩
  obtain ⟨elements, hrun⟩ :=
    h (fun _ ↦ true) [0xF0] 1 (by decide) (by decide) (by decide) (by decide) hgranted
  cases hrun

end PgKmcb.Text
