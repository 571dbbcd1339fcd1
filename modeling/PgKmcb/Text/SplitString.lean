import Mathlib.Algebra.Order.BigOperators.Group.List
import PgKmcb.Text.Split

/-!
# The split size (`split_string`)

`split_string` rejects split sizes below zero and above six, so it admits zero.  For
that size the unsigned arithmetic of `split_string_v0` makes one element more than
there are characters, and reserves nothing for what is in them
(`splitStringV0_zero`).
-/

namespace PgKmcb.Text

open PgKmcb.Lib

/-! ## The SQL function -/

/-- `construct_array`, with the number of elements it is given. -/
def constructArray (elems : List Varlena) (nelems : UInt32) : Call (List Varlena) :=
  readRange elems 0 nelems.toNat

/-- `split_string`.  Where `split_string_v0` returns a null pointer it has not stored
the number of elements, which is read here. -/
def splitString (grants : ℕ → Bool) (inTxt : TextImage) (splitSize : ℤ) :
    Call (SqlResult (List Varlena)) := do
  if splitSize < 0 ∨ splitSize > 6 then
    .error (.raised (.ereport .invalidParameterValue
      "function returning fail(invalid parameter,split_size > 0 and split_size <= 6)!"))
  else
    match ← splitStringV0 grants inTxt (UInt32.ofInt splitSize) with
    | none => .error (.undefined .uninitialized)
    | some (arrayCount, ptrValues) => do
        let result ← constructArray ptrValues arrayCount
        return .datum result

/-! ## The size zero -/

variable {cs : List Char} {m : List Byte}

/-- The sizes that are computed for the split size zero. -/
theorem sizes_zero {n : ℕ} (hn : 0 < n) (hn32 : 4 * n + 4 < 2 ^ 32) :
    (arraySize (UInt32.ofInt n) 0).toNat = n + 1 ∧
    (itemCount (UInt32.ofInt n) 0).toNat = 0 ∧
    allTxtMemSize (arraySize (UInt32.ofInt n) 0) 0 = (n + 1) * 4 := by
  have hcount : (UInt32.ofInt n).toNat = n := toNat_ofInt_natCast (by omega)
  have hle : ¬ UInt32.ofInt n ≤ 0 := by
    rw [UInt32.le_iff_toNat_le, hcount]
    exact Nat.not_le.mpr hn
  have hlt : ¬ UInt32.ofInt n < 0 := by
    rw [UInt32.lt_iff_toNat_lt, hcount]
    exact Nat.not_lt.mpr (Nat.zero_le n)
  have hsize : (arraySize (UInt32.ofInt n) 0).toNat = n + 1 := by
    rw [arraySize, if_neg hle, UInt32.toNat_sub, hcount]
    have hone : ((0 : UInt32) - 1).toNat = 2 ^ 32 - 1 := rfl
    rw [hone]
    omega
  refine ⟨hsize, ?_, ?_⟩
  · rw [itemCount, if_neg hlt]
    rfl
  · rw [allTxtMemSize, UInt32.mul_zero, UInt32.zero_mul, UInt32.add_zero, UInt32.toNat_mul,
      hsize]
    exact Nat.mod_eq_of_lt (by simp only [UInt32.reduceToNat]; omega)

/-- The state of the walk for the size zero: one character is copied in each round. -/
structure FilledZero (cs : List Char) (head i : ℕ) (s : SplitState) : Prop where
  ptrInTmp : s.ptrInTmp = Utf8.offset cs i
  ptrValTmp : s.ptrValTmp = head + i * 4 + Utf8.offset cs i

/-- A round copies a character, unless the block is full already. -/
theorem splitStep_zero {i head : ℕ} (block : ℕ) {s : SplitState} (hi : i < cs.length)
    (hs : FilledZero cs head i s) :
    splitStep (Utf8.encode cs ++ m) 0 block i s = .error (.undefined .outOfBounds) ∨
    ∃ s', splitStep (Utf8.encode cs ++ m) 0 block i s = .ok s' ∧
      FilledZero cs head (i + 1) s' := by
  obtain ⟨hin, hval⟩ := hs
  obtain ⟨b, hb, hnext⟩ := readAt_offset (m := m) hi
  rw [← hin] at hb
  rw [splitStep_eq hb (show forLoop _ (0 - 1) _ = .ok (utf8Len b) from rfl)]
  split_ifs
  · refine .inr ⟨_, rfl, ?_, ?_⟩
    · rw [hin, hnext]
    · show s.ptrValTmp + (varhdrsz + utf8Len b) = _
      rw [hval, varhdrsz, ← hnext]
      omega
  · exact .inl rfl

/-- The round behind the last character: there is no room for its header, if not even
its read is outside of the memory. -/
theorem splitStep_zero_last {s : SplitState} (hcs : cs ≠ [])
    (hs : FilledZero cs (pointerSize * (cs.length + 1)) cs.length s) :
    splitStep (Utf8.encode cs ++ m) 0
      (pointerSize * (cs.length + 1) + (cs.length + 1) * 4) cs.length s =
      .error (.undefined .outOfBounds) := by
  have hval := hs.ptrValTmp
  rw [Utf8.offset_length] at hval
  have hpos := List.length_pos_of_ne_nil (Utf8.encode_ne_nil hcs)
  have hfull : pointerSize * (cs.length + 1) + (cs.length + 1) * 4 < s.ptrValTmp + varhdrsz := by
    rw [hval, varhdrsz]
    omega
  cases hread : (readAt (Utf8.encode cs ++ m) s.ptrInTmp : Call Byte) with
  | error e =>
      rw [splitStep, hread, Run.error_bind]
      rw [readAt] at hread
      split at hread
      · cases hread
      · cases hread
        rfl
  | ok b =>
      rw [splitStep_eq hread (show forLoop _ (0 - 1) _ = .ok (utf8Len b) from rfl), if_neg]
      rintro ⟨-, hroom, -⟩
      omega

/-- For the split size zero, a text is always read or its elements are always written
out of bounds. -/
theorem splitStringV0_zero (grants : ℕ → Bool) (hcs : cs ≠ [])
    (h0 : cs.head? ≠ some '\x00') (hlen : (Utf8.encode cs).length ≤ 2 ^ 20)
    (hgrants : grants (pointerSize * (cs.length + 1) + (cs.length + 1) * 4) = true) :
    splitStringV0 grants ⟨Utf8.encode cs, m⟩ 0 = .error (.undefined .outOfBounds) := by
  have hn := Utf8.length_le_length_encode cs
  have hpos := List.length_pos_of_ne_nil hcs
  obtain ⟨b, hb, hb0⟩ := readAt_first (m := m) hcs h0
  obtain ⟨hsize, hitem, hmem⟩ := sizes_zero hpos (by omega)
  have hcount : utf8CharacterCount (some (Utf8.encode cs ++ m))
      (UInt32.ofNat (Utf8.encode cs).length) = .ok cs.length :=
    utf8CharacterCount_encode (by omega) (by omega)
  have hstart : FilledZero cs (pointerSize * (cs.length + 1)) 0
      ⟨0, pointerSize * (cs.length + 1), []⟩ :=
    ⟨(Utf8.offset_zero cs).symm, by rw [Utf8.offset_zero]; rfl⟩
  have hloop := forLoop_spec_or (.undefined .outOfBounds)
    (FilledZero cs (pointerSize * (cs.length + 1))) hstart
    fun i s (hi : i < cs.length) hs ↦ splitStep_zero (m := m)
      (pointerSize * (cs.length + 1) + (cs.length + 1) * 4) hi hs
  simp only [splitStringV0, TextImage.vardata, TextImage.varsizeExhdr, hb, Run.ok_bind,
    if_neg hb0, hcount, hmem, hitem, arrayHeadSize, hsize, allocate]
  rw [Nat.mul_comm (cs.length + 1) pointerSize, if_pos hgrants, Run.ok_bind, forLoop]
  rcases hloop with hfull | ⟨s, hs, hfilled⟩
  · rw [hfull]
    rfl
  · rw [hs, Run.ok_bind, splitStep_zero_last hcs hfilled]
    rfl

/-! ## All admitted sizes -/

/-- The bytes that are written into the block: the table of pointers, then a header and
a copy for each element. -/
def bytesWritten (count : UInt32) (values : List Varlena) : ℕ :=
  arrayHeadSize count + (values.map fun v ↦ varhdrsz + v.data.length).sum

/-- The windows fit into the share of the block that is reserved for them. -/
theorem sum_windows_le (cs : List Char) (k : ℕ) :
    (((windows k cs).map element).map fun v ↦ varhdrsz + v.data.length).sum ≤
      windowCount cs.length k * (4 + 6 * k) := by
  have hsum : ∀ n ∈ ((windows k cs).map element).map fun v ↦ varhdrsz + v.data.length,
      n ≤ 4 + 6 * k := by
    intro n hn
    obtain ⟨v, hv, rfl⟩ := List.mem_map.mp hn
    obtain ⟨ds, hds, rfl⟩ := List.mem_map.mp hv
    obtain ⟨i, -, rfl⟩ := List.mem_map.mp hds
    exact element_size_le (cs.drop i) k
  simpa [windows] using List.sum_le_card_nsmul _ _ hsum

/-- The run on every memory image stays inside of the text and of the block. -/
def InBounds (grants : ℕ → Bool) (cs : List Char) (splitSize : ℤ) : Prop :=
  ∀ m : List Byte, ∃ result,
    splitStringV0 grants ⟨Utf8.encode cs, m⟩ (UInt32.ofInt splitSize) = .ok result ∧
    ∀ count values, result = some (count, values) →
      bytesWritten count values ≤
        arrayHeadSize count + allTxtMemSize count (UInt32.ofInt splitSize)

/-- For the sizes from one to six it does. -/
theorem inBounds_of_pos {grants : ℕ → Bool} (hgrants : ∀ r ≤ 0x3fffffff, grants r = true)
    (hcs : cs ≠ []) (h0 : cs.head? ≠ some '\x00') (hlen : (Utf8.encode cs).length ≤ 2 ^ 20)
    {splitSize : ℤ} (h1 : 1 ≤ splitSize) (h6 : splitSize ≤ 6) :
    InBounds grants cs splitSize := by
  obtain ⟨k, rfl⟩ := Int.eq_ofNat_of_zero_le (show 0 ≤ splitSize by omega)
  have hk1 : 1 ≤ k := by exact_mod_cast h1
  have hk6 : k ≤ 6 := by exact_mod_cast h6
  have hk : (UInt32.ofInt k).toNat = k := toNat_ofInt_natCast (by omega)
  have hn := Utf8.length_le_length_encode cs
  have hpos := List.length_pos_of_ne_nil hcs
  have hcount : windowCount cs.length k ≤ 2 ^ 20 := by
    rw [windowCount]
    omega
  have hshare : windowCount cs.length k * (4 + 6 * k) ≤ 2 ^ 20 * 40 :=
    Nat.mul_le_mul hcount (by omega)
  have hrequest : windowCount cs.length k * pointerSize +
      windowCount cs.length k * (4 + 6 * k) ≤ 0x3fffffff := by
    rw [pointerSize]
    omega
  intro m
  have hrun : splitStringV0 grants ⟨Utf8.encode cs, m⟩ (UInt32.ofInt k) = _ :=
    splitStringV0_eq grants hcs h0 (by rw [hk]; exact hk1) (by rw [hk]; exact hk6)
      (by rw [hk]; omega)
  rw [hk, allocate, if_pos (hgrants _ hrequest), Run.ok_bind] at hrun
  refine ⟨_, hrun, ?_⟩
  rintro count values ⟨⟩
  have hone : 1 ≤ (UInt32.ofInt k).toNat := by rw [hk]; exact hk1
  obtain ⟨hsize, -, hmem⟩ := sizes_spec (n := cs.length) hone (by rw [hk]; omega) (by omega)
  rw [hk] at hsize hmem
  rw [← hsize, UInt32.ofNat_toNat, hmem, bytesWritten]
  exact Nat.add_le_add_left (sum_windows_le cs k) _

/-- Of the split sizes that `split_string` admits, exactly zero leads out of bounds, on
every text of up to `2 ^ 20` bytes that does not begin with the zero character. -/
theorem splitStringV0_inBounds_iff (grants : ℕ → Bool)
    (hgrants : ∀ r ≤ 0x3fffffff, grants r = true) (cs : List Char) (hcs : cs ≠ [])
    (hlen : (Utf8.encode cs).length ≤ 2 ^ 20) (splitSize : ℤ)
    (hsize : ¬ (splitSize < 0 ∨ splitSize > 6)) :
    InBounds grants cs splitSize ↔ splitSize ≠ 0 ∨ cs.head? = some '\x00' := by
  constructor
  · intro h
    by_contra hcon
    rw [not_or, not_not] at hcon
    obtain ⟨rfl, h0⟩ := hcon
    obtain ⟨result, hrun, -⟩ := h []
    have hn := Utf8.length_le_length_encode cs
    have hrequest : pointerSize * (cs.length + 1) + (cs.length + 1) * 4 ≤ 0x3fffffff := by
      rw [pointerSize]
      omega
    have hzero := splitStringV0_zero (m := []) grants hcs h0 hlen (hgrants _ hrequest)
    rw [show UInt32.ofInt 0 = 0 from rfl, hzero] at hrun
    cases hrun
  · intro h
    by_cases h0 : cs.head? = some '\x00'
    · -- the text begins with a zero byte: nothing is split at all
      obtain ⟨cs, rfl⟩ := List.head?_eq_some_iff.mp h0
      intro m
      refine ⟨none, rfl, ?_⟩
      rintro count values ⟨⟩
    · have hne := h.resolve_right h0
      exact inBounds_of_pos hgrants hcs h0 hlen (by omega) (by omega)

/-- The text `aé` in runs of two characters, with the limit of the server's allocator. -/
theorem splitStringV0_inBounds_two :
    InBounds (fun r ↦ decide (r ≤ 0x3fffffff)) ['a', 'é'] 2 ↔
      (2 : ℤ) ≠ 0 ∨ ['a', 'é'].head? = some '\x00' :=
  splitStringV0_inBounds_iff _ (fun _ h ↦ decide_eq_true h) ['a', 'é'] (by decide)
    (by decide) 2 (by decide)

/-- The letter `a` with the split size zero. -/
theorem splitStringV0_out_of_bounds : ¬ ∀ (cs : List Char) (splitSize : ℤ), cs ≠ [] →
    (Utf8.encode cs).length ≤ 2 ^ 20 → ¬ (splitSize < 0 ∨ splitSize > 6) →
    InBounds (fun r ↦ decide (r ≤ 0x3fffffff)) cs splitSize := by
  intro h
  obtain ⟨result, hrun, -⟩ := h ['a'] 0 (by decide) (by decide) (by decide) []
  rw [show UInt32.ofInt 0 = 0 from rfl, splitStringV0_zero _ (by decide) (by decide) (by decide)
    (by decide)] at hrun
  cases hrun

end PgKmcb.Text
