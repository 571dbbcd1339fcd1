import PgKmcb.Text.Std
import PgKmcb.Lib.MachineInt
import PgKmcb.Lib.Walk

/-!
# Splitting a text (`utf8_character_count`, `split_string_v0`)

The characters of a text are counted once, and the count decides how many elements
there are and how large the block is that holds them; a second walk over the text
then fills the block.  Both walks find the next character through the table of
`se_std.c`.

`windows` says what splitting is for.  `windowSize_spec` is about the inner loop of
the walk, `Filled` is the invariant of the outer one: the element that is built next
begins at `Utf8.offset`, and the elements so far are the first windows.
-/

namespace PgKmcb.Text

open PgKmcb.Lib

/-! ## The character count -/

/-- The state of the count. -/
structure CountState where
  i : UInt32
  count : ℤ

/-- One round of the count; the index is unsigned and wraps around, the count is not. -/
def countStep (str : List Byte) (s : CountState) : Call CountState := do
  let b ← readAt str s.i.toNat
  let count ← checked 32 (s.count + 1)
  return { i := s.i + UInt32.ofNat (utf8Len b), count := count }

/-- `utf8_character_count`; `none` is the null pointer.  The fuel is the number of
values the index has. -/
def utf8CharacterCount (str : Option (List Byte)) (strMemLen : UInt32) : Call ℤ :=
  match str with
  | none => return 0
  | some str => do
      let s ← whileLoop (fun s ↦ decide (s.i < strMemLen)) (countStep str) (2 ^ 32)
        { i := 0, count := 0 }
      return s.count

/-! ## The split -/

/-- The state of the walk that fills the block: where `ptr_in_tmp` stands in the text
and `ptr_val_tmp` in the block, and the elements built so far. -/
structure SplitState where
  ptrInTmp : ℕ
  ptrValTmp : ℕ
  values : List Varlena

/-- One round of the inner loop, which adds the size of the next character. -/
def windowStep (str : List Byte) (ptrInTmp : ℕ) (_j : ℕ) (utf8MemSize : ℕ) : Call ℕ := do
  let b ← readAt str (ptrInTmp + utf8MemSize)
  return utf8MemSize + utf8Len b

/-- One round of the outer loop.  The stores are those of the pointer, of the header
and of the bytes of an element, into a block of the given size. -/
def splitStep (str : List Byte) (itemCount block : ℕ) (i : ℕ) (s : SplitState) :
    Call SplitState := do
  let b ← readAt str s.ptrInTmp
  let first := utf8Len b
  let utf8MemSize ← forLoop (windowStep str s.ptrInTmp) (itemCount - 1) first
  inObject block (pointerSize * i) pointerSize
  inObject block s.ptrValTmp varhdrsz
  let data ← readRange str s.ptrInTmp utf8MemSize
  inObject block (s.ptrValTmp + varhdrsz) utf8MemSize
  return {
    ptrInTmp := s.ptrInTmp + first
    ptrValTmp := s.ptrValTmp + (varhdrsz + utf8MemSize)
    values := s.values ++ [{ size := utf8MemSize + varhdrsz, data := data }] }

/-- `array_size`. -/
def arraySize (characterCount splitSize : UInt32) : UInt32 :=
  if characterCount ≤ splitSize then 1 else characterCount - (splitSize - 1)

/-- `item_count`. -/
def itemCount (characterCount splitSize : UInt32) : UInt32 :=
  if characterCount < splitSize then characterCount else splitSize

/-- `array_head_size`, the size of the pointer table; `sizeof` makes it 64 bits wide. -/
def arrayHeadSize (arraySize : UInt32) : ℕ := arraySize.toNat * pointerSize

/-- `all_txt_mem_size`; its operands are of 32 bits, so it wraps around. -/
def allTxtMemSize (arraySize splitSize : UInt32) : ℕ :=
  (arraySize * 4 + (arraySize * splitSize) * 6).toNat

/-- `split_string_v0`.  The result is a null pointer, or the value stored through
`split_array_size` and the elements that the pointer table leads to.  The argument
has been detoasted by the caller. -/
def splitStringV0 (grants : ℕ → Bool) (inStr : TextImage) (splitSize : UInt32) :
    Call (Option (UInt32 × List Varlena)) := do
  let inStrMemSize := UInt32.ofNat inStr.varsizeExhdr
  let ptrInTmp := inStr.vardata
  let b ← readAt ptrInTmp 0
  if b = 0 then
    return none
  let count ← utf8CharacterCount (some ptrInTmp) inStrMemSize
  let characterCount := UInt32.ofInt count
  let size := arraySize characterCount splitSize
  let block ← allocate grants (arrayHeadSize size + allTxtMemSize size splitSize)
  let s ← forLoop (splitStep ptrInTmp (itemCount characterCount splitSize).toNat block)
    size.toNat { ptrInTmp := 0, ptrValTmp := arrayHeadSize size, values := [] }
  return some (size, s.values)

/-! ## What a split is -/

/-- The number of elements a text of `n` characters is split into. -/
def windowCount (n k : ℕ) : ℕ := max 1 (n + 1 - k)

/-- The runs of `k` consecutive characters, and the whole text where it is shorter. -/
def windows (k : ℕ) (cs : List Char) : List (List Char) :=
  (List.range (windowCount cs.length k)).map fun i ↦ (cs.drop i).take k

/-- The element for a run of characters. -/
def element (ds : List Char) : Varlena where
  size := (Utf8.encode ds).length + varhdrsz
  data := Utf8.encode ds

/-! ## Reading at a character -/

variable {payload : List Byte} {cs : List Char} {m : List Byte}

/-- Where the walk over a byte string stands after so many characters. -/
abbrev walk (payload : List Byte) (j : ℕ) : ℕ := Walk.pos utf8Len payload j

/-- Inside of the byte string the walk reads a byte, and the table gives the distance to
the next one. -/
theorem readAt_pos {size : Byte → ℕ} {j : ℕ} (h : Walk.pos size payload j < payload.length) :
    ∃ b, (readAt (payload ++ m) (Walk.pos size payload j) : Call Byte) = .ok b ∧
      Walk.pos size payload j + size b = Walk.pos size payload (j + 1) := by
  have hget := List.getElem?_eq_getElem h
  refine ⟨payload[Walk.pos size payload j], readAt_of_getElem? ?_,
    (Walk.pos_succ_of_getElem? hget).symm⟩
  rw [List.getElem?_append_left h, hget]

theorem readAt_walk {j : ℕ} (h : walk payload j < payload.length) :
    ∃ b, (readAt (payload ++ m) (walk payload j) : Call Byte) = .ok b ∧
      walk payload j + utf8Len b = walk payload (j + 1) :=
  readAt_pos h

/-- The characters of a text are the items of the walk. -/
theorem walk_encode (cs : List Char) (j : ℕ) : walk (Utf8.encode cs) j = Utf8.offset cs j := by
  induction j with
  | zero => exact (Utf8.offset_zero cs).symm
  | succ j ih =>
      rcases Nat.lt_or_ge j cs.length with hj | hj
      · obtain ⟨b, rest, hc, hlen⟩ := exists_lead cs[j]
        have hget : (Utf8.encode cs)[walk (Utf8.encode cs) j]? = some b := by
          have hcut := Utf8.encode_split cs j 1
          rw [List.drop_eq_getElem_cons hj, List.take_succ_cons, List.take_zero, Utf8.encode_cons,
            Utf8.encode_nil, List.append_nil, hc] at hcut
          rw [ih, hcut, List.append_assoc, Utf8.offset, List.getElem?_append_right le_rfl,
            Nat.sub_self]
          rfl
        rw [walk, Walk.pos_succ_of_getElem? hget, hlen, ← walk, ih, Utf8.offset_succ hj]
      · have hend : ∀ i, cs.length ≤ i → Utf8.offset cs i = (Utf8.encode cs).length := by
          intro i hi
          rw [Utf8.offset, List.take_of_length_le hi]
        rw [walk, Walk.pos_succ_of_le (by rw [← walk, ih, hend j hj]), ← walk, ih, hend j hj,
          hend (j + 1) (Nat.le_succ_of_le hj)]

theorem steps_encode (cs : List Char) : Walk.Steps utf8Len (Utf8.encode cs) cs.length where
  lt j hj := by
    rw [← walk, walk_encode]
    exact Utf8.offset_lt hj
  le := by rw [← walk, walk_encode, Utf8.offset_length]

theorem readAt_offset {i : ℕ} (h : i < cs.length) :
    ∃ b, (readAt (Utf8.encode cs ++ m) (Utf8.offset cs i) : Call Byte) = .ok b ∧
      Utf8.offset cs i + utf8Len b = Utf8.offset cs (i + 1) := by
  rw [← walk_encode, ← walk_encode]
  exact readAt_walk ((steps_encode cs).lt i h)

/-- The bytes between two positions are those of the characters between them. -/
theorem readRange_offset (i w : ℕ) :
    (readRange (Utf8.encode cs ++ m) (Utf8.offset cs i)
      (Utf8.encode ((cs.drop i).take w)).length : Call (List Byte)) =
      .ok (Utf8.encode ((cs.drop i).take w)) := by
  rw [Utf8.encode_split cs i w, List.append_assoc]
  exact readRange_of_append rfl rfl

/-! ## Loops over the characters -/

/-- The guard of these loops: the index is a position of the byte string. -/
theorem index_lt_iff {i : UInt32} (hlen : payload.length < 2 ^ 32) :
    decide (i < UInt32.ofNat payload.length) = true ↔ i.toNat < payload.length := by
  rw [decide_eq_true_iff, UInt32.lt_iff_toNat_lt, UInt32.toNat_ofNat', Nat.mod_eq_of_lt hlen]

/-- The rounds of a loop whose index goes from character to character. -/
theorem whileLoop_walk {size : Byte → ℕ} {σ : Type} (index : σ → UInt32) {body : σ → Call σ}
    {n r : ℕ} (hn : Walk.Steps size payload n) (hlen : payload.length < 2 ^ 32) (hr : r ≤ n)
    (I : ℕ → σ → Prop) (hindex : ∀ j s, I j s → (index s).toNat = Walk.pos size payload j)
    (hstep : ∀ j s, j < r → I j s → ∃ s', body s = .ok s' ∧ I (j + 1) s') {s : σ} (h0 : I 0 s)
    (fuel : ℕ) : ∃ s', I r s' ∧
      whileLoop (fun s ↦ decide (index s < UInt32.ofNat payload.length)) body (r + fuel) s =
        whileLoop (fun s ↦ decide (index s < UInt32.ofNat payload.length)) body fuel s' := by
  refine whileLoop_rounds I (fun j s hj hs ↦ ⟨?_, hstep j s hj hs⟩) h0 fuel
  rw [index_lt_iff hlen, hindex j s hs]
  exact hn.lt j (hj.trans_le hr)

/-- The loop that goes on to the end of the byte string. -/
theorem whileLoop_walk_all {size : Byte → ℕ} {σ : Type} (index : σ → UInt32)
    {body : σ → Call σ} {n fuel : ℕ} (hn : Walk.Steps size payload n)
    (hlen : payload.length < 2 ^ 32) (hfuel : n ≤ fuel) (I : ℕ → σ → Prop)
    (hindex : ∀ j s, I j s → (index s).toNat = Walk.pos size payload j)
    (hstep : ∀ j s, j < n → I j s → ∃ s', body s = .ok s' ∧ I (j + 1) s') {s : σ} (h0 : I 0 s) :
    ∃ s', I n s' ∧
      whileLoop (fun s ↦ decide (index s < UInt32.ofNat payload.length)) body fuel s = .ok s' := by
  obtain ⟨rest, rfl⟩ := Nat.exists_eq_add_of_le hfuel
  obtain ⟨s', hs', hrun⟩ := whileLoop_walk index hn hlen le_rfl I hindex hstep h0 rest
  refine ⟨s', hs', hrun.trans (whileLoop_of_not ?_ rest)⟩
  rw [← Bool.not_eq_true, index_lt_iff hlen, hindex n s' hs']
  exact Nat.not_lt.mpr hn.le

/-- The index of the next character. -/
theorem toNat_add_size {size : Byte → ℕ} {i : UInt32} {b : Byte} {j : ℕ}
    (hi : i.toNat = Walk.pos size payload j)
    (hnext : Walk.pos size payload j + size b = Walk.pos size payload (j + 1))
    (hend : Walk.pos size payload (j + 1) < 2 ^ 32) :
    (i + UInt32.ofNat (size b)).toNat = Walk.pos size payload (j + 1) := by
  rw [UInt32.toNat_add, UInt32.toNat_ofNat', hi]
  omega

/-! ## The count -/

/-- The state of the count after the first `j` of `n` items. -/
structure CountedTo (size : Byte → ℕ) (payload : List Byte) (n : ℕ) (s : CountState) (j : ℕ) :
    Prop where
  le : j ≤ n
  i : s.i.toNat = Walk.pos size payload j
  count : s.count = j

/-- One round of a count of items of any kind. -/
def itemStep (size : Byte → ℕ) (str : List Byte) (s : CountState) : Call CountState := do
  let b ← readAt str s.i.toNat
  let count ← checked 32 (s.count + 1)
  return { i := s.i + UInt32.ofNat (size b), count := count }

/-- A round of the count, where its result can hold one more. -/
theorem itemStep_spec {size : Byte → ℕ} {n : ℕ} (hn : Walk.Steps size payload n)
    (hend : Walk.pos size payload n < 2 ^ 32) {s : CountState} {j : ℕ}
    (hs : CountedTo size payload n s j) (hj : j < n) (hj31 : j + 1 < 2 ^ 31) :
    ∃ s', itemStep size (payload ++ m) s = .ok s' ∧ CountedTo size payload n s' (j + 1) := by
  obtain ⟨-, hi, hcount⟩ := hs
  obtain ⟨b, hb, hnext⟩ := readAt_pos (m := m) (hn.lt j hj)
  have hfits : Fits 32 (s.count + 1) := by
    rw [hcount]
    exact fits_of_nonneg (by omega) (by omega)
  have hle : Walk.pos size payload (j + 1) ≤ Walk.pos size payload n := Walk.pos_mono _ _ hj
  refine ⟨⟨s.i + UInt32.ofNat (size b), s.count + 1⟩, ?_, hj, ?_, ?_⟩
  · rw [itemStep, hi, hb, Run.ok_bind, checked_of_fits hfits, Run.ok_bind]
    rfl
  · exact toNat_add_size hi hnext (hle.trans_lt hend)
  · rw [hcount]
    push_cast
    rfl

/-- The round in which it cannot. -/
theorem itemStep_overflow {size : Byte → ℕ} {n : ℕ} (hn : Walk.Steps size payload n)
    {s : CountState} (hs : CountedTo size payload n s (2 ^ 31 - 1)) (hj : 2 ^ 31 - 1 < n) :
    itemStep size (payload ++ m) s = .error (.undefined .overflow) := by
  obtain ⟨-, hi, hcount⟩ := hs
  obtain ⟨b, hb, -⟩ := readAt_pos (m := m) (hn.lt _ hj)
  have hfits : ¬ Fits 32 (s.count + 1) := by
    rw [hcount]
    decide
  rw [itemStep, hi, hb, Run.ok_bind, checked, if_neg hfits, Run.error_bind]

/-- The count of a byte string is the number of steps of the walk, or it overflows. -/
theorem count_items {size : Byte → ℕ} {n : ℕ} (hn : Walk.Steps size payload n)
    (hsize : ∀ b, 0 < size b) (hend : Walk.pos size payload n < 2 ^ 32) :
    (do
      let s ← whileLoop (fun s : CountState ↦ decide (s.i < UInt32.ofNat payload.length))
        (itemStep size (payload ++ m)) (2 ^ 32) { i := 0, count := 0 }
      return s.count) =
      if n < 2 ^ 31 then .ok (n : ℤ) else .error (.undefined .overflow) := by
  have hlen : payload.length < 2 ^ 32 := hn.le.trans_lt hend
  have hle := hn.le_length hsize
  have hstart : CountedTo size payload n { i := 0, count := 0 } 0 := ⟨Nat.zero_le _, rfl, rfl⟩
  split_ifs with hn31
  · obtain ⟨s, hs, hrun⟩ := whileLoop_walk_all CountState.i hn hlen (hle.trans hlen.le)
      (fun j s ↦ CountedTo size payload n s j) (fun _ _ hs ↦ hs.i)
      (fun j s hj hs ↦ itemStep_spec (m := m) hn hend hs hj (by omega)) hstart
    rw [hrun, Run.ok_bind, hs.count]
    rfl
  · -- all rounds but the last one for which the result has room
    obtain ⟨s, hs, hrun⟩ := whileLoop_walk CountState.i hn hlen (r := 2 ^ 31 - 1) (by omega)
      (fun j s ↦ CountedTo size payload n s j) (fun _ _ hs ↦ hs.i)
      (fun j s hj hs ↦ itemStep_spec (m := m) hn hend hs (by omega) (by omega)) hstart
      (2 ^ 31 + 1)
    have hguard : decide (s.i < UInt32.ofNat payload.length) = true := by
      rw [index_lt_iff hlen, hs.i]
      exact hn.lt _ (by omega)
    rw [show 2 ^ 32 = 2 ^ 31 - 1 + (2 ^ 31 + 1) from rfl, hrun, whileLoop, if_pos hguard,
      itemStep_overflow hn hs (by omega), Run.error_bind, Run.error_bind]

theorem utf8CharacterCount_eq {n : ℕ} (hn : Walk.Steps utf8Len payload n)
    (hend : walk payload n < 2 ^ 32) :
    utf8CharacterCount (some (payload ++ m)) (UInt32.ofNat payload.length) =
      if n < 2 ^ 31 then .ok n else .error (.undefined .overflow) :=
  count_items hn utf8Len_pos hend

theorem utf8CharacterCount_walk {n : ℕ} (hn : Walk.Steps utf8Len payload n)
    (hend : walk payload n < 2 ^ 32) (hn31 : n < 2 ^ 31) :
    utf8CharacterCount (some (payload ++ m)) (UInt32.ofNat payload.length) = .ok n :=
  (utf8CharacterCount_eq hn hend).trans (if_pos hn31)

/-- The count of a text is the number of its characters. -/
theorem utf8CharacterCount_encode (hlen : (Utf8.encode cs).length < 2 ^ 32)
    (hn : cs.length < 2 ^ 31) :
    utf8CharacterCount (some (Utf8.encode cs ++ m)) (UInt32.ofNat (Utf8.encode cs).length) =
      .ok cs.length := by
  refine utf8CharacterCount_walk (steps_encode cs) ?_ hn
  rwa [walk_encode, Utf8.offset_length]

/-! ## The elements -/

/-- The inner loop finds the size of a run of characters. -/
theorem windowSize_walk {i w first : ℕ} (hw : 0 < w)
    (h : walk payload (i + (w - 1)) < payload.length)
    (hfirst : walk payload i + first = walk payload (i + 1)) :
    forLoop (windowStep (payload ++ m) (walk payload i)) (w - 1) first =
      .ok (walk payload (i + w) - walk payload i) := by
  have hstep : ∀ j size, j < w - 1 → walk payload i + size = walk payload (i + (j + 1)) →
      ∃ size', windowStep (payload ++ m) (walk payload i) j size = .ok size' ∧
        walk payload i + size' = walk payload (i + (j + 1 + 1)) := by
    intro j size hj hsize
    have hle : walk payload (i + (j + 1)) ≤ walk payload (i + (w - 1)) :=
      Walk.pos_mono _ _ (Nat.add_le_add_left hj i)
    obtain ⟨b, hb, hnext⟩ := readAt_walk (m := m) (hle.trans_lt h)
    refine ⟨size + utf8Len b, ?_, ?_⟩
    · rw [windowStep, hsize, hb, Run.ok_bind]
      rfl
    · rw [← Nat.add_assoc, hsize, hnext]
      rfl
  obtain ⟨size, hrun, hsize⟩ := forLoop_spec
    (fun j size ↦ walk payload i + size = walk payload (i + (j + 1))) hfirst hstep
  rw [Nat.sub_add_cancel hw] at hsize
  rw [hrun, ← hsize, Nat.add_sub_cancel_left]

theorem windowSize_spec {i w first : ℕ} (hw : 0 < w) (h : i + w ≤ cs.length)
    (hfirst : Utf8.offset cs i + first = Utf8.offset cs (i + 1)) :
    forLoop (windowStep (Utf8.encode cs ++ m) (Utf8.offset cs i)) (w - 1) first =
      .ok (Utf8.encode ((cs.drop i).take w)).length := by
  rw [← walk_encode, ← walk_encode] at hfirst
  have hlast := (steps_encode cs).lt (i + (w - 1)) (by omega)
  rw [← walk_encode, windowSize_walk hw hlast hfirst, walk_encode, walk_encode, Utf8.offset_add,
    Nat.add_sub_cancel_left]

/-- A round of the outer loop, by the size that the inner loop finds: the stores and the
copy have to stay inside of the block and of the memory of the text. -/
theorem splitStep_eq {str : List Byte} {itemCount block i size : ℕ} {s : SplitState} {b : Byte}
    (hb : (readAt str s.ptrInTmp : Call Byte) = .ok b)
    (hsize : forLoop (windowStep str s.ptrInTmp) (itemCount - 1) (utf8Len b) = .ok size) :
    splitStep str itemCount block i s =
      if pointerSize * (i + 1) ≤ block ∧ s.ptrValTmp + (varhdrsz + size) ≤ block ∧
        s.ptrInTmp + size ≤ str.length
      then .ok ⟨s.ptrInTmp + utf8Len b, s.ptrValTmp + (varhdrsz + size),
        s.values ++ [⟨size + varhdrsz, (str.drop s.ptrInTmp).take size⟩]⟩
      else .error (.undefined .outOfBounds) := by
  rw [splitStep, hb, Run.ok_bind]
  dsimp only
  rw [hsize, Run.ok_bind, inObject, inObject, readRange, inObject, Nat.mul_succ, ← Nat.add_assoc]
  by_cases hptr : pointerSize * i + pointerSize ≤ block
  · rw [if_pos hptr, Run.ok_bind]
    by_cases hhead : s.ptrValTmp + varhdrsz ≤ block
    · rw [if_pos hhead, Run.ok_bind]
      by_cases hread : s.ptrInTmp + size ≤ str.length
      · rw [if_pos hread, Run.ok_bind]
        by_cases hbody : s.ptrValTmp + varhdrsz + size ≤ block
        · rw [if_pos hbody, Run.ok_bind, if_pos ⟨hptr, hbody, hread⟩]
          rfl
        · rw [if_neg hbody, Run.error_bind, if_neg fun h ↦ hbody h.2.1]
      · rw [if_neg hread, Run.error_bind, if_neg fun h ↦ hread h.2.2]
    · rw [if_neg hhead, Run.error_bind,
        if_neg fun h ↦ hhead ((Nat.le_add_right _ size).trans h.2.1)]
  · rw [if_neg hptr, Run.error_bind, if_neg fun h ↦ hptr h.1]

/-- A run that begins before the last window has all of its characters. -/
theorem window_lt {k i : ℕ} (hcs : cs ≠ []) (hk : 0 < k) (hi : i < windowCount cs.length k) :
    i + min cs.length k ≤ cs.length ∧ 0 < min cs.length k ∧ i < cs.length := by
  have hpos := List.length_pos_of_ne_nil hcs
  rw [windowCount] at hi
  omega

theorem take_window (cs : List Char) (k i : ℕ) :
    (cs.drop i).take (min cs.length k) = (cs.drop i).take k := by
  rw [List.take_eq_take_iff, List.length_drop]
  omega

/-- The bytes that one element takes are within its share of the block. -/
theorem element_size_le (cs : List Char) (k : ℕ) :
    varhdrsz + (Utf8.encode (cs.take k)).length ≤ 4 + 6 * k := by
  have hlen := Utf8.length_encode_le (cs.take k)
  have htake := List.length_take_le k cs
  rw [varhdrsz]
  omega

/-- The state of the walk before the element with number `i`. -/
structure Filled (cs : List Char) (k head i : ℕ) (s : SplitState) : Prop where
  ptrInTmp : s.ptrInTmp = Utf8.offset cs i
  ptrValTmp : s.ptrValTmp ≤ head + i * (4 + 6 * k)
  values : s.values = (List.range i).map fun i ↦ element ((cs.drop i).take k)

/-- One round adds the next window, inside of a block that has its share left. -/
theorem splitStep_spec {k i block : ℕ} {s : SplitState} (hcs : cs ≠ []) (hk : 0 < k)
    (hi : i < windowCount cs.length k)
    (hblock : windowCount cs.length k * pointerSize +
      windowCount cs.length k * (4 + 6 * k) ≤ block)
    (hs : Filled cs k (windowCount cs.length k * pointerSize) i s) :
    ∃ s', splitStep (Utf8.encode cs ++ m) (min cs.length k) block i s = .ok s' ∧
      Filled cs k (windowCount cs.length k * pointerSize) (i + 1) s' := by
  obtain ⟨hin, hval, hvalues⟩ := hs
  obtain ⟨hlast, hpos, hlt⟩ := window_lt hcs hk hi
  obtain ⟨b, hb, hfirst⟩ := readAt_offset (m := m) hlt
  have hsize := windowSize_spec (m := m) hpos hlast hfirst
  rw [take_window] at hsize
  have hshare := element_size_le (cs.drop i) k
  -- the element and its pointer lie in the block
  have hend : (i + 1) * (4 + 6 * k) ≤ windowCount cs.length k * (4 + 6 * k) :=
    Nat.mul_le_mul_right _ hi
  have hslot : (i + 1) * pointerSize ≤ windowCount cs.length k * pointerSize :=
    Nat.mul_le_mul_right _ hi
  rw [Nat.succ_mul] at hend hslot
  have hptr : pointerSize * (i + 1) ≤ block := by
    rw [Nat.mul_comm, Nat.succ_mul]
    omega
  have hread : Utf8.offset cs i + (Utf8.encode ((cs.drop i).take k)).length ≤
      (Utf8.encode cs ++ m).length := by
    rw [← Utf8.offset_add, List.length_append]
    exact Nat.le_add_right_of_le (Utf8.offset_le cs (i + k))
  have hdata : (readRange (Utf8.encode cs ++ m) (Utf8.offset cs i) _ : Call (List Byte)) = _ :=
    readRange_offset i k
  rw [readRange, if_pos hread, Except.ok.injEq] at hdata
  refine ⟨⟨s.ptrInTmp + utf8Len b,
    s.ptrValTmp + (varhdrsz + (Utf8.encode ((cs.drop i).take k)).length),
    s.values ++ [element ((cs.drop i).take k)]⟩, ?_, ?_, ?_, ?_⟩
  · rw [← hin] at hb hsize hread hdata
    rw [splitStep_eq hb hsize, if_pos ⟨hptr, by omega, hread⟩, hdata]
    rfl
  · rw [hin, hfirst]
  · show s.ptrValTmp + (varhdrsz + (Utf8.encode ((cs.drop i).take k)).length) ≤ _
    rw [Nat.succ_mul]
    omega
  · rw [hvalues, List.range_succ, List.map_append]
    rfl

/-- The outer loop builds all of the windows. -/
theorem fill_spec {k : ℕ} (hcs : cs ≠ []) (hk : 0 < k) : ∃ s,
    forLoop (splitStep (Utf8.encode cs ++ m) (min cs.length k)
      (windowCount cs.length k * pointerSize + windowCount cs.length k * (4 + 6 * k)))
      (windowCount cs.length k)
      { ptrInTmp := 0, ptrValTmp := windowCount cs.length k * pointerSize, values := [] } =
      .ok s ∧ s.values = (windows k cs).map element := by
  have hstart : Filled cs k (windowCount cs.length k * pointerSize) 0
      { ptrInTmp := 0, ptrValTmp := windowCount cs.length k * pointerSize, values := [] } :=
    ⟨(Utf8.offset_zero cs).symm, Nat.le_add_right _ _, rfl⟩
  obtain ⟨s, hrun, hs⟩ := forLoop_spec
    (Filled cs k (windowCount cs.length k * pointerSize)) hstart
    fun i s hi hs ↦ splitStep_spec (m := m) hcs hk hi le_rfl hs
  refine ⟨s, hrun, ?_⟩
  rw [hs.values, windows, List.map_map]
  rfl

/-! ## The 32-bit sizes -/

theorem arraySize_toNat {n : ℕ} {splitSize : UInt32} (hk : 0 < splitSize.toNat)
    (hn32 : n < 2 ^ 32) :
    (arraySize (UInt32.ofInt n) splitSize).toNat = windowCount n splitSize.toNat := by
  have hcount := toNat_ofInt_natCast hn32
  have hone : (splitSize - 1).toNat = splitSize.toNat - 1 :=
    UInt32.toNat_sub_of_le _ _ (UInt32.le_iff_toNat_le.mpr hk)
  rw [arraySize, windowCount]
  split_ifs with hle
  · rw [UInt32.le_iff_toNat_le, hcount] at hle
    have : n + 1 - splitSize.toNat ≤ 1 := by omega
    rw [max_eq_left this]
    rfl
  · rw [UInt32.le_iff_toNat_le, hcount] at hle
    have hsub : splitSize - 1 ≤ UInt32.ofInt n := by
      rw [UInt32.le_iff_toNat_le, hone, hcount]
      omega
    rw [UInt32.toNat_sub_of_le _ _ hsub, hone, hcount]
    omega

theorem itemCount_toNat {n : ℕ} {splitSize : UInt32} (hn32 : n < 2 ^ 32) :
    (itemCount (UInt32.ofInt n) splitSize).toNat = min n splitSize.toNat := by
  have hcount := toNat_ofInt_natCast hn32
  rw [itemCount]
  split_ifs with hlt
  · rw [UInt32.lt_iff_toNat_lt, hcount] at hlt
    rw [hcount, min_eq_left hlt.le]
  · rw [UInt32.lt_iff_toNat_lt, hcount] at hlt
    rw [min_eq_right (not_lt.mp hlt)]

/-- Every operation wraps around, and so does the sum. -/
theorem allTxtMemSize_eq (size splitSize : UInt32) :
    allTxtMemSize size splitSize = size.toNat * (4 + 6 * splitSize.toNat) % 2 ^ 32 := by
  have hmul : size.toNat * (4 + 6 * splitSize.toNat) =
      size.toNat * 4 + size.toNat * splitSize.toNat * 6 := by ring
  rw [hmul, allTxtMemSize, UInt32.toNat_add, UInt32.toNat_mul, UInt32.toNat_mul, UInt32.toNat_mul]
  simp only [UInt32.reduceToNat]
  omega

/-- The sizes as numbers, where the 32-bit arithmetic does not wrap around. -/
theorem sizes_spec {n : ℕ} {splitSize : UInt32} (hk : 0 < splitSize.toNat)
    (hwrap : windowCount n splitSize.toNat * (4 + 6 * splitSize.toNat) < 2 ^ 32)
    (hn32 : n < 2 ^ 32) :
    (arraySize (UInt32.ofInt n) splitSize).toNat = windowCount n splitSize.toNat ∧
    (itemCount (UInt32.ofInt n) splitSize).toNat = min n splitSize.toNat ∧
    allTxtMemSize (arraySize (UInt32.ofInt n) splitSize) splitSize =
      windowCount n splitSize.toNat * (4 + 6 * splitSize.toNat) := by
  have hsize := arraySize_toNat hk hn32
  refine ⟨hsize, itemCount_toNat hn32, ?_⟩
  rw [allTxtMemSize_eq, hsize, Nat.mod_eq_of_lt hwrap]

/-- The number of characters is bounded by the size of the block. -/
theorem length_lt_of_windowCount {n k : ℕ} (h1 : 1 ≤ k) (h6 : k ≤ 6)
    (hwrap : windowCount n k * (4 + 6 * k) < 2 ^ 32) : 4 * n < 2 ^ 32 := by
  have hle : n + 1 - k ≤ windowCount n k := le_max_right _ _
  have hmul : windowCount n k * 10 ≤ windowCount n k * (4 + 6 * k) :=
    Nat.mul_le_mul_left _ (by omega)
  omega

/-! ## The whole call -/

/-- The first byte of a text is zero only if its first character is. -/
theorem readAt_first (hcs : cs ≠ []) (h0 : cs.head? ≠ some '\x00') :
    ∃ b, (readAt (Utf8.encode cs ++ m) 0 : Call Byte) = .ok b ∧ b ≠ 0 := by
  obtain ⟨c, cs, rfl⟩ := List.exists_cons_of_ne_nil hcs
  obtain ⟨b, rest, hc, -⟩ := exists_lead c
  refine ⟨b, ?_, ?_⟩
  · rw [Utf8.encode_cons, hc]
    rfl
  · rintro rfl
    have hzero : c = '\x00' := Utf8.eq_zero_of_mem_encodeChar (hc ▸ List.mem_cons_self)
    exact h0 (congrArg some hzero)

/-- `split_string_v0` on a text of characters: the windows, if the allocator grants the
request. -/
theorem splitStringV0_eq (grants : ℕ → Bool) {splitSize : UInt32} (hcs : cs ≠ [])
    (h0 : cs.head? ≠ some '\x00') (h1 : 1 ≤ splitSize.toNat) (h6 : splitSize.toNat ≤ 6)
    (hwrap : windowCount cs.length splitSize.toNat * (4 + 6 * splitSize.toNat) < 2 ^ 32) :
    splitStringV0 grants ⟨Utf8.encode cs, m⟩ splitSize =
      (allocate grants (windowCount cs.length splitSize.toNat * pointerSize +
        windowCount cs.length splitSize.toNat * (4 + 6 * splitSize.toNat)) >>= fun _ ↦
      .ok (some (UInt32.ofNat (windowCount cs.length splitSize.toNat),
        (windows splitSize.toNat cs).map element))) := by
  have hn := length_lt_of_windowCount h1 h6 hwrap
  have hbytes := Utf8.length_encode_le cs
  have hpos := List.length_pos_of_ne_nil hcs
  obtain ⟨b, hb, hb0⟩ := readAt_first (m := m) hcs h0
  obtain ⟨hsize, hitem, hmem⟩ := sizes_spec h1 hwrap (by omega)
  have hcount : utf8CharacterCount (some (Utf8.encode cs ++ m))
      (UInt32.ofNat (Utf8.encode cs).length) = .ok cs.length :=
    utf8CharacterCount_encode (by omega) (by omega)
  simp only [splitStringV0, TextImage.vardata, TextImage.varsizeExhdr, hb, Run.ok_bind,
    if_neg hb0, hcount, hmem, hitem, arrayHeadSize, hsize]
  obtain ⟨s, hrun, hvalues⟩ := fill_spec (m := m) hcs h1
  rw [allocate]
  split_ifs
  · rw [Run.ok_bind, Run.ok_bind, hrun, Run.ok_bind, hvalues, ← hsize, UInt32.ofNat_toNat]
    rfl
  · rfl

/-- `split_string_v0` on a text of `n` characters and a split size `k` from 1 to 6, where the
size of the block has not wrapped around and `palloc` grants a block of that size:
`max 1 (n - k + 1)` elements, and element `i` is made of `k` consecutive characters
from the `i`-th on, or of all of them if there are fewer.  Nothing is assumed of the
memory behind the text, not even that there is any, so every byte that is read is a
byte of the text. -/
theorem splitStringV0_windows (grants : ℕ → Bool) (cs : List Char) (m : List Byte)
    (splitSize : UInt32) (hcs : cs ≠ []) (h0 : '\x00' ∉ cs) (h1 : 1 ≤ splitSize.toNat)
    (h6 : splitSize.toNat ≤ 6)
    (hwrap : windowCount cs.length splitSize.toNat * (4 + 6 * splitSize.toNat) < 2 ^ 32)
    (hgrants : grants (windowCount cs.length splitSize.toNat * pointerSize +
      windowCount cs.length splitSize.toNat * (4 + 6 * splitSize.toNat)) = true) :
    ∃ count values, splitStringV0 grants ⟨Utf8.encode cs, m⟩ splitSize =
        .ok (some (count, values)) ∧
      count.toNat = max 1 (cs.length + 1 - splitSize.toNat) ∧
      values.length = count.toNat ∧
      ∀ i, (h : i < values.length) →
        values[i].data = Utf8.encode ((cs.drop i).take splitSize.toNat) ∧
        values[i].size = varhdrsz + values[i].data.length := by
  have hhead : cs.head? ≠ some '\x00' := fun h ↦ h0 (List.mem_of_head? h)
  have hrun := splitStringV0_eq (m := m) grants hcs hhead h1 h6 hwrap
  rw [allocate, if_pos hgrants, Run.ok_bind] at hrun
  have hcount : (UInt32.ofNat (windowCount cs.length splitSize.toNat)).toNat =
      windowCount cs.length splitSize.toNat := by
    rw [UInt32.toNat_ofNat', Nat.mod_eq_of_lt]
    exact (Nat.le_mul_of_pos_right _ (by omega)).trans_lt hwrap
  refine ⟨_, _, hrun, hcount, ?_, ?_⟩
  · rw [hcount, windows, List.length_map, List.length_map, List.length_range]
  · intro i hi
    simp only [windows, List.getElem_map, List.getElem_range, element, true_and]
    exact Nat.add_comm _ _

/-- The text `aé漢` of one, two and three bytes, in runs of two characters. -/
theorem splitStringV0_windows_two :
    ∃ count values, splitStringV0 (fun _ ↦ true) ⟨Utf8.encode ['a', 'é', '漢'], []⟩ 2 =
        .ok (some (count, values)) ∧
      count.toNat = max 1 (3 + 1 - 2) ∧
      values.length = count.toNat ∧
      ∀ i, (h : i < values.length) →
        values[i].data = Utf8.encode ((['a', 'é', '漢'].drop i).take 2) ∧
        values[i].size = varhdrsz + values[i].data.length :=
  splitStringV0_windows (fun _ ↦ true) ['a', 'é', '漢'] [] 2 (by decide) (by decide)
    (by decide) (by decide) (by decide) rfl

end PgKmcb.Text
