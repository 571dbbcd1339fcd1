import PgKmcb.Text.Same
import PgKmcb.Lib.LcsDistance

/-!
# The similarity of two strings (`simil`, `string_simil`)

`simil` keeps two rows of the table that `same` keeps as a whole, and swaps them after
each round.  A row that is about to be filled still holds the row before the previous
one; `RowFilled` is the invariant of the inner loop, which reads of that row only what
it has written itself and the first entry, and that one is never written.

The rows run along the longer string, so the quotient is at most one.  One less the
quotient is a metric (`simil_metric`), by `PgKmcb.Lib.lcsDist_triangle`.
-/

namespace PgKmcb.Text

open PgKmcb.Lib

/-! ## The function -/

/-- The two buffers, under the names that their pointers have at the moment. -/
structure Rows where
  previous : List ℕ
  next : List ℕ

/-- The buffers as `palloc0` leaves them. -/
def rowsInit (len1 : ℕ) : Rows where
  previous := List.replicate (len1 + 1) 0
  next := List.replicate (len1 + 1) 0

/-- The body of the inner loop. -/
def similCell (str1 str2 : List Byte) (j : ℕ) (previous : List ℕ) (k : ℕ) (next : List ℕ) :
    Call (List ℕ) := do
  let x ← readAt str1 (k - 1)
  let y ← readAt str2 j
  if x = y then
    let diag ← readAt previous (k - 1)
    writeAt next k (diag + 1)
  else
    let up ← readAt previous k
    let left ← readAt next (k - 1)
    writeAt next k (if up ≥ left then up else left)

/-- The body of the outer loop: a row for `k = 1, …, len1`, then `swap`. -/
def similRow (str1 : List Byte) (len1 : ℕ) (str2 : List Byte) (j : ℕ) (s : Rows) :
    Call Rows := do
  let next ← forLoop (fun k ↦ similCell str1 str2 j s.previous (k + 1)) len1 s.next
  return { previous := next, next := s.previous }

/-- `previous[len1]` behind both loops. -/
def lenLCS (str1 : List Byte) (len1 : ℕ) (str2 : List Byte) (len2 : ℕ) : Call ℕ := do
  let s ← forLoop (similRow str1 len1 str2) len2 (rowsInit len1)
  readAt s.previous len1

/-- The dividend and the divisor of `simil`, with the strings swapped so that the first
is the longer one. -/
def similParts (str1 : List Byte) (len1 : ℕ) (str2 : List Byte) (len2 : ℕ) : Call (ℕ × ℕ) :=
  if len1 < len2 then do
    let lenLCS ← lenLCS str2 len2 str1 len1
    return (lenLCS, len2)
  else do
    let lenLCS ← lenLCS str1 len1 str2 len2
    return (lenLCS, len1)

/-- `simil`. -/
def simil (str1 : List Byte) (len1 : ℕ) (str2 : List Byte) (len2 : ℕ) : Call ℚ := do
  if len1 = 0 ∨ len2 = 0 then
    return 0
  let (lenLCS, len1) ← similParts str1 len1 str2 len2
  return lenLCS / len1

/-- `string_simil`. -/
def stringSimil (inTxt1 inTxt2 : TextImage) : Call (SqlResult ℚ) := do
  let result ← simil inTxt1.vardata inTxt1.varsizeExhdr inTxt2.vardata inTxt2.varsizeExhdr
  return .datum result

/-! ## The rows -/

/-- The row `j` of the table, along the first string. -/
noncomputable def row (a b : List Byte) (j : ℕ) : List ℕ :=
  (List.range (a.length + 1)).map (entry a b j)

@[simp] theorem length_row (a b : List Byte) (j : ℕ) : (row a b j).length = a.length + 1 := by
  simp [row]

theorem getElem?_row {a b : List Byte} {j k : ℕ} (hk : k ≤ a.length) :
    (row a b j)[k]? = some (entry a b j k) := by
  rw [row, List.getElem?_map, List.getElem?_range (Nat.lt_succ_of_le hk)]
  rfl

theorem readAt_row {a b : List Byte} {j k : ℕ} (hk : k ≤ a.length) :
    (readAt (row a b j) k : Call ℕ) = .ok (entry a b j k) :=
  readAt_of_getElem? (getElem?_row hk)

/-- The first row is full of zeros. -/
theorem row_zero (a b : List Byte) : row a b 0 = List.replicate (a.length + 1) 0 := by
  refine List.eq_replicate_iff.mpr ⟨length_row a b 0, fun x hx ↦ ?_⟩
  obtain ⟨k, -, rfl⟩ := List.mem_map.mp hx
  exact entry_zero_row a b k

/-- The entries of row `j` are in place up to `k`; behind them is what was there. -/
structure RowFilled (a b : List Byte) (j k : ℕ) (next : List ℕ) : Prop where
  length : next.length = a.length + 1
  getElem? : ∀ i ≤ k, next[i]? = some (entry a b j i)

namespace RowFilled

variable {a b : List Byte} {j k : ℕ} {next : List ℕ}

/-- A row that is filled to its end holds nothing else. -/
theorem eq_row (h : RowFilled a b j a.length next) : next = row a b j := by
  refine List.ext_getElem? fun i ↦ ?_
  rcases Nat.lt_or_ge a.length i with hi | hi
  · rw [List.getElem?_eq_none (by rw [h.length]; exact hi),
      List.getElem?_eq_none (by rw [length_row]; exact hi)]
  · rw [h.getElem? i hi, getElem?_row hi]

/-- Writing the next entry. -/
theorem write (h : RowFilled a b j k next) (hk : k < a.length) :
    ∃ next', (writeAt next (k + 1) (entry a b j (k + 1)) : Call (List ℕ)) = .ok next' ∧
      RowFilled a b j (k + 1) next' := by
  have hlt : k + 1 < next.length := by
    rw [h.length]
    exact Nat.succ_lt_succ hk
  refine ⟨_, writeAt_of_lt hlt _, ⟨by rw [List.length_set, h.length], fun i hi ↦ ?_⟩⟩
  rcases Nat.lt_or_eq_of_le hi with hi | rfl
  · rw [List.getElem?_set_ne (Nat.ne_of_gt hi), h.getElem? i (Nat.le_of_lt_succ hi)]
  · exact List.getElem?_set_self hlt

end RowFilled

variable {a b x y : List Byte} {j k : ℕ} {next : List ℕ}

/-- One entry of a row: what it is computed from has been written before. -/
theorem similCell_spec (h : RowFilled a b (j + 1) k next) (hj : j < b.length)
    (hk : k < a.length) :
    ∃ next', similCell (a ++ x) (b ++ y) j (row a b j) (k + 1) next = .ok next' ∧
      RowFilled a b (j + 1) (k + 1) next' := by
  have ha : a[k]? = some a[k] := List.getElem?_eq_getElem hk
  have hb : b[j]? = some b[j] := List.getElem?_eq_getElem hj
  have hreada : (readAt (a ++ x) k : Call Byte) = .ok a[k] :=
    readAt_of_getElem? (by rw [List.getElem?_append_left hk, ha])
  have hreadb : (readAt (b ++ y) j : Call Byte) = .ok b[j] :=
    readAt_of_getElem? (by rw [List.getElem?_append_left hj, hb])
  obtain ⟨next', hwrite, hfilled⟩ := h.write hk
  refine ⟨next', ?_, hfilled⟩
  simp only [similCell, Nat.add_sub_cancel, hreada, hreadb, Run.ok_bind]
  split
  · rename_i heq
    rw [readAt_row (Nat.le_of_lt hk), Run.ok_bind, ← entry_succ_of_eq ha (heq ▸ hb)]
    exact hwrite
  · rename_i hne
    have hmax : (if entry a b j (k + 1) ≥ entry a b (j + 1) k then entry a b j (k + 1)
        else entry a b (j + 1) k) = entry a b (j + 1) (k + 1) := by
      rw [entry_succ_of_ne ha hb hne]
      grind
    rw [readAt_row hk, Run.ok_bind, readAt_of_getElem? (h.getElem? k (Nat.le_refl k)),
      Run.ok_bind, hmax]
    exact hwrite

/-- One round of the outer loop fills the next row, whatever its buffer held behind the
first entry. -/
theorem similRow_spec (hj : j < b.length) (hlen : next.length = a.length + 1)
    (h0 : next[0]? = some 0) :
    similRow (a ++ x) a.length (b ++ y) j ⟨row a b j, next⟩ =
      .ok ⟨row a b (j + 1), row a b j⟩ := by
  have hstart : RowFilled a b (j + 1) 0 next := by
    refine ⟨hlen, fun i hi ↦ ?_⟩
    rw [Nat.le_zero.mp hi, h0, entry_zero_col]
  obtain ⟨next', hrun, hfilled⟩ := forLoop_spec (RowFilled a b (j + 1)) hstart
    fun k next hk h ↦ similCell_spec (x := x) (y := y) h hj hk
  rw [similRow, hrun, Run.ok_bind, hfilled.eq_row]
  rfl

/-- The outer loop up to round `j`: the buffers hold row `j` and, behind a zero, anything. -/
theorem similRows_spec (a b x y : List Byte) {n : ℕ} (hn : n ≤ b.length) :
    ∃ next, forLoop (similRow (a ++ x) a.length (b ++ y)) n (rowsInit a.length) =
        .ok ⟨row a b n, next⟩ ∧ next.length = a.length + 1 ∧ next[0]? = some 0 := by
  have hstart : (rowsInit a.length).previous = row a b 0 ∧
      (rowsInit a.length).next.length = a.length + 1 ∧
      (rowsInit a.length).next[0]? = some 0 := by
    rw [row_zero]
    exact ⟨rfl, List.length_replicate, rfl⟩
  have hstep : ∀ j (s : Rows), j < n → (s.previous = row a b j ∧
        s.next.length = a.length + 1 ∧ s.next[0]? = some 0) →
      ∃ s', similRow (a ++ x) a.length (b ++ y) j s = .ok s' ∧
        (s'.previous = row a b (j + 1) ∧ s'.next.length = a.length + 1 ∧
          s'.next[0]? = some 0) := by
    rintro j ⟨previous, next⟩ hj ⟨rfl, hlen, h0⟩
    have hzero : (row a b j)[0]? = some 0 := by
      rw [getElem?_row (Nat.zero_le _), entry_zero_col]
    exact ⟨_, similRow_spec (hj.trans_le hn) hlen h0, rfl, length_row a b j, hzero⟩
  obtain ⟨⟨previous, next⟩, hrun, rfl, hlen, h0⟩ := forLoop_spec
    (fun j (s : Rows) ↦ s.previous = row a b j ∧ s.next.length = a.length + 1 ∧
      s.next[0]? = some 0) hstart hstep
  exact ⟨next, hrun, hlen, h0⟩

/-- Behind both loops the last entry is the length of a longest common subsequence. -/
theorem lenLCS_eq (a b x y : List Byte) :
    lenLCS (a ++ x) a.length (b ++ y) b.length = .ok (lcsLength a b) := by
  obtain ⟨next, hrun, -, -⟩ := similRows_spec a b x y (Nat.le_refl _)
  rw [lenLCS, hrun, Run.ok_bind, readAt_row (Nat.le_refl _), entry_full]

/-- In every round of the outer loop, what the buffer of the next row holds behind its
first entry could as well be anything else. -/
def NoStaleEntry (str1 : List Byte) (len1 : ℕ) (str2 : List Byte) (len2 : ℕ) : Prop :=
  ∀ j < len2, ∃ s, forLoop (similRow str1 len1 str2) j (rowsInit len1) = .ok s ∧
    ∀ stale : List ℕ, stale.length = s.next.length → stale[0]? = s.next[0]? →
      similRow str1 len1 str2 j { s with next := stale } = similRow str1 len1 str2 j s

theorem noStaleEntry (a b x y : List Byte) :
    NoStaleEntry (a ++ x) a.length (b ++ y) b.length := by
  intro j hj
  obtain ⟨next, hrun, hlen, h0⟩ := similRows_spec a b x y (Nat.le_of_lt hj)
  refine ⟨_, hrun, fun stale hstale hstale0 ↦ ?_⟩
  rw [similRow_spec hj hlen h0]
  exact similRow_spec hj (hstale.trans hlen) (hstale0.trans h0)

/-! ## The quotient -/

/-- The dividend is the length of a longest common subsequence, the divisor the length
of the longer string, in whichever order they are given. -/
theorem similParts_eq (a b x y : List Byte) :
    similParts (a ++ x) a.length (b ++ y) b.length =
      .ok (lcsLength a b, max a.length b.length) := by
  rw [similParts]
  split_ifs with hlt
  · rw [lenLCS_eq, Run.ok_bind, lcsLength_comm, max_eq_right hlt.le]
    rfl
  · rw [lenLCS_eq, Run.ok_bind, max_eq_left (not_lt.mp hlt)]
    rfl

theorem simil_eq (x y : List Byte) (ha : a ≠ []) (hb : b ≠ []) :
    simil (a ++ x) a.length (b ++ y) b.length = .ok (1 - lcsDist a b) := by
  have hne : ¬ (a.length = 0 ∨ b.length = 0) :=
    not_or.mpr ⟨mt List.eq_nil_of_length_eq_zero ha, mt List.eq_nil_of_length_eq_zero hb⟩
  rw [simil, if_neg hne, similParts_eq, Run.ok_bind, lcsDist, sub_sub_cancel]
  rfl

/-- **`simil` is correct.**  It divides the length of a longest common subsequence by
the length of the longer string, in whichever order the two are given, and nothing that
a buffer still holds from an earlier row has a part in it. -/
theorem simil_correct (a b x y : List Byte) (ha : a ≠ []) (hb : b ≠ []) :
    ∃ w : List Byte, w.Sublist a ∧ w.Sublist b ∧
      (∀ v : List Byte, v.Sublist a → v.Sublist b → v.length ≤ w.length) ∧
      similParts (a ++ x) a.length (b ++ y) b.length =
        .ok (w.length, max a.length b.length) ∧
      simil (a ++ x) a.length (b ++ y) b.length =
        .ok ((w.length : ℚ) / (max a.length b.length : ℕ)) ∧
      NoStaleEntry (a ++ x) a.length (b ++ y) b.length ∧
      NoStaleEntry (b ++ y) b.length (a ++ x) a.length := by
  obtain ⟨w, ⟨hwa, hwb⟩, hw⟩ := exists_isCommon_length a b
  refine ⟨w, hwa, hwb, fun v hva hvb ↦ ?_, ?_, ?_, noStaleEntry a b x y, noStaleEntry b a y x⟩
  · rw [hw]
    exact IsCommon.length_le ⟨hva, hvb⟩
  · rw [hw]
    exact similParts_eq a b x y
  · rw [hw, simil_eq x y ha hb, lcsDist, sub_sub_cancel]

/-- The strings `ab` and `bcb`: the longer one is the second. -/
theorem simil_correct_ab_bcb :
    ∃ w : List Byte, w.Sublist [97, 98] ∧ w.Sublist [98, 99, 98] ∧
      (∀ v : List Byte, v.Sublist [97, 98] → v.Sublist [98, 99, 98] → v.length ≤ w.length) ∧
      similParts ([97, 98] ++ []) 2 ([98, 99, 98] ++ []) 3 = .ok (w.length, max 2 3) ∧
      simil ([97, 98] ++ []) 2 ([98, 99, 98] ++ []) 3 =
        .ok ((w.length : ℚ) / (max 2 3 : ℕ)) ∧
      NoStaleEntry ([97, 98] ++ []) 2 ([98, 99, 98] ++ []) 3 ∧
      NoStaleEntry ([98, 99, 98] ++ []) 3 ([97, 98] ++ []) 2 :=
  simil_correct [97, 98] [98, 99, 98] [] [] (by decide) (by decide)

/-- **The distance is a metric.**  One less the similarity is between 0 and 1, is zero
for equal strings only, and satisfies the triangle inequality. -/
theorem simil_metric : ∃ d : List Byte → List Byte → ℚ,
    (∀ a b : List Byte, a ≠ [] → b ≠ [] → ∀ m m' : List Byte,
      simil (a ++ m) a.length (b ++ m') b.length = .ok (1 - d a b) ∧
      stringSimil ⟨a, m⟩ ⟨b, m'⟩ = .ok (.datum (1 - d a b))) ∧
    (∀ a b : List Byte, a ≠ [] → b ≠ [] → 0 ≤ d a b ∧ d a b ≤ 1) ∧
    (∀ a b : List Byte, a ≠ [] → b ≠ [] → (d a b = 0 ↔ a = b)) ∧
    (∀ a b : List Byte, a ≠ [] → b ≠ [] → d a b = d b a) ∧
    ∀ a b c : List Byte, a ≠ [] → b ≠ [] → c ≠ [] → d a c ≤ d a b + d b c := by
  refine ⟨lcsDist, fun a b ha hb m m' ↦ ?_, fun a b ha _ ↦ ⟨lcsDist_nonneg b ha,
    lcsDist_le_one a b⟩, fun a b ha _ ↦ lcsDist_eq_zero_iff b ha, fun a b _ _ ↦ lcsDist_comm a b,
    fun a b c ha hb hc ↦ lcsDist_triangle ha hb hc⟩
  have hrun := simil_eq m m' ha hb
  refine ⟨hrun, ?_⟩
  rw [stringSimil]
  simp only [TextImage.vardata, TextImage.varsizeExhdr, hrun, Run.ok_bind]
  rfl

end PgKmcb.Text
