import PgKmcb.Postgres
import PgKmcb.Lib.Subsequence

/-!
# The common part of two strings (`same`, `string_same`)

`same` fills a table with the lengths of the longest common subsequences of all
pairs of prefixes, then walks back from the last corner and writes the result
from its end to its beginning.  The walk has three branches and no fourth: in a
state where none applied the loop would not move.

`FilledTo` is the invariant of the two nested loops that fill the table,
`Traced` the invariant of the walk.  `Traced` says what is missing from the
result is as long as the table entry at the current position, so a corner of the
table with an entry above zero always has a branch (`exists_branch`).
-/

namespace PgKmcb.Text

open PgKmcb.Lib

/-- The table `align`, a row for each prefix of `str2`. -/
abbrev Align := Table (ℕ × ℕ) ℕ

/-- The table as `palloc0` leaves it. -/
def alignInit (len1 len2 : ℕ) : Align where
  dom p := decide (p.1 ≤ len2) && decide (p.2 ≤ len1)
  cell _ := 0

/-- The body of the two loops that fill the table. -/
def alignCell (str1 str2 : List Byte) (r c : ℕ) (align : Align) : Call Align := do
  let x ← readAt str1 (c - 1)
  let y ← readAt str2 (r - 1)
  if x = y then
    let diag ← align.read (r - 1, c - 1)
    align.write (r, c) (diag + 1)
  else
    let up ← align.read (r - 1, c)
    let left ← align.read (r, c - 1)
    align.write (r, c) (if up ≥ left then up else left)

/-- Both loops; the bodies run for `r = 1, …, len2` and `c = 1, …, len1`. -/
def fillAlign (str1 str2 : List Byte) (len1 len2 : ℕ) : Call Align :=
  forLoop (fun r ↦ forLoop (fun c ↦ alignCell str1 str2 (r + 1) (c + 1)) len1) len2
    (alignInit len1 len2)

/-- The state of the walk back.  `written` records the positions of the result
that have been written so far, the latest first. -/
structure Traceback where
  r : ℕ
  c : ℕ
  i : ℕ
  result : List Byte
  written : List ℕ

/-- The branches of the walk. -/
inductive Branch where
  | up
  | left
  | diag
deriving DecidableEq, Repr

/-- Which branch applies, with the reads in the order in which they are made. -/
def branch (align : Align) (s : Traceback) : Call (Option Branch) := do
  let up ← align.read (s.r - 1, s.c)
  if up = s.i then
    return some .up
  let left ← align.read (s.r, s.c - 1)
  if left = s.i then
    return some .left
  let diag ← align.read (s.r - 1, s.c - 1)
  if diag = s.i - 1 then
    return some .diag
  return none

/-- What a branch does; without one, nothing. -/
def move (str2 : List Byte) (s : Traceback) : Option Branch → Call Traceback
  | some .up => return { s with r := s.r - 1 }
  | some .left => return { s with c := s.c - 1 }
  | some .diag => do
      let y ← readAt str2 (s.r - 1)
      let result ← writeAt s.result (s.i - 1) y
      return { s with
        r := s.r - 1, c := s.c - 1, result := result, written := (s.i - 1) :: s.written }
  | none => return s

/-- One round of the walk. -/
def traceStep (align : Align) (str2 : List Byte) (s : Traceback) : Call Traceback := do
  let b ← branch align s
  let s ← move str2 s b
  let i ← align.read (s.r, s.c)
  return { s with i := i }

/-- The guard of the walk. -/
def traceGuard (s : Traceback) : Bool :=
  decide (s.i > 0) && decide (s.r > 0) && decide (s.c > 0)

/-- Memory from `palloc`, with whatever it holds. -/
def palloc (garbage : ℕ → Byte) (size : ℕ) : List Byte := (List.range size).map garbage

/-- The state in which the walk begins, with the terminator already in place. -/
def traceStart (garbage : ℕ → Byte) (align : Align) (len1 len2 : ℕ) : Call Traceback := do
  let i ← align.read (len2, len1)
  let result ← writeAt (palloc garbage ((if len1 > len2 then len1 else len2) + 1)) i 0
  return { r := len2, c := len1, i := i, result := result, written := [i] }

/-- `same`.  The result is a null pointer or the payload of the new `text`. -/
def same (garbage : ℕ → Byte) (fuel : ℕ) (str1 : List Byte) (len1 : ℕ) (str2 : List Byte)
    (len2 : ℕ) : Call (Option (List Byte)) := do
  if len1 = 0 ∨ len2 = 0 then
    return none
  let align ← fillAlign str1 str2 len1 len2
  let s ← traceStart garbage align len1 len2
  let s ← whileLoop traceGuard (traceStep align str2) fuel s
  let size ← strlen s.result
  return some (s.result.take size)

/-- `string_same`; the arguments are copied into zero-terminated strings first. -/
def stringSame (garbage : ℕ → Byte) (fuel : ℕ) (inTxt1 inTxt2 : TextImage) :
    Call (SqlResult (Option (List Byte))) := do
  let ptr1 := inTxt1.payload ++ [0]
  let ptr2 := inTxt2.payload ++ [0]
  let len1 ← strlen ptr1
  let len2 ← strlen ptr2
  let result ← same garbage fuel ptr1 len1 ptr2 len2
  return .datum result

/-! ## The table -/

/-- The entry a position of the table is meant to have. -/
noncomputable def entry (a b : List Byte) (r c : ℕ) : ℕ := lcsLength (a.take c) (b.take r)

@[simp] theorem entry_zero_row (a b : List Byte) (c : ℕ) : entry a b 0 c = 0 := by
  simp [entry]

@[simp] theorem entry_zero_col (a b : List Byte) (r : ℕ) : entry a b r 0 = 0 := by
  simp [entry]

theorem entry_full (a b : List Byte) : entry a b b.length a.length = lcsLength a b := by
  simp [entry]

/-- Equal bytes extend the diagonal entry. -/
theorem entry_succ_of_eq {a b : List Byte} {r c : ℕ} {x : Byte} (ha : a[c]? = some x)
    (hb : b[r]? = some x) : entry a b (r + 1) (c + 1) = entry a b r c + 1 := by
  rw [entry, List.take_add_one, List.take_add_one, ha, hb]
  exact lcsLength_concat_self _ _ x

/-- Different bytes leave the greater of the two neighbours. -/
theorem entry_succ_of_ne {a b : List Byte} {r c : ℕ} {x y : Byte} (ha : a[c]? = some x)
    (hb : b[r]? = some y) (hxy : x ≠ y) :
    entry a b (r + 1) (c + 1) = max (entry a b r (c + 1)) (entry a b (r + 1) c) := by
  rw [entry, entry, entry, List.take_add_one, List.take_add_one, ha, hb]
  exact lcsLength_concat_of_ne _ _ hxy

/-- The rows up to `r` are filled, row `r + 1` up to column `c`, and the first column
throughout. -/
structure FilledTo (a b : List Byte) (r c : ℕ) (align : Align) : Prop where
  dom : ∀ p, align.dom p = (decide (p.1 ≤ b.length) && decide (p.2 ≤ a.length))
  cell : ∀ r' c', c' ≤ a.length → (r' ≤ r ∨ r' = r + 1 ∧ c' ≤ c ∨ c' = 0) →
    align.cell (r', c') = entry a b r' c'

namespace FilledTo

variable {a b : List Byte} {r c : ℕ} {align : Align}

theorem init (a b : List Byte) : FilledTo a b 0 0 (alignInit a.length b.length) where
  dom _ := rfl
  cell r' c' _ h := by
    rcases h with h | ⟨-, h⟩ | h
    · rw [Nat.le_zero.mp h, entry_zero_row]
      rfl
    · rw [Nat.le_zero.mp h, entry_zero_col]
      rfl
    · rw [h, entry_zero_col]
      rfl

/-- A row that is filled to its end is a filled row. -/
theorem nextRow (h : FilledTo a b r a.length align) : FilledTo a b (r + 1) 0 align where
  dom := h.dom
  cell r' c' hc hrc := by
    refine h.cell r' c' hc ?_
    omega

theorem read (h : FilledTo a b r c align) {r' c' : ℕ} (hr : r' ≤ b.length)
    (hc : c' ≤ a.length) (hrc : r' ≤ r ∨ r' = r + 1 ∧ c' ≤ c ∨ c' = 0) :
    (align.read (r', c') : Call ℕ) = .ok (entry a b r' c') := by
  rw [Table.read_of_dom (by simp [h.dom, hr, hc]), h.cell r' c' hc hrc]

/-- Writing the next entry. -/
theorem write (h : FilledTo a b r c align) (hr : r < b.length) (hc : c < a.length) :
    ∃ align', (align.write (r + 1, c + 1) (entry a b (r + 1) (c + 1)) : Call Align) =
      .ok align' ∧ FilledTo a b r (c + 1) align' := by
  have hdom : align.dom (r + 1, c + 1) = true := by
    simp only [h.dom, Bool.and_eq_true, decide_eq_true_eq]
    omega
  refine ⟨_, Table.write_of_dom hdom _, h.dom, fun r' c' hc' hrc ↦ ?_⟩
  by_cases heq : (r', c') = (r + 1, c + 1)
  · obtain ⟨rfl, rfl⟩ := Prod.mk.inj heq
    exact Table.set_cell_self _ _ _
  · rw [Table.set_cell_of_ne _ heq]
    refine h.cell r' c' hc' ?_
    simp only [Prod.mk.injEq, not_and] at heq
    omega

end FilledTo

/-- One cell of the table. -/
theorem alignCell_spec {a b x y : List Byte} {r c : ℕ} {align : Align}
    (h : FilledTo a b r c align) (hr : r < b.length) (hc : c < a.length) :
    ∃ align', alignCell (a ++ x) (b ++ y) (r + 1) (c + 1) align = .ok align' ∧
      FilledTo a b r (c + 1) align' := by
  have ha : a[c]? = some a[c] := List.getElem?_eq_getElem hc
  have hb : b[r]? = some b[r] := List.getElem?_eq_getElem hr
  have hreada : (readAt (a ++ x) c : Call Byte) = .ok a[c] :=
    readAt_of_getElem? (by rw [List.getElem?_append_left hc, ha])
  have hreadb : (readAt (b ++ y) r : Call Byte) = .ok b[r] :=
    readAt_of_getElem? (by rw [List.getElem?_append_left hr, hb])
  obtain ⟨align', hwrite, hfilled⟩ := h.write hr hc
  refine ⟨align', ?_, hfilled⟩
  simp only [alignCell, Nat.add_sub_cancel, hreada, hreadb, Run.ok_bind]
  split
  · rename_i heq
    rw [h.read (Nat.le_of_lt hr) (Nat.le_of_lt hc) (.inl (Nat.le_refl r)), Run.ok_bind,
      ← entry_succ_of_eq ha (heq ▸ hb)]
    exact hwrite
  · rename_i hne
    rw [h.read (Nat.le_of_lt hr) hc (.inl (Nat.le_refl r)), Run.ok_bind,
      h.read hr (Nat.le_of_lt hc) (.inr (.inl ⟨rfl, Nat.le_refl c⟩)), Run.ok_bind]
    have hmax : (if entry a b r (c + 1) ≥ entry a b (r + 1) c then entry a b r (c + 1)
        else entry a b (r + 1) c) = entry a b (r + 1) (c + 1) := by
      rw [entry_succ_of_ne ha hb hne]
      grind
    rw [hmax]
    exact hwrite

/-- The table is filled with the lengths of the longest common subsequences of the
prefixes. -/
theorem fillAlign_spec (a b x y : List Byte) :
    ∃ align, fillAlign (a ++ x) (b ++ y) a.length b.length = .ok align ∧
      FilledTo a b b.length 0 align := by
  refine forLoop_spec (FilledTo a b · 0) (FilledTo.init a b) fun r align hr h ↦ ?_
  obtain ⟨align', hrun, hfilled⟩ := forLoop_spec (FilledTo a b r) h
    fun c align hc h ↦ alignCell_spec (x := x) (y := y) h hr hc
  exact ⟨align', hrun, hfilled.nextRow⟩

/-! ## The walk back -/

/-- The invariant of the walk: what is written so far is common to the rests behind
the current position, ends in the terminator, and together with the current entry
has the length `n` of the whole. -/
structure Traced (a b : List Byte) (n : ℕ) (s : Traceback) : Prop where
  r_le : s.r ≤ b.length
  c_le : s.c ≤ a.length
  i_eq : s.i = entry a b s.r s.c
  suffix : ∃ w junk, s.result.drop s.i = w ++ 0 :: junk ∧ w.length + s.i = n ∧
    IsCommon w (a.drop s.c) (b.drop s.r)
  written : s.written = List.range' s.i (n + 1 - s.i)

variable {a b x y : List Byte} {align : Align} {s : Traceback} {n : ℕ}

/-- A round starts in a state whose position and entry are successors. -/
theorem guard_pos {r c i : ℕ} {result : List Byte} {written : List ℕ}
    (hg : traceGuard ⟨r, c, i, result, written⟩ = true) :
    (∃ r', r = r' + 1) ∧ (∃ c', c = c' + 1) ∧ ∃ i', i = i' + 1 := by
  simp only [traceGuard, Bool.and_eq_true, decide_eq_true_eq] at hg
  obtain ⟨⟨hi, hr⟩, hc⟩ := hg
  exact ⟨Nat.exists_eq_succ_of_ne_zero hr.ne', Nat.exists_eq_succ_of_ne_zero hc.ne',
    Nat.exists_eq_succ_of_ne_zero hi.ne'⟩

/-- Everything a round of the walk can find: one of the two neighbours has the same
entry, or the two bytes agree and extend the diagonal entry by one. -/
theorem branch_cases (h : FilledTo a b b.length 0 align) {r c i : ℕ} (result : List Byte)
    (written : List ℕ) (hr : r < b.length) (hc : c < a.length)
    (hi : i + 1 = entry a b (r + 1) (c + 1)) :
    (branch align ⟨r + 1, c + 1, i + 1, result, written⟩ = .ok (some .up) ∧
      i + 1 = entry a b r (c + 1)) ∨
    (branch align ⟨r + 1, c + 1, i + 1, result, written⟩ = .ok (some .left) ∧
      i + 1 = entry a b (r + 1) c) ∨
    (branch align ⟨r + 1, c + 1, i + 1, result, written⟩ = .ok (some .diag) ∧
      i = entry a b r c ∧ ∃ z, a[c]? = some z ∧ b[r]? = some z) := by
  have hup := h.read (Nat.le_of_lt hr) hc (.inl (Nat.le_of_lt hr))
  have hleft := h.read hr (Nat.le_of_lt hc) (.inl hr)
  have hdiag := h.read (Nat.le_of_lt hr) (Nat.le_of_lt hc) (.inl (Nat.le_of_lt hr))
  have hb : branch align ⟨r + 1, c + 1, i + 1, result, written⟩ =
      .ok (if entry a b r (c + 1) = i + 1 then some .up
        else if entry a b (r + 1) c = i + 1 then some .left
        else if entry a b r c = i then some .diag else none) := by
    simp only [branch, Nat.add_sub_cancel, hup, hleft, hdiag, Run.ok_bind]
    split_ifs <;> rfl
  by_cases h₁ : entry a b r (c + 1) = i + 1
  · exact .inl ⟨by rw [hb, if_pos h₁], h₁.symm⟩
  · by_cases h₂ : entry a b (r + 1) c = i + 1
    · exact .inr (.inl ⟨by rw [hb, if_neg h₁, if_pos h₂], h₂.symm⟩)
    · have hza : a[c]? = some a[c] := List.getElem?_eq_getElem hc
      have hzb : b[r]? = some b[r] := List.getElem?_eq_getElem hr
      -- Different bytes would make the entry that of one of the neighbours.
      have heq : a[c] = b[r] := by
        by_contra hne
        have := entry_succ_of_ne hza hzb hne
        omega
      have h₃ : entry a b r c = i := by
        have := entry_succ_of_eq hza (heq ▸ hzb)
        omega
      exact .inr (.inr ⟨by rw [hb, if_neg h₁, if_neg h₂, if_pos h₃], h₃.symm, a[c], hza,
        heq ▸ hzb⟩)

/-- The read at the end of a round. -/
theorem read_entry (h : FilledTo a b b.length 0 align) {r c : ℕ} (hr : r ≤ b.length)
    (hc : c ≤ a.length) : (align.read (r, c) : Call ℕ) = .ok (entry a b r c) :=
  h.read hr hc (.inl hr)

theorem drop_set_eq_cons {l : List Byte} {i : ℕ} (hi : i < l.length) (z : Byte) :
    (l.set i z).drop i = z :: l.drop (i + 1) := by
  rw [List.drop_eq_getElem_cons (by simpa using hi), List.getElem_set_self,
    List.drop_set_of_lt (Nat.lt_succ_self i)]

theorem drop_eq_cons {l : List Byte} {i : ℕ} {z : Byte} (h : l[i]? = some z) :
    l.drop i = z :: l.drop (i + 1) := by
  obtain ⟨hi, rfl⟩ := List.getElem?_eq_some_iff.mp h
  exact List.drop_eq_getElem_cons hi

/-- One round keeps the invariant and comes closer to the origin. -/
theorem traceStep_spec (h : FilledTo a b b.length 0 align) (hs : Traced a b n s)
    (hg : traceGuard s = true) :
    ∃ s', traceStep align (b ++ y) s = .ok s' ∧ Traced a b n s' ∧ s'.r + s'.c < s.r + s.c := by
  obtain ⟨r, c, i, result, written⟩ := s
  obtain ⟨⟨r, rfl⟩, ⟨c, rfl⟩, ⟨i, rfl⟩⟩ := guard_pos hg
  obtain ⟨hr, hc, hi, ⟨w, junk, hdrop, hlen, hwa, hwb⟩, hwritten⟩ := hs
  dsimp only at hr hc hi hdrop hlen hwa hwb hwritten
  have hra : (align.read (r, c + 1) : Call ℕ) = .ok (entry a b r (c + 1)) :=
    read_entry h (Nat.le_of_lt hr) hc
  have hla : (align.read (r + 1, c) : Call ℕ) = .ok (entry a b (r + 1) c) :=
    read_entry h hr (Nat.le_of_lt hc)
  have hda : (align.read (r, c) : Call ℕ) = .ok (entry a b r c) :=
    read_entry h (Nat.le_of_lt hr) (Nat.le_of_lt hc)
  have hdropa : w.Sublist (a.drop c) := hwa.trans (List.drop_sublist_drop_left a (Nat.le_succ c))
  have hdropb : w.Sublist (b.drop r) := hwb.trans (List.drop_sublist_drop_left b (Nat.le_succ r))
  rcases branch_cases h result written hr hc hi with
    ⟨hb, he⟩ | ⟨hb, he⟩ | ⟨hb, he, z, hza, hzb⟩
  · -- The row above has the same entry.
    refine ⟨⟨r, c + 1, i + 1, result, written⟩, ?_,
      ⟨Nat.le_of_lt hr, hc, he, ⟨w, junk, hdrop, hlen, hwa, hdropb⟩, hwritten⟩, ?_⟩
    · simp only [traceStep, hb, move, Run.ok_bind, pure, Except.pure, Nat.add_sub_cancel, hra,
        ← he]
    · exact Nat.add_lt_add_right (Nat.lt_succ_self r) _
  · -- The column to the left has the same entry.
    refine ⟨⟨r + 1, c, i + 1, result, written⟩, ?_,
      ⟨hr, Nat.le_of_lt hc, he, ⟨w, junk, hdrop, hlen, hdropa, hwb⟩, hwritten⟩, ?_⟩
    · simp only [traceStep, hb, move, Run.ok_bind, pure, Except.pure, Nat.add_sub_cancel, hla,
        ← he]
    · exact Nat.add_lt_add_left (Nat.lt_succ_self c) _
  · -- The byte is shared; it goes in front of what is written.
    have hbr : (readAt (b ++ y) r : Call Byte) = .ok z := by
      obtain ⟨hlt, -⟩ := List.getElem?_eq_some_iff.mp hzb
      exact readAt_of_getElem? (by rw [List.getElem?_append_left hlt, hzb])
    have hir : i < result.length := by
      have := congrArg List.length hdrop
      simp only [List.length_drop, List.length_append, List.length_cons] at this
      omega
    have hwr : (writeAt result i z : Call (List Byte)) = .ok (result.set i z) :=
      writeAt_of_lt hir z
    refine ⟨⟨r, c, i, result.set i z, i :: written⟩, ?_,
      ⟨Nat.le_of_lt hr, Nat.le_of_lt hc, he, ⟨z :: w, junk, ?_, ?_, ?_, ?_⟩, ?_⟩, ?_⟩
    · simp only [traceStep, hb, move, Run.ok_bind, pure, Except.pure, Nat.add_sub_cancel, hbr,
        hwr, hda, ← he]
    · rw [drop_set_eq_cons hir, hdrop, List.cons_append]
    · change w.length + 1 + i = n
      omega
    · rw [drop_eq_cons hza]
      exact hwa.cons_cons z
    · rw [drop_eq_cons hzb]
      exact hwb.cons_cons z
    · have : n + 1 - i = (n + 1 - (i + 1)) + 1 := by omega
      rw [this, List.range'_succ, hwritten]
    · exact Nat.add_lt_add (Nat.lt_succ_self r) (Nat.lt_succ_self c)

/-- The state in which the walk begins. -/
theorem traceStart_spec (garbage : ℕ → Byte) (h : FilledTo a b b.length 0 align) :
    ∃ s, traceStart garbage align a.length b.length = .ok s ∧
      Traced a b (lcsLength a b) s ∧ s.r + s.c = b.length + a.length := by
  have hi : (align.read (b.length, a.length) : Call ℕ) = .ok (lcsLength a b) := by
    rw [read_entry h (Nat.le_refl _) (Nat.le_refl _), entry_full]
  let block := palloc garbage ((if a.length > b.length then a.length else b.length) + 1)
  have hlt : lcsLength a b < block.length := by
    have := lcsLength_le_left a b
    have := lcsLength_le_right a b
    simp only [block, palloc, List.length_map, List.length_range]
    split_ifs <;> omega
  refine ⟨⟨b.length, a.length, lcsLength a b, block.set (lcsLength a b) 0, [lcsLength a b]⟩, ?_,
    ⟨Nat.le_refl _, Nat.le_refl _, (entry_full a b).symm,
      ⟨[], _, drop_set_eq_cons hlt 0, Nat.zero_add _, isCommon_nil _ _⟩, ?_⟩, rfl⟩
  · rw [traceStart, hi, Run.ok_bind, writeAt_of_lt hlt]
    rfl
  · rw [Nat.add_sub_cancel_left]
    rfl

/-- The walk ends at an entry zero, with the whole result in place. -/
theorem Traced.finish (hs : Traced a b n s) (hg : traceGuard s = false) (ha : 0 ∉ a) :
    ∃ w, w.length = n ∧ IsCommon w a b ∧ s.written = List.range (n + 1) ∧
      (strlen s.result : Call ℕ) = .ok w.length ∧ s.result.take w.length = w := by
  have hi : s.i = 0 := by
    rw [traceGuard, Bool.and_eq_false_iff, Bool.and_eq_false_iff] at hg
    simp only [decide_eq_false_iff_not, Nat.not_lt, gt_iff_lt, Nat.le_zero] at hg
    rcases hg with (hi | hr) | hc
    · exact hi
    · rw [hs.i_eq, hr, entry_zero_row]
    · rw [hs.i_eq, hc, entry_zero_col]
  obtain ⟨w, junk, hdrop, hlen, hcommon⟩ := hs.suffix
  have hw : IsCommon w a b := hcommon.mono (List.drop_sublist _ _) (List.drop_sublist _ _)
  rw [hi, List.drop_zero] at hdrop
  refine ⟨w, by omega, hw, ?_, ?_, ?_⟩
  · rw [hs.written, hi, List.range_eq_range']
    rfl
  · rw [hdrop]
    exact strlen_append_zero (fun h0 ↦ ha (hw.1.subset h0)) junk
  · rw [hdrop, List.take_left]

/-- A branch applies in every state the walk visits. -/
theorem exists_branch (h : FilledTo a b b.length 0 align) (hs : Traced a b n s)
    {t : Traceback} (ht : Reaches traceGuard (traceStep align (b ++ y)) s t)
    (hg : traceGuard t = true) : ∃ br, branch align t = .ok (some br) := by
  have hinv : Traced a b n t := ht.invariant (fun u u' hu hgu hstep ↦ by
    obtain ⟨u'', hu'', hkeep, -⟩ := traceStep_spec (y := y) h hu hgu
    rw [hstep] at hu''
    exact Except.ok.inj hu'' ▸ hkeep) hs
  obtain ⟨r, c, i, result, written⟩ := t
  obtain ⟨⟨r, rfl⟩, ⟨c, rfl⟩, ⟨i, rfl⟩⟩ := guard_pos hg
  rcases branch_cases h result written hinv.r_le hinv.c_le hinv.i_eq with
    ⟨hbr, -⟩ | ⟨hbr, -⟩ | ⟨hbr, -⟩
  · exact ⟨_, hbr⟩
  · exact ⟨_, hbr⟩
  · exact ⟨_, hbr⟩

/-- The walk from its first state to its last. -/
theorem walk_spec (garbage : ℕ → Byte) (y : List Byte) (h : FilledTo a b b.length 0 align)
    (h0 : 0 ∉ a) {fuel : ℕ} (hfuel : a.length + b.length ≤ fuel) :
    ∃ s s' w, traceStart garbage align a.length b.length = .ok s ∧
      (∀ t, Reaches traceGuard (traceStep align (b ++ y)) s t → traceGuard t = true →
        ∃ br, branch align t = .ok (some br)) ∧
      whileLoop traceGuard (traceStep align (b ++ y)) fuel s = .ok s' ∧
      s'.written = List.range (w.length + 1) ∧ (strlen s'.result : Call ℕ) = .ok w.length ∧
      s'.result.take w.length = w ∧ IsLcs w a b := by
  obtain ⟨s, hstart, hs, hsum⟩ := traceStart_spec garbage h
  obtain ⟨s', hloop, hs', hg⟩ := whileLoop_spec (Traced a b (lcsLength a b))
    (fun t ↦ t.r + t.c) (fun t ht hg ↦ traceStep_spec (y := y) h ht hg) hs
    (show s.r + s.c ≤ fuel by omega)
  obtain ⟨w, hlen, hw, hwritten, hstrlen, htake⟩ := hs'.finish hg h0
  exact ⟨s, s', w, hstart, fun t ht hgt ↦ exists_branch h hs ht hgt, hloop, hlen ▸ hwritten,
    hstrlen, htake, isLcs_of_length hw hlen⟩

/-! ## The whole function -/

/-- `same` returns what its parts leave in the result buffer. -/
theorem same_eq {garbage : ℕ → Byte} {str1 str2 : List Byte} {len1 len2 fuel : ℕ}
    {s s' : Traceback} {w : List Byte} (h1 : len1 ≠ 0) (h2 : len2 ≠ 0)
    (hfill : fillAlign str1 str2 len1 len2 = .ok align)
    (hstart : traceStart garbage align len1 len2 = .ok s)
    (hloop : whileLoop traceGuard (traceStep align str2) fuel s = .ok s')
    (hlen : (strlen s'.result : Call ℕ) = .ok w.length) (htake : s'.result.take w.length = w) :
    same garbage fuel str1 len1 str2 len2 = .ok (some w) := by
  rw [same, if_neg (not_or.mpr ⟨h1, h2⟩), hfill, Run.ok_bind, hstart, Run.ok_bind, hloop,
    Run.ok_bind, hlen, Run.ok_bind, htake]
  rfl

/-- `same` returns a longest common subsequence of its arguments. -/
theorem same_isLcs (garbage : ℕ → Byte) (x y : List Byte) (ha : a ≠ []) (hb : b ≠ [])
    (h0 : 0 ∉ a) {fuel : ℕ} (hfuel : a.length + b.length ≤ fuel) :
    ∃ w, same garbage fuel (a ++ x) a.length (b ++ y) b.length = .ok (some w) ∧
      IsLcs w a b := by
  obtain ⟨align, hfill, h⟩ := fillAlign_spec a b x y
  obtain ⟨s, s', w, hstart, -, hloop, -, hlen, htake, hw⟩ := walk_spec garbage y h h0 hfuel
  exact ⟨w, same_eq (mt List.eq_nil_of_length_eq_zero ha) (mt List.eq_nil_of_length_eq_zero hb)
    hfill hstart hloop hlen htake, hw⟩

/-- **`same` is correct.**  On strings without zero bytes, followed in memory by
anything, the table is filled, a branch of the walk applies in every state it visits,
the walk ends, every position of the result and its terminator has been written
exactly once, and the result is a longest common subsequence.  No access is out of
bounds, since the run returns. -/
theorem same_correct (garbage : ℕ → Byte) (a b x y : List Byte) (ha : a ≠ []) (hb : b ≠ [])
    (h0 : 0 ∉ a) (fuel : ℕ) (hfuel : a.length + b.length ≤ fuel) :
    ∃ align s s' w, fillAlign (a ++ x) (b ++ y) a.length b.length = .ok align ∧
      traceStart garbage align a.length b.length = .ok s ∧
      (∀ t, Reaches traceGuard (traceStep align (b ++ y)) s t → traceGuard t = true →
        ∃ br, branch align t = .ok (some br)) ∧
      whileLoop traceGuard (traceStep align (b ++ y)) fuel s = .ok s' ∧
      s'.written = List.range (w.length + 1) ∧
      same garbage fuel (a ++ x) a.length (b ++ y) b.length = .ok (some w) ∧
      w.Sublist a ∧ w.Sublist b ∧
      ∀ v : List Byte, v.Sublist a → v.Sublist b → v.length ≤ w.length := by
  obtain ⟨align, hfill, h⟩ := fillAlign_spec a b x y
  obtain ⟨s, s', w, hstart, hbranch, hloop, hwritten, hlen, htake, ⟨hwa, hwb⟩, hmax⟩ :=
    walk_spec garbage y h h0 hfuel
  have hsame := same_eq (mt List.eq_nil_of_length_eq_zero ha)
    (mt List.eq_nil_of_length_eq_zero hb) hfill hstart hloop hlen htake
  exact ⟨align, s, s', w, hfill, hstart, hbranch, hloop, hwritten, hsame, hwa, hwb,
    fun v hva hvb ↦ hmax v ⟨hva, hvb⟩⟩

/-- The strings `ab` and `bcb`, in a buffer full of sevens. -/
theorem same_correct_ab_bcb :
    ∃ align s s' w, fillAlign ([97, 98] ++ []) ([98, 99, 98] ++ []) 2 3 = .ok align ∧
      traceStart (fun _ ↦ 7) align 2 3 = .ok s ∧
      (∀ t, Reaches traceGuard (traceStep align ([98, 99, 98] ++ [])) s t →
        traceGuard t = true → ∃ br, branch align t = .ok (some br)) ∧
      whileLoop traceGuard (traceStep align ([98, 99, 98] ++ [])) 5 s = .ok s' ∧
      s'.written = List.range (w.length + 1) ∧
      same (fun _ ↦ 7) 5 ([97, 98] ++ []) 2 ([98, 99, 98] ++ []) 3 = .ok (some w) ∧
      w.Sublist [97, 98] ∧ w.Sublist [98, 99, 98] ∧
      ∀ v : List Byte, v.Sublist [97, 98] → v.Sublist [98, 99, 98] → v.length ≤ w.length :=
  same_correct (fun _ ↦ 7) [97, 98] [98, 99, 98] [] [] (by decide) (by decide) (by decide) 5
    (by decide)

end PgKmcb.Text
