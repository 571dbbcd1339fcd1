import Mathlib.Order.Monotone.Basic
import Mathlib.Order.Nat
import Mathlib.Tactic.Common

/-!
# Walks by announced sizes

A format without an index is walked from item to item: the first element of an item says
how long the item is, and the next one begins there.  `pos` is where the walk stands after
a number of steps, on any list, whether it is well formed or not; once the walk has left the
list it stays where it is.

If the sizes are positive the walk leaves every list (`exists_steps`).  It need not leave it
at its end: the last item may announce more than there is.  `MeetsEnd` says that it does not.
-/

universe u

namespace PgKmcb.Lib.Walk

variable {α : Type u}

/-- The position after a number of steps. -/
def pos (size : α → ℕ) (xs : List α) : ℕ → ℕ
  | 0 => 0
  | n + 1 => pos size xs n + (xs[pos size xs n]?.map size).getD 0

/-- The number of steps after which the list has been left for the first time. -/
structure Steps (size : α → ℕ) (xs : List α) (n : ℕ) : Prop where
  lt : ∀ j < n, pos size xs j < xs.length
  le : xs.length ≤ pos size xs n

/-- The announced sizes add up to the length of the list. -/
def MeetsEnd (size : α → ℕ) (xs : List α) : Prop := pos size xs xs.length = xs.length

variable {size : α → ℕ} {xs : List α} {n : ℕ}

theorem pos_succ_of_getElem? {a : α} (h : xs[pos size xs n]? = some a) :
    pos size xs (n + 1) = pos size xs n + size a := by
  rw [pos, h]
  rfl

theorem pos_succ_of_le (h : xs.length ≤ pos size xs n) : pos size xs (n + 1) = pos size xs n := by
  rw [pos, List.getElem?_eq_none h]
  rfl

theorem pos_mono (size : α → ℕ) (xs : List α) : Monotone (pos size xs) :=
  monotone_nat_of_le_succ fun _ ↦ Nat.le_add_right _ _

/-- Behind the list there are no more steps. -/
theorem pos_eq_of_le (h : xs.length ≤ pos size xs n) {m : ℕ} (hm : n ≤ m) :
    pos size xs m = pos size xs n := by
  induction m, hm using Nat.le_induction with
  | base => rfl
  | succ m _ ih => rw [pos_succ_of_le (ih ▸ h), ih]

/-- No step goes further than the largest size. -/
theorem pos_add_le {b : ℕ} (hb : ∀ a, size a ≤ b) (xs : List α) (n w : ℕ) :
    pos size xs (n + w) ≤ pos size xs n + b * w := by
  induction w with
  | zero => exact le_rfl
  | succ w ih =>
      rw [← Nat.add_assoc, pos, Nat.mul_succ, ← Nat.add_assoc]
      refine Nat.add_le_add ih ?_
      cases xs[pos size xs (n + w)]? with
      | none => exact Nat.zero_le b
      | some a => exact hb a

/-- In the list every step goes on. -/
theorem lt_pos_succ (hsize : ∀ a, 0 < size a) (h : pos size xs n < xs.length) :
    pos size xs n < pos size xs (n + 1) := by
  rw [pos_succ_of_getElem? (List.getElem?_eq_getElem h)]
  exact Nat.lt_add_of_pos_right (hsize _)

/-- After as many steps as the list is long it has been left. -/
theorem min_le_pos (hsize : ∀ a, 0 < size a) (xs : List α) (n : ℕ) :
    min n xs.length ≤ pos size xs n := by
  induction n with
  | zero => exact Nat.min_le_left _ _
  | succ n ih =>
      rcases Nat.lt_or_ge (pos size xs n) xs.length with hlt | hge
      · have hnext := lt_pos_succ hsize hlt
        omega
      · rw [pos_succ_of_le hge]
        exact (Nat.min_le_right _ _).trans hge

/-- The walk leaves the list. -/
theorem exists_steps (hsize : ∀ a, 0 < size a) (xs : List α) : ∃ n, Steps size xs n := by
  have hex : ∃ n, xs.length ≤ pos size xs n := by
    have hleft := min_le_pos hsize xs xs.length
    rw [Nat.min_self] at hleft
    exact ⟨xs.length, hleft⟩
  exact ⟨Nat.find hex, fun j hj ↦ Nat.lt_of_not_le (Nat.find_min hex hj), Nat.find_spec hex⟩

namespace Steps

theorem pos_of_ne_nil (h : Steps size xs n) (hxs : xs ≠ []) : 0 < n := by
  refine Nat.pos_of_ne_zero ?_
  rintro rfl
  exact hxs (List.eq_nil_of_length_eq_zero (Nat.le_zero.mp h.le))

/-- An item has one element at least. -/
theorem le_length (h : Steps size xs n) (hsize : ∀ a, 0 < size a) : n ≤ xs.length := by
  by_contra hn
  have hlt := h.lt xs.length (Nat.lt_of_not_le hn)
  have hleft := min_le_pos hsize xs xs.length
  rw [Nat.min_self] at hleft
  exact absurd hlt (Nat.not_lt.mpr hleft)

theorem add_le_pos (h : Steps size xs n) (hsize : ∀ a, 0 < size a) {i w : ℕ} (hi : i + w ≤ n) :
    pos size xs i + w ≤ pos size xs (i + w) := by
  induction w with
  | zero => exact le_rfl
  | succ w ih =>
      have hlt := lt_pos_succ hsize (h.lt (i + w) hi)
      exact (Nat.succ_le_succ (ih (Nat.le_of_succ_le hi))).trans hlt

/-- A list is not left by more than an item. -/
theorem pos_lt_add (h : Steps size xs n) (hxs : xs ≠ []) {b : ℕ} (hb : ∀ a, size a ≤ b) :
    pos size xs n < xs.length + b := by
  obtain ⟨j, rfl⟩ := Nat.exists_eq_add_one_of_ne_zero (h.pos_of_ne_nil hxs).ne'
  have hlt := h.lt j (Nat.lt_succ_self j)
  rw [pos_succ_of_getElem? (List.getElem?_eq_getElem hlt)]
  exact Nat.add_lt_add_of_lt_of_le hlt (hb _)

/-- Where the walk leaves the list decides whether it meets its end. -/
theorem meetsEnd_iff (h : Steps size xs n) (hsize : ∀ a, 0 < size a) :
    MeetsEnd size xs ↔ pos size xs n = xs.length := by
  rw [MeetsEnd, pos_eq_of_le h.le (h.le_length hsize)]

end Steps

/-! ## Lists of items

Every list is a list of items with the beginning of one more behind them, of which there
may be nothing. -/

/-- An item is as long as its first element says. -/
def IsItem (size : α → ℕ) (item : List α) : Prop :=
  ∃ a rest, item = a :: rest ∧ size a = item.length

/-- The first elements of an item: fewer than there should be. -/
def IsCut (size : α → ℕ) (xs : List α) : Prop := ∀ a ∈ xs.head?, xs.length < size a

/-- An item in front of a list is one step. -/
theorem pos_item_append {item : List α} (h : IsItem size item) (xs : List α) (n : ℕ) :
    pos size (item ++ xs) (n + 1) = item.length + pos size xs n := by
  induction n with
  | zero =>
      obtain ⟨a, rest, rfl, ha⟩ := h
      simp [pos, ha]
  | succ n ih => rw [pos, ih, List.getElem?_append_right (Nat.le_add_right _ _), pos,
      Nat.add_sub_cancel_left, Nat.add_assoc]

theorem Steps.item_append {item : List α} (h : IsItem size item) (hn : Steps size xs n) :
    Steps size (item ++ xs) (n + 1) where
  lt j hj := by
    rw [List.length_append]
    cases j with
    | zero =>
        obtain ⟨a, rest, rfl, -⟩ := h
        exact Nat.add_pos_left (Nat.succ_pos _) _
    | succ j =>
        rw [pos_item_append h]
        exact Nat.add_lt_add_left (hn.lt j (Nat.lt_of_succ_lt_succ hj)) _
  le := by
    rw [List.length_append, pos_item_append h]
    exact Nat.add_le_add_left hn.le _

/-- The beginning of an item is left by one step, if there is anything of it. -/
theorem IsCut.steps (h : IsCut size xs) : Steps size xs (min 1 xs.length) := by
  cases xs with
  | nil => exact ⟨fun _ hj ↦ absurd hj (Nat.not_lt_zero _), le_rfl⟩
  | cons a xs =>
      rw [List.length_cons, Nat.min_eq_left (Nat.succ_pos _)]
      refine ⟨fun j hj ↦ ?_, ?_⟩
      · rw [Nat.lt_one_iff.mp hj]
        exact Nat.succ_pos _
      · rw [pos, pos, Nat.zero_add]
        exact (h a rfl).le

/-- The walk over a list of items and the beginning of one more. -/
theorem steps_flatten {items : List (List α)} (h : ∀ item ∈ items, IsItem size item)
    (hxs : IsCut size xs) :
    Steps size (items.flatten ++ xs) (items.length + min 1 xs.length) ∧
      pos size (items.flatten ++ xs) (items.length + min 1 xs.length) =
        items.flatten.length + pos size xs (min 1 xs.length) := by
  induction items with
  | nil => simpa using hxs.steps
  | cons item items ih =>
      obtain ⟨hitem, hitems⟩ := List.forall_mem_cons.mp h
      obtain ⟨hsteps, hpos⟩ := ih hitems
      rw [List.flatten_cons, List.append_assoc, List.length_cons, Nat.add_right_comm,
        pos_item_append hitem, hpos, List.length_append, Nat.add_assoc]
      exact ⟨hsteps.item_append hitem, (Nat.add_assoc _ _ _).symm⟩

/-- Every list is cut into items. -/
theorem exists_items (hsize : ∀ a, 0 < size a) (xs : List α) :
    ∃ (items : List (List α)) (rest : List α),
    (∀ item ∈ items, IsItem size item) ∧ IsCut size rest ∧ xs = items.flatten ++ rest := by
  induction h : xs.length using Nat.strong_induction_on generalizing xs with
  | _ k ih =>
      by_cases hcut : IsCut size xs
      · exact ⟨[], xs, List.forall_mem_nil _, hcut, rfl⟩
      · obtain ⟨a, ys, rfl⟩ : ∃ a ys, xs = a :: ys := by
          cases xs with
          | nil => exact absurd (fun _ ha ↦ by cases ha) hcut
          | cons a ys => exact ⟨a, ys, rfl⟩
        have hle : size a ≤ (a :: ys).length := by
          by_contra hlt
          exact hcut fun b hb ↦ by cases hb; exact Nat.lt_of_not_le hlt
        have hpos := hsize a
        obtain ⟨items, rest, hitems, hrest, heq⟩ := ih _ (by
          rw [← h, List.length_drop]
          omega) ((a :: ys).drop (size a)) rfl
        refine ⟨(a :: ys).take (size a) :: items, rest, ?_, hrest, ?_⟩
        · refine List.forall_mem_cons.mpr ⟨⟨a, ys.take (size a - 1), ?_, ?_⟩, hitems⟩
          · rw [← List.take_succ_cons, Nat.sub_add_cancel hpos]
          · rw [List.length_take, Nat.min_eq_left hle]
        · rw [List.flatten_cons, List.append_assoc, ← heq, List.take_append_drop]

end PgKmcb.Lib.Walk
