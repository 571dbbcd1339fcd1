import Mathlib.Order.Lattice.Nat
import Mathlib.Tactic.Common

/-!
# Sliding windows

The runs of so many consecutive elements of a list overlap: what one of them has behind its
first element is what the next one has in front of its last.  A list of runs of which
neighbours overlap like that can be joined again, and it is the list of the runs of what it
is joined to: between the lists and the chains of overlapping runs, `slide` and `join` are
inverse to each other (`join_slide`, `slide_join`).
-/

universe u

namespace PgKmcb.Lib

variable {α : Type u}

/-- The runs of `k` consecutive elements, and the whole list where it is shorter. -/
def slide (k : ℕ) (xs : List α) : List (List α) :=
  (List.range (max 1 (xs.length + 1 - k))).map fun i ↦ (xs.drop i).take k

/-- The first element of every run but the last one, and then that one. -/
def join : List (List α) → List α
  | [] => []
  | [w] => w
  | w :: v :: ws => w.take 1 ++ join (v :: ws)

/-- A single run, or runs of `k` elements of which each but the last goes on in the next. -/
inductive Overlapping (k : ℕ) : List (List α) → Prop
  | single {w : List α} : w.length ≤ k → Overlapping k [w]
  | cons (x : α) {v : List α} {ws : List (List α)} : v.length = k → Overlapping k (v :: ws) →
      Overlapping k ((x :: v.dropLast) :: v :: ws)

variable {k : ℕ} {xs : List α}

theorem slide_of_le (h : xs.length ≤ k) : slide k xs = [xs] := by
  have hone : max 1 (xs.length + 1 - k) = 1 := by omega
  rw [slide, hone, List.range_one, List.map_singleton, List.drop_zero, List.take_of_length_le h]

/-- A list with one element more in front has one run more. -/
theorem slide_cons (x : α) (h : k ≤ xs.length) :
    slide k (x :: xs) = (x :: xs).take k :: slide k xs := by
  have hcount : max 1 ((x :: xs).length + 1 - k) = max 1 (xs.length + 1 - k) + 1 := by
    rw [List.length_cons]
    omega
  rw [slide, slide, hcount, List.range_succ_eq_map, List.map_cons, List.map_map]
  rfl

/-- The first run. -/
theorem head?_slide (k : ℕ) (xs : List α) : (slide k xs).head? = some (xs.take k) := by
  obtain ⟨n, hn⟩ : ∃ n, max 1 (xs.length + 1 - k) = n + 1 :=
    Nat.exists_eq_add_one_of_ne_zero (by omega)
  rw [slide, hn, List.range_succ_eq_map]
  rfl

theorem exists_slide_eq_cons (k : ℕ) (xs : List α) : ∃ ws, slide k xs = xs.take k :: ws := by
  obtain ⟨ws, hws⟩ := List.head?_eq_some_iff.mp (head?_slide k xs)
  exact ⟨ws, hws⟩

theorem dropLast_take_succ {n : ℕ} (h : n + 1 ≤ xs.length) :
    (xs.take (n + 1)).dropLast = xs.take n := by
  rw [List.dropLast_eq_take, List.length_take_of_le h, List.take_take, Nat.add_sub_cancel,
    Nat.min_eq_left (Nat.le_succ n)]

/-- The runs of a list overlap and are joined to the list. -/
theorem overlapping_slide (hk : 0 < k) (xs : List α) :
    Overlapping k (slide k xs) ∧ join (slide k xs) = xs := by
  induction xs with
  | nil =>
      rw [slide_of_le (Nat.zero_le k)]
      exact ⟨.single (Nat.zero_le k), rfl⟩
  | cons x xs ih =>
      rcases Nat.lt_or_ge xs.length k with hlt | hle
      · rw [slide_of_le hlt]
        exact ⟨.single hlt, rfl⟩
      · obtain ⟨ws, hws⟩ := exists_slide_eq_cons k xs
        obtain ⟨n, rfl⟩ := Nat.exists_eq_add_one_of_ne_zero hk.ne'
        rw [hws] at ih
        have hlast := dropLast_take_succ hle
        rw [slide_cons x hle, hws, List.take_succ_cons, ← hlast]
        refine ⟨.cons x (List.length_take_of_le hle) ih.1, ?_⟩
        rw [join, ih.2]
        rfl

theorem join_slide (hk : 0 < k) (xs : List α) : join (slide k xs) = xs :=
  (overlapping_slide hk xs).2

/-- Runs that overlap are the runs of what they are joined to. -/
theorem slide_join (hk : 0 < k) {ws : List (List α)} (h : Overlapping k ws) :
    slide k (join ws) = ws := by
  induction h with
  | single hw => exact slide_of_le hw
  | @cons x v ws hv _ ih =>
      have hfirst : (join (v :: ws)).take k = v := by
        have hhead := head?_slide k (join (v :: ws))
        rw [ih] at hhead
        exact (Option.some.inj hhead).symm
      have hle : k ≤ (join (v :: ws)).length := by
        have hlen := congrArg List.length hfirst
        rw [List.length_take, hv] at hlen
        omega
      obtain ⟨n, rfl⟩ := Nat.exists_eq_add_one_of_ne_zero hk.ne'
      have hlast := dropLast_take_succ hle
      rw [hfirst] at hlast
      rw [join, List.take_succ_cons, List.take_zero, List.singleton_append, slide_cons x hle, ih,
        List.take_succ_cons, ← hlast]

end PgKmcb.Lib
