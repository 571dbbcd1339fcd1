import PgKmcb.Lib.Subsequence
import Mathlib.Algebra.Order.Field.Rat
import Mathlib.Tactic.FieldSimp
import Mathlib.Tactic.Linarith
import Mathlib.Tactic.Positivity

/-!
# The distance of a longest common subsequence

`lcsDist a b` is one less the part that a longest common subsequence takes of the
longer of two lists.  On lists that are not empty it is a metric.  Only
`lcsDist_triangle` needs an argument: two subsequences of one list have so many
elements in common as they are longer than that list (`exists_common`), and the three
lengths by which is divided are compared in `div_max_triangle`.
-/

universe u

namespace PgKmcb.Lib

open List

variable {α : Type u}

/-! ## Three lists -/

/-- Two subsequences of a list overlap in all by which they are longer than it
together. -/
theorem exists_common {v w b : List α} (hv : v <+ b) (hw : w <+ b) :
    ∃ u, u <+ v ∧ u <+ w ∧ v.length + w.length ≤ b.length + u.length := by
  induction b generalizing v w with
  | nil =>
      obtain rfl := sublist_nil.mp hv
      obtain rfl := sublist_nil.mp hw
      exact ⟨[], Sublist.refl _, Sublist.refl _, Nat.le_refl _⟩
  | cons x b ih =>
      cases hv with
      | cons _ hv =>
          cases hw with
          | cons _ hw =>
              obtain ⟨u, huv, huw, hlen⟩ := ih hv hw
              exact ⟨u, huv, huw, hlen.trans (by rw [length_cons]; omega)⟩
          | @cons_cons w _ _ hw =>
              obtain ⟨u, huv, huw, hlen⟩ := ih hv hw
              refine ⟨u, huv, huw.cons x, ?_⟩
              rw [length_cons, length_cons]
              omega
      | @cons_cons v _ _ hv =>
          cases hw with
          | cons _ hw =>
              obtain ⟨u, huv, huw, hlen⟩ := ih hv hw
              refine ⟨u, huv.cons x, huw, ?_⟩
              rw [length_cons, length_cons]
              omega
          | @cons_cons w _ _ hw =>
              obtain ⟨u, huv, huw, hlen⟩ := ih hv hw
              refine ⟨x :: u, huv.cons_cons x, huw.cons_cons x, ?_⟩
              rw [length_cons, length_cons, length_cons, length_cons]
              omega

/-- What the first and the last list have in common with the one between them. -/
theorem lcsLength_add_le (a b c : List α) :
    lcsLength a b + lcsLength b c ≤ b.length + lcsLength a c := by
  obtain ⟨v, ⟨hva, hvb⟩, hv⟩ := exists_isCommon_length a b
  obtain ⟨w, ⟨hwb, hwc⟩, hw⟩ := exists_isCommon_length b c
  obtain ⟨u, huv, huw, hlen⟩ := exists_common hvb hwb
  have hu : IsCommon u a c := ⟨huv.trans hva, huw.trans hwc⟩
  have hle := hu.length_le
  rw [← hv, ← hw]
  omega

theorem lcsLength_self (a : List α) : lcsLength a a = a.length :=
  le_antisymm (lcsLength_le_left a a) (IsCommon.length_le ⟨Sublist.refl a, Sublist.refl a⟩)

/-- Only equal lists have a common subsequence as long as the longer of them. -/
theorem lcsLength_eq_max_iff (a b : List α) :
    lcsLength a b = max a.length b.length ↔ a = b := by
  constructor
  · intro h
    obtain ⟨w, ⟨hwa, hwb⟩, hw⟩ := exists_isCommon_length a b
    have hla := hwa.length_le
    have hlb := hwb.length_le
    have ha : w = a := hwa.eq_of_length_le (by omega)
    have hb : w = b := hwb.eq_of_length_le (by omega)
    exact ha.symm.trans hb
  · rintro rfl
    rw [lcsLength_self, max_self]

/-! ## The metric -/

/-- The part of the longer list that a longest common subsequence leaves over. -/
noncomputable def lcsDist (a b : List α) : ℚ :=
  1 - (lcsLength a b : ℚ) / (max a.length b.length : ℕ)

variable {a b c : List α}

theorem max_length_pos (b : List α) (ha : a ≠ []) :
    (0 : ℚ) < (max a.length b.length : ℕ) := by
  have hpos := length_pos_of_ne_nil ha
  exact_mod_cast lt_max_of_lt_left hpos

theorem lcsDist_comm (a b : List α) : lcsDist a b = lcsDist b a := by
  rw [lcsDist, lcsDist, lcsLength_comm, max_comm]

theorem lcsDist_le_one (a b : List α) : lcsDist a b ≤ 1 := by
  have hdiv : (0 : ℚ) ≤ (lcsLength a b : ℚ) / (max a.length b.length : ℕ) := by positivity
  rw [lcsDist]
  linarith

theorem lcsDist_nonneg (b : List α) (ha : a ≠ []) : 0 ≤ lcsDist a b := by
  have hle : lcsLength a b ≤ max a.length b.length := le_max_of_le_left (lcsLength_le_left a b)
  rw [lcsDist, sub_nonneg, div_le_one (max_length_pos b ha)]
  exact_mod_cast hle

/-- The distance tells different lists apart. -/
theorem lcsDist_eq_zero_iff (b : List α) (ha : a ≠ []) : lcsDist a b = 0 ↔ a = b := by
  rw [lcsDist, sub_eq_zero, eq_comm, div_eq_one_iff_eq (max_length_pos b ha).ne',
    Nat.cast_inj, lcsLength_eq_max_iff]

/-- The inequality behind the triangle inequality, with the outer lengths in order. -/
theorem div_max_triangle_of_le {x y z p q r : ℚ} (hx : 0 < x) (hy : 0 < y) (hxz : x ≤ z)
    (hp : p ≤ y) (hr : 0 ≤ r) (h : p + q ≤ y + r) :
    p / max x y + q / max y z ≤ 1 + r / max x z := by
  have hz : 0 < z := hx.trans_le hxz
  rw [max_eq_right hxz]
  rcases le_total z y with hzy | hyz
  · -- the list in the middle is the longest
    have hdiv : r / y ≤ r / z := div_le_div_of_nonneg_left hr hz hzy
    have hsum : (p + q) / y ≤ 1 + r / y := by
      rw [div_le_iff₀ hy, add_mul, one_mul, div_mul_cancel₀ _ hy.ne']
      exact h
    rw [max_eq_right (hxz.trans hzy), max_eq_left hzy, ← add_div]
    exact hsum.trans (add_le_add_right hdiv 1)
  · rw [max_eq_right hyz]
    have hqr : q / z - r / z ≤ (y - p) / z := by
      rw [← sub_div]
      exact div_le_div_of_nonneg_right (by linarith) hz.le
    rcases le_total x y with hxy | hyx
    · -- its length lies between the two others
      have hyp : (y - p) / z ≤ (y - p) / y :=
        div_le_div_of_nonneg_left (by linarith) hy hyz
      have hone : (y - p) / y = 1 - p / y := by
        rw [sub_div, div_self hy.ne']
      rw [max_eq_right hxy]
      linarith
    · -- it is the shortest
      have hprod : p * (z - x) ≤ x * (z - y) := by
        calc p * (z - x) ≤ x * (z - x) :=
              mul_le_mul_of_nonneg_right (hp.trans hyx) (by linarith)
          _ ≤ x * (z - y) := mul_le_mul_of_nonneg_left (by linarith) hx.le
      have hyp : (y - p) / z ≤ 1 - p / x := by
        rw [div_le_iff₀ hz, sub_mul, one_mul, div_mul_eq_mul_div, le_sub_iff_add_le,
          ← le_sub_iff_add_le', div_le_iff₀ hx]
        linarith
      rw [max_eq_left hyx]
      linarith

/-- The same for outer lengths in any order. -/
theorem div_max_triangle {x y z p q r : ℚ} (hx : 0 < x) (hy : 0 < y) (hz : 0 < z) (hp : p ≤ y)
    (hq : q ≤ y) (hr : 0 ≤ r) (h : p + q ≤ y + r) :
    p / max x y + q / max y z ≤ 1 + r / max x z := by
  rcases le_total x z with hxz | hzx
  · exact div_max_triangle_of_le hx hy hxz hp hr h
  · have hswap := div_max_triangle_of_le hz hy hzx hq hr (by linarith : q + p ≤ y + r)
    rw [max_comm x y, max_comm y z, max_comm x z, add_comm]
    exact hswap

/-- **The triangle inequality**, for lists that are not empty. -/
theorem lcsDist_triangle (ha : a ≠ []) (hb : b ≠ []) (hc : c ≠ []) :
    lcsDist a c ≤ lcsDist a b + lcsDist b c := by
  have hpos : ∀ {l : List α}, l ≠ [] → (0 : ℚ) < l.length := fun hl ↦ by
    exact_mod_cast length_pos_of_ne_nil hl
  have hp : (lcsLength a b : ℚ) ≤ b.length := by exact_mod_cast lcsLength_le_right a b
  have hq : (lcsLength b c : ℚ) ≤ b.length := by exact_mod_cast lcsLength_le_left b c
  have hsum : (lcsLength a b : ℚ) + lcsLength b c ≤ b.length + lcsLength a c := by
    exact_mod_cast lcsLength_add_le a b c
  have hdiv := div_max_triangle (hpos ha) (hpos hb) (hpos hc) hp hq (Nat.cast_nonneg _) hsum
  rw [lcsDist, lcsDist, lcsDist]
  push_cast
  linarith

end PgKmcb.Lib
