import Mathlib.Data.List.Basic
import Mathlib.Order.Lattice.Nat
import Mathlib.Tactic.Common

/-!
# Common subsequences

`lcsLength a b` is the greatest length of a common subsequence of two lists, as a
supremum over all of them.  The first half of this file gives the recurrence that
dynamic programs over prefixes rely on, `lcsLength_concat_self` and
`lcsLength_concat_of_ne`.

The second half is about lists that are cut into blocks.  If blocks of the two
sides either agree or share no element, a longest common subsequence of the
flattened lists does not cut any block: it is the flattening of a common
subsequence of the two lists of blocks (`IsLcs.exists_blocks`).
-/

universe u

namespace PgKmcb.Lib

open List

variable {α : Type u}

/-- `w` is a subsequence of both lists. -/
def IsCommon (w a b : List α) : Prop := w <+ a ∧ w <+ b

/-- `w` is a longest common subsequence of the two lists. -/
def IsLcs (w a b : List α) : Prop :=
  IsCommon w a b ∧ ∀ v, IsCommon v a b → v.length ≤ w.length

/-- The greatest length of a common subsequence. -/
noncomputable def lcsLength (a b : List α) : ℕ :=
  sSup {n | ∃ w, IsCommon w a b ∧ w.length = n}

namespace IsCommon

theorem length_le_left {w a b : List α} (h : IsCommon w a b) : w.length ≤ a.length :=
  h.1.length_le

theorem comm {w a b : List α} (h : IsCommon w a b) : IsCommon w b a := ⟨h.2, h.1⟩

theorem mono {w a a' b b' : List α} (h : IsCommon w a b) (ha : a <+ a') (hb : b <+ b') :
    IsCommon w a' b' := ⟨h.1.trans ha, h.2.trans hb⟩

end IsCommon

theorem isCommon_nil (a b : List α) : IsCommon [] a b := ⟨nil_sublist a, nil_sublist b⟩

/-! ## The greatest length -/

theorem lengths_bddAbove (a b : List α) :
    BddAbove {n | ∃ w, IsCommon w a b ∧ w.length = n} :=
  ⟨a.length, by rintro n ⟨w, hw, rfl⟩; exact hw.length_le_left⟩

/-- No common subsequence is longer. -/
theorem IsCommon.length_le {w a b : List α} (h : IsCommon w a b) :
    w.length ≤ lcsLength a b := le_csSup (lengths_bddAbove a b) ⟨w, h, rfl⟩

/-- Some common subsequence has that length. -/
theorem exists_isCommon_length (a b : List α) :
    ∃ w, IsCommon w a b ∧ w.length = lcsLength a b :=
  Nat.sSup_mem (s := {n | ∃ w, IsCommon w a b ∧ w.length = n})
    ⟨0, [], isCommon_nil a b, rfl⟩ (lengths_bddAbove a b)

/-- A common subsequence of the greatest length is a longest one. -/
theorem isLcs_of_length {w a b : List α} (h : IsCommon w a b)
    (hlen : w.length = lcsLength a b) : IsLcs w a b :=
  ⟨h, fun _ hv ↦ hlen ▸ hv.length_le⟩

/-- All longest ones are of that length. -/
theorem IsLcs.length_eq {w a b : List α} (h : IsLcs w a b) : w.length = lcsLength a b := by
  obtain ⟨v, hv, hlen⟩ := exists_isCommon_length a b
  exact le_antisymm h.1.length_le (hlen ▸ h.2 v hv)

/-- What a list and a subsequence of it have in common is the subsequence. -/
theorem IsLcs.eq_of_sublist {w a b : List α} (h : IsLcs w a b) (hab : a <+ b) : w = a :=
  h.1.1.eq_of_length_le (h.2 a ⟨Sublist.refl a, hab⟩)

theorem IsLcs.comm {w a b : List α} (h : IsLcs w a b) : IsLcs w b a :=
  ⟨h.1.comm, fun v hv ↦ h.2 v hv.comm⟩

theorem lcsLength_le_of_forall {a b : List α} {n : ℕ}
    (h : ∀ w, IsCommon w a b → w.length ≤ n) : lcsLength a b ≤ n := by
  obtain ⟨w, hw, hlen⟩ := exists_isCommon_length a b
  exact hlen ▸ h w hw

theorem lcsLength_mono {a a' b b' : List α} (ha : a <+ a') (hb : b <+ b') :
    lcsLength a b ≤ lcsLength a' b' :=
  lcsLength_le_of_forall fun _ hw ↦ (hw.mono ha hb).length_le

theorem lcsLength_comm (a b : List α) : lcsLength a b = lcsLength b a :=
  le_antisymm (lcsLength_le_of_forall fun _ hw ↦ hw.comm.length_le)
    (lcsLength_le_of_forall fun _ hw ↦ hw.comm.length_le)

theorem lcsLength_le_left (a b : List α) : lcsLength a b ≤ a.length :=
  lcsLength_le_of_forall fun _ hw ↦ hw.length_le_left

theorem lcsLength_le_right (a b : List α) : lcsLength a b ≤ b.length :=
  lcsLength_comm a b ▸ lcsLength_le_left b a

@[simp] theorem lcsLength_nil_left (b : List α) : lcsLength [] b = 0 :=
  Nat.le_zero.mp (lcsLength_le_left [] b)

@[simp] theorem lcsLength_nil_right (a : List α) : lcsLength a [] = 0 :=
  Nat.le_zero.mp (lcsLength_le_right a [])

/-- A subsequence of `a ++ [x]` is one of `a`, or ends in `x`. -/
theorem sublist_concat_iff {w a : List α} {x : α} :
    w <+ a ++ [x] ↔ w <+ a ∨ ∃ w', w = w' ++ [x] ∧ w' <+ a := by
  rw [sublist_append_iff]
  constructor
  · rintro ⟨l₁, l₂, rfl, h₁, h₂⟩
    rcases List.sublist_singleton.mp h₂ with rfl | rfl
    · exact .inl (by simpa using h₁)
    · exact .inr ⟨l₁, rfl, h₁⟩
  · rintro (h | ⟨w', rfl, h⟩)
    · exact ⟨w, [], by simp, h, nil_sublist _⟩
    · exact ⟨w', [x], rfl, h, Sublist.refl _⟩

/-- Equal last elements extend a longest common subsequence by one. -/
theorem lcsLength_concat_self (a b : List α) (x : α) :
    lcsLength (a ++ [x]) (b ++ [x]) = lcsLength a b + 1 := by
  apply le_antisymm
  · refine lcsLength_le_of_forall fun w ⟨ha, hb⟩ ↦ ?_
    rcases sublist_concat_iff.mp ha with ha' | ⟨w', rfl, ha'⟩
    · rcases sublist_concat_iff.mp hb with hb' | ⟨w', rfl, hb'⟩
      · exact Nat.le_succ_of_le (IsCommon.length_le ⟨ha', hb'⟩)
      · rw [length_append]
        exact Nat.succ_le_succ
          (IsCommon.length_le ⟨(sublist_append_left w' [x]).trans ha', hb'⟩)
    · have hb' : w' <+ b := (append_sublist_append_right [x]).mp hb
      rw [length_append]
      exact Nat.succ_le_succ (IsCommon.length_le ⟨ha', hb'⟩)
  · obtain ⟨w, ⟨ha, hb⟩, hlen⟩ := exists_isCommon_length a b
    have : IsCommon (w ++ [x]) (a ++ [x]) (b ++ [x]) :=
      ⟨ha.append (Sublist.refl _), hb.append (Sublist.refl _)⟩
    simpa [hlen] using this.length_le

/-- Different last elements: one of them is not used. -/
theorem lcsLength_concat_of_ne (a b : List α) {x y : α} (hxy : x ≠ y) :
    lcsLength (a ++ [x]) (b ++ [y]) =
      max (lcsLength (a ++ [x]) b) (lcsLength a (b ++ [y])) := by
  apply le_antisymm
  · refine lcsLength_le_of_forall fun w ⟨ha, hb⟩ ↦ ?_
    rcases sublist_concat_iff.mp hb with hb' | ⟨w', rfl, hb'⟩
    · exact le_max_of_le_left (IsCommon.length_le ⟨ha, hb'⟩)
    · rcases sublist_concat_iff.mp ha with ha' | ⟨w'', hw, -⟩
      · exact le_max_of_le_right (IsCommon.length_le ⟨ha', hb⟩)
      · exact absurd (append_inj_right' hw rfl) (by simpa using hxy.symm)
  · exact max_le (lcsLength_mono (Sublist.refl _) (sublist_append_left b [y]))
      (lcsLength_mono (sublist_append_left a [x]) (Sublist.refl _))

/-! ## Common beginnings and ends -/

namespace IsLcs

variable {w a b : List α}

theorem reverse (h : IsLcs w a b) : IsLcs w.reverse a.reverse b.reverse := by
  refine ⟨⟨h.1.1.reverse, h.1.2.reverse⟩, fun v hv ↦ ?_⟩
  have hlen := h.2 v.reverse
    ⟨by simpa using hv.1.reverse, by simpa using hv.2.reverse⟩
  rwa [length_reverse] at hlen ⊢

/-- The last element, if it is the same, is the last one of what is common. -/
theorem exists_concat {x : α} (h : IsLcs w (a ++ [x]) (b ++ [x])) :
    ∃ v, w = v ++ [x] ∧ IsLcs v a b := by
  have hlast : ∀ v, IsCommon v a b → v.length + 1 ≤ w.length := by
    intro v hv
    have hlen := h.2 (v ++ [x]) ⟨hv.1.append (Sublist.refl _), hv.2.append (Sublist.refl _)⟩
    rwa [length_append] at hlen
  obtain ⟨v, rfl, hv⟩ : ∃ v, w = v ++ [x] ∧ IsCommon v a b := by
    rcases sublist_concat_iff.mp h.1.1 with ha | ⟨v, rfl, ha⟩
    · rcases sublist_concat_iff.mp h.1.2 with hb | ⟨v, rfl, hb⟩
      · exact absurd (hlast w ⟨ha, hb⟩) (Nat.not_succ_le_self _)
      · exact ⟨v, rfl, (sublist_append_left v [x]).trans ha, hb⟩
    · exact ⟨v, rfl, ha, (append_sublist_append_right [x]).mp h.1.2⟩
  refine ⟨v, rfl, hv, fun u hu ↦ ?_⟩
  have hlen := hlast u hu
  rw [length_append] at hlen
  exact Nat.le_of_succ_le_succ hlen

/-- A common end is the end of what is common. -/
theorem exists_append {s : List α} (h : IsLcs w (a ++ s) (b ++ s)) :
    ∃ v, w = v ++ s ∧ IsLcs v a b := by
  induction s using List.reverseRecOn generalizing w with
  | nil => exact ⟨w, (append_nil w).symm, by simpa using h⟩
  | append_singleton s x ih =>
      rw [← append_assoc, ← append_assoc] at h
      obtain ⟨v, rfl, hv⟩ := h.exists_concat
      obtain ⟨u, rfl, hu⟩ := ih hv
      exact ⟨u, append_assoc u s [x], hu⟩

/-- A common beginning is the beginning of what is common. -/
theorem exists_append_left {p : List α} (h : IsLcs w (p ++ a) (p ++ b)) :
    ∃ v, w = p ++ v ∧ IsLcs v a b := by
  have hrev := h.reverse
  rw [reverse_append, reverse_append] at hrev
  obtain ⟨v, hw, hv⟩ := hrev.exists_append
  refine ⟨v.reverse, ?_, ?_⟩
  · rw [← reverse_reverse w, hw, reverse_append, reverse_reverse]
  · have hback := hv.reverse
    rwa [reverse_reverse, reverse_reverse] at hback

end IsLcs

/-! ## Lists of blocks -/

/-- Blocks of the two sides agree or share no element. -/
def BlocksApart (as bs : List (List α)) : Prop :=
  ∀ c ∈ as, ∀ d ∈ bs, c = d ∨ c.Disjoint d

/-- Parts of lists that share no element are not both used in front. -/
theorem eq_nil_or_eq_nil_of_disjoint {c d w₁ w₂ v₁ v₂ : List α} (hcd : c.Disjoint d)
    (hw₁ : w₁ <+ c) (hv₁ : v₁ <+ d) (h : w₁ ++ w₂ = v₁ ++ v₂) : w₁ = [] ∨ v₁ = [] := by
  cases w₁ with
  | nil => exact .inl rfl
  | cons x w₁ =>
      cases v₁ with
      | nil => exact .inr rfl
      | cons y v₁ =>
          obtain rfl : x = y := (List.cons.inj h).1
          exact absurd (hv₁.subset mem_cons_self) (hcd (hw₁.subset mem_cons_self))

/-- A common subsequence of two flattened lists is matched or beaten by one that
does not cut blocks. -/
theorem exists_blocks_of_isCommon {as bs : List (List α)} (h : BlocksApart as bs)
    {w : List α} (hw : IsCommon w as.flatten bs.flatten) :
    ∃ cs, IsCommon cs as bs ∧ (w.length < cs.flatten.length ∨ w = cs.flatten) := by
  induction as generalizing bs w with
  | nil =>
      have : w = [] := sublist_nil.mp hw.1
      exact ⟨[], isCommon_nil _ _, .inr this⟩
  | cons c as ihas =>
      induction bs generalizing w with
      | nil =>
          have : w = [] := sublist_nil.mp hw.2
          exact ⟨[], isCommon_nil _ _, .inr this⟩
      | cons d bs ihbs =>
          obtain ⟨w₁, w₂, rfl, hw₁, hw₂⟩ := sublist_append_iff.mp hw.1
          obtain ⟨v₁, v₂, hv, hv₁, hv₂⟩ := sublist_append_iff.mp hw.2
          rcases h c mem_cons_self d mem_cons_self with rfl | hcd
          · -- The same block on both sides: the later of the two cuts leaves a rest
            -- that is common to the remaining blocks.
            obtain ⟨u, r, hur, hu, hr⟩ : ∃ u r, w₁ ++ w₂ = u ++ r ∧ u <+ c ∧
                IsCommon r as.flatten bs.flatten := by
              rcases append_eq_append_iff.mp hv with ⟨x, rfl, rfl⟩ | ⟨x, rfl, rfl⟩
              · exact ⟨_, v₂, hv, hv₁, (sublist_append_right x v₂).trans hw₂, hv₂⟩
              · exact ⟨_, w₂, rfl, hw₁, hw₂, (sublist_append_right x w₂).trans hv₂⟩
            have hrest : BlocksApart as bs := fun c' hc' d' hd' ↦
              h c' (mem_cons_of_mem _ hc') d' (mem_cons_of_mem _ hd')
            obtain ⟨cs, hcs, hle⟩ := ihas hrest hr
            refine ⟨c :: cs, ⟨hcs.1.cons_cons c, hcs.2.cons_cons c⟩, ?_⟩
            rw [hur, flatten_cons, length_append, length_append]
            rcases hle with hlt | rfl
            · exact .inl (Nat.add_lt_add_of_le_of_lt hu.length_le hlt)
            · rcases Nat.lt_or_ge u.length c.length with hlt | hge
              · exact .inl (Nat.add_lt_add_right hlt _)
              · exact .inr (by rw [hu.eq_of_length_le hge])
          · -- Different blocks share no element, so one of the two is not used.
            rcases eq_nil_or_eq_nil_of_disjoint hcd hw₁ hv₁ hv with rfl | rfl
            · have hrest : BlocksApart as (d :: bs) := fun c' hc' ↦
                h c' (mem_cons_of_mem _ hc')
              obtain ⟨cs, hcs, hle⟩ := ihas hrest (w := w₂) ⟨hw₂, hw.2⟩
              exact ⟨cs, hcs.mono (sublist_cons_self c as) (Sublist.refl _), hle⟩
            · have hrest : BlocksApart (c :: as) bs := fun c' hc' d' hd' ↦
                h c' hc' d' (mem_cons_of_mem _ hd')
              have hv₂' : w₁ ++ w₂ <+ bs.flatten := by rw [hv]; exact hv₂
              obtain ⟨cs, hcs, hle⟩ := ihbs hrest ⟨hw.1, hv₂'⟩
              exact ⟨cs, hcs.mono (Sublist.refl _) (sublist_cons_self d bs), hle⟩

/-- A longest common subsequence does not cut blocks. -/
theorem IsLcs.exists_blocks {as bs : List (List α)} (h : BlocksApart as bs) {w : List α}
    (hw : IsLcs w as.flatten bs.flatten) : ∃ cs, IsCommon cs as bs ∧ w = cs.flatten := by
  obtain ⟨cs, hcs, hlt | rfl⟩ := exists_blocks_of_isCommon h hw.1
  · have : IsCommon cs.flatten as.flatten bs.flatten := ⟨hcs.1.flatten, hcs.2.flatten⟩
    exact absurd (hw.2 _ this) (Nat.not_le.mpr hlt)
  · exact ⟨cs, hcs, rfl⟩

end PgKmcb.Lib
