import Mathlib.Algebra.BigOperators.Field
import Mathlib.Algebra.Order.Ring.Rat
import Mathlib.Data.Set.Card.Arithmetic
import Mathlib.Data.Set.Finite.List
import PgKmcb.Lib.Tally

/-!
# Chances

A program that draws values from a finite set returns an element of `A` with a `Chance`:
the share of the lists of values that make it do so.  How many values it draws may depend on
the values, so the lists are of any length that is enough for all runs, and what is left of
them does not matter.

The chance of a program that goes on with a value is the mean of the chances of what it goes
on with (`Chance.draw_bind`).  The rules for longer programs are stated for the program and
all that comes behind it, so that they can be used one after the other.  What a program
`Yields` is what has a chance (`Chance.pos_iff`).
-/

universe u v

namespace PgKmcb.Lib

open Finset

variable {ρ α β : Type u} {ε : Type v} {R : Finset ρ} {N n : ℕ} {x : Draws ρ ε α} {A : Set α}

/-- The lists of so many values that make the program return an element of `A`, with `s`
behind them. -/
def makers (R : Finset ρ) (x : Draws ρ ε α) (A : Set α) (n : ℕ) (s : Stream' ρ) :
    Set (List ρ) :=
  {vs | vs.length = n ∧ (∀ v ∈ vs, v ∈ R) ∧ ∃ a s', x (vs ++ₛ s) = .ok (a, s') ∧ a ∈ A}

/-- The share of the lists that make the program return an element of `A`, where `N` values
are enough. -/
def Chance (R : Finset ρ) (N : ℕ) (x : Draws ρ ε α) (A : Set α) (q : ℚ) : Prop :=
  ∀ n, N ≤ n → ∀ s, ((makers R x A n s).ncard : ℚ) = q * #R ^ n

/-! ## Lists of values -/

theorem finite_lists (R : Finset ρ) (n : ℕ) :
    {vs : List ρ | vs.length = n ∧ ∀ v ∈ vs, v ∈ R}.Finite := by
  refine ((List.finite_length_eq R n).image (List.map Subtype.val)).subset ?_
  rintro vs ⟨hlen, hvs⟩
  lift vs to List R using hvs
  exact ⟨vs, (List.length_map _).symm.trans hlen, rfl⟩

theorem finite_makers (s : Stream' ρ) : (makers R x A n s).Finite :=
  (finite_lists R n).subset fun _ hvs ↦ ⟨hvs.1, hvs.2.1⟩

theorem ncard_lists (R : Finset ρ) (n : ℕ) :
    {vs : List ρ | vs.length = n ∧ ∀ v ∈ vs, v ∈ R}.ncard = #R ^ n := by
  have hset : {vs : List ρ | vs.length = n ∧ ∀ v ∈ vs, v ∈ R} =
      {vs | (∀ v ∈ vs, v ∈ (R : Set ρ)) ∧ vs.map (fun _ ↦ ()) = List.replicate n ()} := by
    ext vs
    simp [and_comm, List.map_const', List.replicate_inj]
  rw [hset, ncard_map_eq]
  simp

namespace Chance

/-! ## Rules -/

theorem mono {N' : ℕ} {q : ℚ} (h : Chance R N x A q) (hle : N ≤ N') : Chance R N' x A q :=
  fun n hn ↦ h n (hle.trans hn)

theorem congr {q q' : ℚ} (h : Chance R N x A q) (hq : q = q') : Chance R N x A q' := hq ▸ h

/-- What always happens. -/
theorem of_forall (h : ∀ s, ∃ a s', x s = .ok (a, s') ∧ a ∈ A) : Chance R 0 x A 1 := by
  intro n _ s
  have hset : makers R x A n s = {vs | vs.length = n ∧ ∀ v ∈ vs, v ∈ R} :=
    Set.ext fun vs ↦ and_congr_right fun _ ↦ and_iff_left (h _)
  rw [hset, ncard_lists, one_mul, Nat.cast_pow]

/-- What never happens. -/
theorem of_never (h : ∀ s a s', x s = .ok (a, s') → a ∉ A) : Chance R 0 x A 0 := by
  intro n _ s
  have hset : makers R x A n s = ∅ :=
    Set.eq_empty_of_forall_notMem fun _ ⟨_, _, a, s', hrun, ha⟩ ↦ h _ a s' hrun ha
  rw [hset, Set.ncard_empty, zero_mul, Nat.cast_zero]

/-- A result that is one of the elements or is not. -/
theorem pure {a : α} {P : Prop} [Decidable P] (h : a ∈ A ↔ P) :
    Chance R 0 (Pure.pure a : Draws ρ ε α) A (if P then 1 else 0) := by
  split_ifs with hP
  · exact of_forall fun s ↦ ⟨a, s, rfl, h.mpr hP⟩
  · refine of_never ?_
    rintro s b s' hrun
    cases hrun
    exact fun ha ↦ hP (h.mp ha)

/-- A value is drawn before a program that depends on it. -/
theorem draw_bind {g : ρ → Draws ρ ε α} {q : ρ → ℚ} (hR : R.Nonempty)
    (h : ∀ v ∈ R, Chance R N (g v) A (q v)) :
    Chance R (N + 1) (draw >>= g) A ((∑ v ∈ R, q v) / #R) := by
  intro n hn s
  obtain ⟨n, rfl⟩ := Nat.exists_eq_add_of_le' (Nat.le_of_add_left_le hn)
  have hset : makers R (draw >>= g) A (n + 1) s =
      ⋃ v ∈ (R : Set ρ), (v :: ·) '' makers R (g v) A n s := by
    ext vs
    constructor
    · rintro ⟨hlen, hR, hrun⟩
      obtain ⟨v, vs, rfl⟩ := List.exists_cons_of_length_eq_add_one hlen
      obtain ⟨hv, hvs⟩ := List.forall_mem_cons.mp hR
      exact Set.mem_biUnion hv ⟨vs, ⟨Nat.succ.inj hlen, hvs, hrun⟩, rfl⟩
    · intro hvs
      obtain ⟨v, hv, vs, ⟨hlen, hall, hrun⟩, rfl⟩ := Set.mem_iUnion₂.mp hvs
      exact ⟨congrArg (· + 1) hlen, List.forall_mem_cons.mpr ⟨hv, hall⟩, hrun⟩
  have hdisjoint : (R : Set ρ).PairwiseDisjoint fun v ↦ (v :: ·) '' makers R (g v) A n s := by
    intro v _ w _ hne
    refine Set.disjoint_left.mpr ?_
    rintro _ ⟨vs, -, rfl⟩ ⟨ws, -, heq⟩
    exact hne (List.cons.inj heq).1.symm
  have hcard : (#R : ℚ) ≠ 0 := by exact_mod_cast hR.card_ne_zero
  rw [hset, R.finite_toSet.ncard_biUnion (fun v _ ↦ (finite_makers s).image _) hdisjoint,
    finsum_mem_coe_finset, Nat.cast_sum]
  calc ∑ v ∈ R, (((v :: ·) '' makers R (g v) A n s).ncard : ℚ)
      = ∑ v ∈ R, q v * #R ^ n := by
        refine Finset.sum_congr rfl fun v hv ↦ ?_
        rw [Set.ncard_image_of_injective _ List.cons_injective,
          h v hv n (Nat.le_of_succ_le_succ hn)]
    _ = (∑ v ∈ R, q v) / #R * #R ^ (n + 1) := by
        rw [← Finset.sum_mul, pow_succ', ← mul_assoc, div_mul_cancel₀ _ hcard]

/-- A step that draws nothing comes before a program. -/
theorem lift_bind {y : Run ε β} {b : β} (h : y = .ok b) {g : β → Draws ρ ε α} {q : ℚ}
    (hg : Chance R N (g b) A q) : Chance R N (StateT.lift y >>= g) A q := by
  subst h
  exact hg

/-- What a program yields has a chance, and nothing else has one. -/
theorem pos_iff {q : ℚ} {S : Set α} (h : Chance R N x A q) (hx : Yields (R : Set ρ) x S)
    (hR : R.Nonempty) : 0 < q ↔ (S ∩ A).Nonempty := by
  obtain ⟨r, hr⟩ := hR
  have hpow : (0 : ℚ) < #R ^ N := by
    have := Finset.card_pos.mpr ⟨r, hr⟩
    positivity
  have hpos : ∀ s, 0 < q ↔ (makers R x A N s).Nonempty := by
    intro s
    rw [← Set.ncard_pos (finite_makers s), ← Nat.cast_pos (α := ℚ), h N le_rfl s,
      mul_pos_iff_of_pos_right hpow]
  constructor
  · intro hq
    obtain ⟨vs, -, -, a, s', hrun, ha⟩ := (hpos (Stream'.const r)).mp hq
    obtain ⟨b, s'', hrun', hb⟩ := hx.sound (vs ++ₛ Stream'.const r)
    rw [hrun] at hrun'
    cases hrun'
    exact ⟨a, hb, ha⟩
  · rintro ⟨a, haS, haA⟩
    obtain ⟨s, hs, hrun⟩ := hx.complete a haS (Stream'.const r) fun _ ↦ hr
    refine (hpos (s.drop N)).mpr
      ⟨s.take N, Stream'.length_take N s, fun v hv ↦ ?_, a, Stream'.const r, ?_, haA⟩
    · obtain ⟨i, hi, rfl⟩ := List.getElem_of_mem hv
      rw [Stream'.take_get]
      exact hs i
    · rwa [Stream'.append_take_drop]

end Chance

end PgKmcb.Lib
