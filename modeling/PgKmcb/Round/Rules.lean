import PgKmcb.Round.Rounding

/-!
# What the rounding functions are good for (`se_round.c`, `pg_round.md`)

The documentation gives the rule of `se_round_v2` by the digits of the number; the code
never looks at a digit.  `digitRule` is the rule, and `seRoundV2_digitRule` says that the
code follows it.  `se_round_v1` rounds to the nearest number, half up, and the two differ
on a small interval only (`seRoundV1_seRoundV2`).

Both functions add one by a threshold between two integers, which makes them monotone
projections (`seRound_isProjection`).  They do so in 64 bits, whatever the precision is
(`seRound_within_iff`).
-/

namespace PgKmcb.Round

open PgKmcb.Lib

variable {x val : ℚ} {p : ℕ}

/-! ## Digits -/

/-- The rule of the documentation.  The digits are the last one that is kept and the next
two. -/
def digitRule (val : ℚ) (precision : ℕ) : ℚ :=
  let q : ℚ := ⌊val * 10 ^ precision⌋ / 10 ^ precision
  let d0 := digit val precision
  let d1 := digit val (precision + 1)
  let d2 := digit val (precision + 2)
  if d1 ≤ 4 then q
  else if d1 ≥ 6 then q + 1 / 10 ^ precision
  else if d2 ≠ 0 then q + 1 / 10 ^ precision
  else if Even d0 then q
  else q + 1 / 10 ^ precision

/-- The last digit that is kept is even if the integer before the cut is. -/
theorem even_digit_iff (val : ℚ) (p : ℕ) : Even (digit val p) ↔ Even ⌊val * 10 ^ p⌋ := by
  rw [digit, Int.even_iff, Int.even_iff]
  omega

/-- The branches of the rule, with the two digits as one number. -/
theorem rule_branches {α : Type} (D : ℤ) (even : Prop) [Decidable even] (up down : α) :
    (if D / 10 ≤ 4 then down
      else if D / 10 ≥ 6 then up
      else if D % 10 ≠ 0 then up
      else if even then down else up) = if D > 50 ∨ D = 50 ∧ ¬ even then up else down := by
  rcases lt_trichotomy D 50 with hlt | rfl | hgt
  · have hdown : ¬ (D > 50 ∨ D = 50 ∧ ¬ even) := by omega
    rw [if_pos (by omega), if_neg hdown]
  · by_cases heven : even
    · simp [heven]
    · simp [heven]
  · rw [if_neg (by omega), if_pos (Or.inl hgt)]
    split_ifs
    · rfl
    · rfl
    · omega
    · rfl

/-- `se_round_v2` follows the rule. -/
theorem seRoundV2_digitRule (val : ℚ) (precision : ℕ) (h0 : 0 ≤ val)
    (h : val * 10 ^ precision < 2 ^ 63 - 1) :
    seRoundV2 val precision = .ok (digitRule val precision) := by
  have hx : 0 ≤ val * 10 ^ precision := mul_nonneg h0 (by positivity)
  have hup := roundsUpV2_iff_digits hx
  obtain ⟨hd1, hd2⟩ := digit_succ val precision
  rw [seRoundV2_eq (by rwa [abs_of_nonneg hx]), digitRule]
  simp only [even_digit_iff, hd1, hd2, rule_branches, truncate_of_nonneg hx]
  congr 1
  by_cases hdigits : RoundsUpV2 (val * 10 ^ precision)
  · rw [if_pos hdigits, if_pos (hup.mp hdigits)]
    push_cast
    exact add_div _ _ _
  · rw [if_neg hdigits, if_neg fun hcon ↦ hdigits (hup.mpr hcon), add_zero]

/-- Two and a half, to no decimals. -/
theorem seRoundV2_digitRule_half : seRoundV2 (5 / 2) 0 = .ok (digitRule (5 / 2) 0) :=
  seRoundV2_digitRule (5 / 2) 0 (by norm_num) (by norm_num)

/-! ## The nearest number -/

/-- Above zero `se_round_v1` rounds half up. -/
theorem roundBy_roundsUpV1 (h : 0 ≤ x) : roundBy RoundsUpV1 x = round x := by
  rw [roundBy_of_nonneg h, round_eq_floor_add]
  simp only [roundsUpV1_iff h]

/-- The two roundings differ where the one adds one and the other does not. -/
theorem roundBy_roundsUpV2 (h : 0 ≤ x) : (roundBy RoundsUpV2 x : ℚ) =
    if (1 / 2 ≤ Int.fract x ∧ Int.fract x < 51 / 100) ∧ Even ⌊x⌋
    then (roundBy RoundsUpV1 x : ℚ) - 1 else roundBy RoundsUpV1 x := by
  rw [roundBy, roundBy]
  simp only [roundsUpV1_iff h, roundsUpV2_iff h]
  rcases lt_or_ge (Int.fract x) (1 / 2) with hlow | hhalf
  · rw [if_neg, if_neg, if_neg (not_le.mpr hlow)]
    · rintro ⟨⟨hge, -⟩, -⟩
      exact absurd hge (not_le.mpr hlow)
    · rintro (hge | ⟨hge, -⟩)
      · linarith
      · linarith
  · rcases lt_or_ge (Int.fract x) (51 / 100) with h51 | h51
    · by_cases heven : Even ⌊x⌋
      · rw [if_neg, if_pos ⟨⟨hhalf, h51⟩, heven⟩, if_pos hhalf]
        · push_cast
          ring
        · rintro (hge | ⟨-, hodd⟩)
          · exact absurd hge (not_le.mpr h51)
          · exact hodd heven
      · rw [if_pos (Or.inr ⟨hhalf, heven⟩), if_neg (fun hcon ↦ heven hcon.2), if_pos hhalf]
    · rw [if_pos (Or.inl h51), if_neg (fun hcon ↦ absurd h51 (not_le.mpr hcon.1.2)),
        if_pos hhalf]

/-- `se_round_v1` rounds to the nearest multiple, half up.  So does `se_round_v2`, but for
one interval between an even integer and the next one. -/
theorem seRoundV1_seRoundV2 (val : ℚ) (precision : ℕ) (h0 : 0 ≤ val)
    (h : val * 10 ^ precision < 2 ^ 63 - 1) : ∃ r,
    seRoundV1 val precision = .ok r ∧ IsNearestUp (1 / 10 ^ precision) val r ∧
    seRoundV2 val precision = .ok
      (if (1 / 2 ≤ Int.fract (val * 10 ^ precision) ∧
          Int.fract (val * 10 ^ precision) < 51 / 100) ∧ Even ⌊val * 10 ^ precision⌋
        then r - 1 / 10 ^ precision else r) := by
  have hpos : (0 : ℚ) < 10 ^ precision := by positivity
  have hx : 0 ≤ val * 10 ^ precision := mul_nonneg h0 hpos.le
  have habs : |val * 10 ^ precision| < 2 ^ 63 - 1 := by rwa [abs_of_nonneg hx]
  refine ⟨_, seRoundV1_eq habs, ?_, ?_⟩
  · rw [← roundBy, roundBy_roundsUpV1 hx]
    exact (isNearestUp_one _).div hpos
  · rw [seRoundV2_eq habs, ← roundBy, ← roundBy, roundBy_roundsUpV2 hx]
    split_ifs
    · rw [sub_div]
    · rfl

/-- Half, to no decimals. -/
theorem seRoundV1_seRoundV2_half : ∃ r, seRoundV1 (1 / 2) 0 = .ok r ∧
    IsNearestUp (1 / 10 ^ 0) (1 / 2) r ∧ seRoundV2 (1 / 2) 0 = .ok
      (if (1 / 2 ≤ Int.fract (1 / 2 * 10 ^ 0 : ℚ) ∧
          Int.fract (1 / 2 * 10 ^ 0 : ℚ) < 51 / 100) ∧ Even ⌊(1 / 2 * 10 ^ 0 : ℚ)⌋
        then r - 1 / 10 ^ 0 else r) :=
  seRoundV1_seRoundV2 (1 / 2) 0 (by norm_num) (by norm_num)

/-! ## Order -/

/-- One is added above zero from the half on. -/
theorem isThreshold_roundsUpV1 : IsThreshold RoundsUpV1 where
  nonneg {x} hup := by
    by_contra h
    exact not_roundsUpV1 (not_le.mp h).le hup
  not_intCast n := by
    rw [RoundsUpV1, truncate_intCast, sub_self]
    norm_num
  mono {x y} hup hxy hfloor := by
    have hx : 0 ≤ x := by
      by_contra h
      exact not_roundsUpV1 (not_le.mp h).le hup
    rw [roundsUpV1_iff hx, Int.fract] at hup
    rw [roundsUpV1_iff (hx.trans hxy), Int.fract, ← hfloor]
    linarith

/-- Or from 51 hundredths on, where the integer below is even. -/
theorem isThreshold_roundsUpV2 : IsThreshold RoundsUpV2 where
  nonneg {x} hup := by
    by_contra h
    exact not_roundsUpV2 (not_le.mp h).le hup
  not_intCast n := by
    have hzero : truncate 0 = 0 := truncate_intCast 0
    rw [RoundsUpV2, truncate_intCast, sub_self, zero_mul, hzero]
    omega
  mono {x y} hup hxy hfloor := by
    have hx : 0 ≤ x := by
      by_contra h
      exact not_roundsUpV2 (not_le.mp h).le hup
    rw [roundsUpV2_iff hx, Int.fract] at hup
    rw [roundsUpV2_iff (hx.trans hxy), Int.fract, ← hfloor]
    rcases hup with h51 | ⟨hhalf, hodd⟩
    · exact .inl (by linarith)
    · exact .inr ⟨by linarith, hodd⟩

section Threshold

variable {Up : ℚ → Prop} [DecidablePred Up]

theorem cast_max : ((2 ^ 63 - 1 : ℤ) : ℚ) = 2 ^ 63 - 1 := by norm_num

/-- Up to the largest number of 64 bits there is room for what is added. -/
theorem fits_of_abs_le (hup : IsThreshold Up) (h : |x| ≤ 2 ^ 63 - 1) :
    Fits 64 (truncate x) ∧ (Up x → Fits 64 (truncate x + 1)) := by
  obtain ⟨hlo, hhi⟩ := abs_le.mp h
  refine ⟨fits_truncate_iff.mpr ⟨by norm_num; linarith, by norm_num; linarith⟩, fun hx ↦ ?_⟩
  have hmono := hup.roundBy_mono (hhi.trans_eq cast_max.symm)
  have hfloor := Int.floor_nonneg.mpr (hup.nonneg hx)
  rw [hup.roundBy_intCast, roundBy, if_pos hx] at hmono
  rw [truncate_of_nonneg (hup.nonneg hx)] at hmono ⊢
  exact fits_of_nonneg (by omega) (by norm_num; omega)

/-- The rounding is defined up to the largest number of 64 bits, it keeps the order, it leaves
every multiple as it is, and it returns nothing but multiples. -/
structure IsProjection (round : ℚ → ℕ → Call ℚ) (precision : ℕ) : Prop where
  mono : ∀ x y : ℚ, x ≤ y → |x * 10 ^ precision| ≤ 2 ^ 63 - 1 →
    |y * 10 ^ precision| ≤ 2 ^ 63 - 1 →
    ∃ r r', round x precision = .ok r ∧ round y precision = .ok r' ∧ r ≤ r'
  fixed : ∀ n : ℤ, |(n : ℚ)| ≤ 2 ^ 63 - 1 →
    round (n * (1 / 10 ^ precision)) precision = .ok (n * (1 / 10 ^ precision))
  multiple : ∀ x : ℚ, |x * 10 ^ precision| ≤ 2 ^ 63 - 1 →
    ∃ n : ℤ, round x precision = .ok (n * (1 / 10 ^ precision)) ∧
      round (n * (1 / 10 ^ precision)) precision = .ok (n * (1 / 10 ^ precision))

/-- What is rounded to 64 bits stays within them. -/
theorem abs_roundBy_le (hup : IsThreshold Up) (h : |x| ≤ 2 ^ 63 - 1) :
    |(roundBy Up x : ℚ)| ≤ 2 ^ 63 - 1 := by
  obtain ⟨hlo, hhi⟩ := abs_le.mp h
  rw [← cast_max] at hlo hhi ⊢
  rw [← Int.cast_neg] at hlo
  have hlo' := hup.roundBy_mono hlo
  have hhi' := hup.roundBy_mono hhi
  rw [hup.roundBy_intCast] at hlo' hhi'
  rw [abs_le, ← Int.cast_neg]
  exact ⟨Int.cast_le.mpr hlo', Int.cast_le.mpr hhi'⟩

theorem cutAndRound_isProjection (hup : IsThreshold Up) (p : ℕ) :
    IsProjection (cutAndRound Up) p := by
  have hpos : (0 : ℚ) < 10 ^ p := by positivity
  have hrun : ∀ x : ℚ, |x * 10 ^ p| ≤ 2 ^ 63 - 1 →
      cutAndRound Up x p = .ok (roundBy Up (x * 10 ^ p) / 10 ^ p) := by
    intro x hx
    obtain ⟨hfits, hfits'⟩ := fits_of_abs_le hup hx
    exact cutAndRound_of_fits hfits hfits'
  have hfixed : ∀ n : ℤ, |(n : ℚ)| ≤ 2 ^ 63 - 1 →
      cutAndRound Up (n * (1 / 10 ^ p)) p = .ok (n * (1 / 10 ^ p)) := by
    intro n hn
    have hscale : (n : ℚ) * (1 / 10 ^ p) * 10 ^ p = n := by
      rw [mul_assoc, one_div_mul_cancel hpos.ne', mul_one]
    rw [hrun _ (by rwa [hscale]), hscale, hup.roundBy_intCast, mul_one_div]
  refine ⟨?_, hfixed, ?_⟩
  · intro x y hxy hx hy
    refine ⟨_, _, hrun x hx, hrun y hy, ?_⟩
    have hmono := hup.roundBy_mono (mul_le_mul_of_nonneg_right hxy hpos.le)
    exact div_le_div_of_nonneg_right (by exact_mod_cast hmono) hpos.le
  · intro x hx
    refine ⟨roundBy Up (x * 10 ^ p), ?_, hfixed _ (abs_roundBy_le hup hx)⟩
    rw [hrun x hx, mul_one_div]

end Threshold

/-- Both functions keep the order, and are projections onto the multiples of the last decimal. -/
theorem seRound_isProjection (precision : ℕ) :
    IsProjection seRoundV1 precision ∧ IsProjection seRoundV2 precision := by
  rw [seRoundV1_eq_cutAndRound, seRoundV2_eq_cutAndRound]
  exact ⟨cutAndRound_isProjection isThreshold_roundsUpV1 precision,
    cutAndRound_isProjection isThreshold_roundsUpV2 precision⟩

/-! ## Numbers that are too large -/

/-- The function returns a number that is within a unit of the last decimal. -/
def Within (round : ℚ → ℕ → Call ℚ) (val : ℚ) (precision : ℕ) : Prop :=
  ∃ result, round val precision = .ok result ∧ |result - val| ≤ 1 / 10 ^ precision

section Within

variable {Up : ℚ → Prop} [DecidablePred Up]

/-- What is rounded and scaled back is within a unit of the last decimal. -/
theorem abs_roundBy_div_sub_le (hup : IsThreshold Up) (val : ℚ) (p : ℕ) :
    |(roundBy Up (val * 10 ^ p) : ℚ) / 10 ^ p - val| ≤ 1 / 10 ^ p := by
  have hpos : (0 : ℚ) < 10 ^ p := by positivity
  have hlt := hup.abs_roundBy_sub_lt (val * 10 ^ p)
  have hdiff : (roundBy Up (val * 10 ^ p) : ℚ) / 10 ^ p - val =
      (roundBy Up (val * 10 ^ p) - val * 10 ^ p) / 10 ^ p := by
    field_simp
  rw [hdiff, abs_div, abs_of_pos hpos]
  exact div_le_div_of_nonneg_right hlt.le hpos.le

/-- The upper half of the last unit of 64 bits. -/
theorem floor_eq_of_last_half {x : ℚ} (hlo : 2 ^ 63 - 1 / 2 ≤ x) (hhi : x < 2 ^ 63) :
    ⌊x⌋ = 2 ^ 63 - 1 ∧ 1 / 2 ≤ Int.fract x := by
  have hfloor : ⌊x⌋ = 2 ^ 63 - 1 := by
    rw [Int.floor_eq_iff]
    push_cast
    constructor <;> linarith
  refine ⟨hfloor, ?_⟩
  rw [Int.fract, hfloor]
  push_cast
  linarith

/-- If one is added to the largest integer from the half on, everything below that half is
rounded. -/
theorem within_iff (hup : IsThreshold Up)
    (hlast : ∀ x : ℚ, 0 ≤ x → ⌊x⌋ = 2 ^ 63 - 1 → (Up x ↔ 1 / 2 ≤ Int.fract x)) :
    Within (cutAndRound Up) val p ↔ -2 ^ 63 - 1 < val * 10 ^ p ∧ val * 10 ^ p < 2 ^ 63 - 1 / 2 := by
  constructor
  · rintro ⟨result, hrun, -⟩
    obtain ⟨hfits, hfits'⟩ := fits_of_cutAndRound hrun
    obtain ⟨hlo, hhi⟩ := fits_truncate_iff.mp hfits
    refine ⟨hlo, ?_⟩
    by_contra hcon
    rw [not_lt] at hcon
    obtain ⟨hfloor, hfract⟩ := floor_eq_of_last_half hcon hhi
    have hx : 0 ≤ val * 10 ^ p := le_trans (by norm_num) hcon
    obtain ⟨-, hmax⟩ := hfits' ((hlast _ hx hfloor).mpr hfract)
    rw [truncate_of_nonneg hx, hfloor] at hmax
    exact absurd hmax (by decide)
  · rintro ⟨hlo, hhi⟩
    have hfits : Fits 64 (truncate (val * 10 ^ p)) :=
      fits_truncate_iff.mpr ⟨hlo, hhi.trans (by norm_num)⟩
    have hfits' : Up (val * 10 ^ p) → Fits 64 (truncate (val * 10 ^ p) + 1) := by
      intro hx
      have hnonneg := hup.nonneg hx
      rw [truncate_of_nonneg hnonneg] at hfits ⊢
      obtain ⟨hfitslo, hfitshi⟩ := hfits
      have hne : ⌊val * 10 ^ p⌋ ≠ 2 ^ 63 - 1 := by
        intro hfloor
        have hfract := (hlast _ hnonneg hfloor).mp hx
        rw [Int.fract, hfloor] at hfract
        push_cast at hfract
        linarith
      constructor
      · linarith
      · norm_num at hfitshi hne ⊢
        omega
    exact ⟨_, cutAndRound_of_fits hfits hfits', abs_roundBy_div_sub_le hup val p⟩

end Within

/-- Both functions round a number if and only if the scaled number is one of 64 bits, and
stays one when it is rounded up. -/
theorem seRound_within_iff (val : ℚ) (precision : ℕ) :
    (Within seRoundV1 val precision ∧ Within seRoundV2 val precision) ↔
      -2 ^ 63 - 1 < val * 10 ^ precision ∧ val * 10 ^ precision < 2 ^ 63 - 1 / 2 := by
  have hodd : ¬ Even (2 ^ 63 - 1 : ℤ) := by decide
  have hlast : ∀ x : ℚ, 0 ≤ x → ⌊x⌋ = 2 ^ 63 - 1 → (RoundsUpV2 x ↔ 1 / 2 ≤ Int.fract x) := by
    intro x hx hfloor
    rw [roundsUpV2_iff hx, hfloor]
    constructor
    · rintro (h51 | ⟨hhalf, -⟩)
      · linarith
      · exact hhalf
    · exact fun hhalf ↦ .inr ⟨hhalf, hodd⟩
  rw [seRoundV1_eq_cutAndRound, seRoundV2_eq_cutAndRound,
    within_iff isThreshold_roundsUpV1 fun x hx _ ↦ roundsUpV1_iff hx,
    within_iff isThreshold_roundsUpV2 hlast, and_self]

/-- The number `10 ^ 19`, to no decimals. -/
theorem seRound_not_within : ¬ ∀ (val : ℚ) (precision : ℕ), precision ≤ 32 →
    Within seRoundV1 val precision ∧ Within seRoundV2 val precision := by
  intro h
  obtain ⟨⟨result, hrun, -⟩, -⟩ := h (10 ^ 19) 0 (by norm_num)
  rw [seRoundV1_eq_cutAndRound] at hrun
  obtain ⟨-, hlt⟩ := fits_truncate_iff.mp (fits_of_cutAndRound hrun).1
  norm_num at hlt

end PgKmcb.Round
