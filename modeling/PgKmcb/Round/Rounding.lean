import PgKmcb.Lib.Cut
import PgKmcb.Round.ByteUnits

/-!
# Rounding to a number of decimals (`se_round.c`, `pg_round.c`)

`se_round_v1` rounds half up, `se_round_v2` rounds a half to the even digit; both cut
the scaled number toward zero first and then decide whether to add one.  `RoundsUpV1`
and `RoundsUpV2` are the two decisions, and all that is said of the functions is said
of these (`seRoundV1_eq`, `seRoundV2_eq`).

The part that is cut off has the sign of the number and is compared with positive
thresholds, so one is never added to a negative number (`seRound_odd_iff`).
-/

namespace PgKmcb.Round

open PgKmcb.Lib

/-! ## The functions -/

/-- `se_round_v1`. -/
def seRoundV1 (val : ℚ) (precision : ℕ) : Call ℚ := do
  let ratio : ℚ := 10 ^ precision
  let x := val * ratio
  let ival ← convert 64 x
  let m1 := x - ival
  if m1 ≥ 1 / 2 then
    let ival' ← checked 64 (ival + 1)
    return ival' / ratio
  else
    return ival / ratio

/-- `se_round_v2`. -/
def seRoundV2 (val : ℚ) (precision : ℕ) : Call ℚ := do
  let ratio : ℚ := 10 ^ precision
  let x := val * ratio
  let ival ← convert 64 x
  let m1 := x - ival
  let m2 := m1 * 100
  let dm ← convert 32 m2
  let mod : ℚ := dm / 100
  if mod ≥ 6 / 10 then
    let ival' ← checked 64 (ival + 1)
    return ival' / ratio
  else if mod < 5 / 10 then
    return ival / ratio
  else if 50 / 100 = mod then
    let f := narrow 32 (ival.tmod 10)
    if 0 = f.tmod 2 then
      return ival / ratio
    else
      let ival' ← checked 64 (ival + 1)
      return ival' / ratio
  else
    let ival' ← checked 64 (ival + 1)
    return ival' / ratio

/-- `se_round_format`; the result is a null pointer or the payload of the new `text`. -/
def seRoundFormat (val : ℚ) (precision : ℕ) : Call (Option (List Byte)) :=
  if precision > 32 then return none
  else do
    let ptrBuf := snprintf seMaxNumstr (FixedDecimal.round val precision).print
    let size ← strlen ptrBuf
    return some (ptrBuf.take size)

/-- `round2str_v1` and `round2str_v2`, which differ in how they round.  The precision
is an `int32` and becomes a `uint32_t`. -/
def round2str (seRound : ℚ → ℕ → Call ℚ) (val : ℚ) (precision : ℤ) :
    Call (SqlResult (List Byte)) := do
  let rounded ← seRound val (UInt32.ofInt precision).toNat
  let ptrText ← seRoundFormat rounded (UInt32.ofInt precision).toNat
  return textOrNull ptrText

/-- What `se_round_v1` compares. -/
def RoundsUpV1 (x : ℚ) : Prop := x - truncate x ≥ 1 / 2

/-- What `se_round_v2` compares: the first two digits behind the cut, and for 50 the
digit before it. -/
def RoundsUpV2 (x : ℚ) : Prop :=
  truncate ((x - truncate x) * 100) > 50 ∨
    truncate ((x - truncate x) * 100) = 50 ∧ ¬ Even (truncate x)

instance (x : ℚ) : Decidable (RoundsUpV1 x) :=
  inferInstanceAs (Decidable (x - truncate x ≥ 1 / 2))

instance (x : ℚ) : Decidable (RoundsUpV2 x) :=
  inferInstanceAs (Decidable (truncate ((x - truncate x) * 100) > 50 ∨
    truncate ((x - truncate x) * 100) = 50 ∧ ¬ Even (truncate x)))

/-- The last digit tells an even number. -/
theorem even_iff_last_digit (n : ℤ) : 0 = (narrow 32 (n.tmod 10)).tmod 2 ↔ Even n := by
  have hlt := Int.tmod_lt_of_pos n (show (0 : ℤ) < 10 by norm_num)
  have hgt := Int.lt_tmod_of_pos n (show (0 : ℤ) < 10 by norm_num)
  have hfits : Fits 32 (n.tmod 10) := by
    constructor <;> norm_num <;> omega
  have hsplit := Int.mul_tdiv_add_tmod n 10
  rw [narrow_of_fits (by norm_num) hfits, eq_comm, ← Int.dvd_iff_tmod_eq_zero,
    even_iff_two_dvd]
  omega

variable {x : ℚ}

/-- A number that is smaller than the type in both directions leaves room for one
more. -/
theorem fits_truncate {w : ℕ} (h : |x| < 2 ^ (w - 1) - 1) :
    Fits w (truncate x) ∧ Fits w (truncate x + 1) := by
  have habs := (abs_truncate_le x).trans_lt h
  rw [abs_lt] at habs
  obtain ⟨hlo, hhi⟩ := habs
  have hlo' : -(2 ^ (w - 1) - 1 : ℤ) < truncate x := by exact_mod_cast hlo
  have hhi' : truncate x < 2 ^ (w - 1) - 1 := by exact_mod_cast hhi
  constructor <;> constructor <;> linarith

/-- The two digits behind the cut are below 100. -/
theorem fits_digits (x : ℚ) : Fits 32 (truncate ((x - truncate x) * 100)) := by
  refine (fits_truncate ?_).1
  rw [abs_mul]
  have hlt := abs_sub_truncate_lt x
  norm_num
  linarith

/-- What both functions do: cut the scaled number, add one if the decision says so, and
scale back. -/
def cutAndRound (Up : ℚ → Prop) [DecidablePred Up] (val : ℚ) (precision : ℕ) : Call ℚ := do
  let ratio : ℚ := 10 ^ precision
  let ival ← convert 64 (val * ratio)
  if Up (val * ratio) then
    let ival' ← checked 64 (ival + 1)
    return ival' / ratio
  else
    return ival / ratio

section CutAndRound

variable {Up : ℚ → Prop} [DecidablePred Up] {val : ℚ} {p : ℕ}

theorem cutAndRound_of_fits (hfits : Fits 64 (truncate (val * 10 ^ p)))
    (hfits' : Up (val * 10 ^ p) → Fits 64 (truncate (val * 10 ^ p) + 1)) :
    cutAndRound Up val p = .ok (roundBy Up (val * 10 ^ p) / 10 ^ p) := by
  rw [cutAndRound, convert_of_fits hfits, Run.ok_bind, roundBy]
  by_cases hup : Up (val * 10 ^ p)
  · rw [if_pos hup, if_pos hup, checked_of_fits (hfits' hup), Run.ok_bind]
    rfl
  · rw [if_neg hup, if_neg hup, add_zero]
    rfl

/-- A run that returns has met no number that does not fit. -/
theorem fits_of_cutAndRound {result : ℚ} (h : cutAndRound Up val p = .ok result) :
    Fits 64 (truncate (val * 10 ^ p)) ∧
      (Up (val * 10 ^ p) → Fits 64 (truncate (val * 10 ^ p) + 1)) := by
  obtain ⟨ival, hconvert, h⟩ := Run.bind_eq_ok.mp h
  rw [convert] at hconvert
  split_ifs at hconvert with hfits
  cases hconvert
  refine ⟨hfits, fun hup ↦ ?_⟩
  rw [if_pos hup] at h
  obtain ⟨ival', hchecked, -⟩ := Run.bind_eq_ok.mp h
  rw [checked] at hchecked
  split_ifs at hchecked with hfits'
  exact hfits'

end CutAndRound

theorem seRoundV1_eq_cutAndRound : seRoundV1 = cutAndRound RoundsUpV1 := by
  funext val p
  rw [seRoundV1, cutAndRound]
  dsimp only
  rw [convert]
  split_ifs with hfits hup
  · rw [Run.ok_bind, Run.ok_bind]
    rw [RoundsUpV1] at hup
    rw [if_pos hup]
  · rw [Run.ok_bind, Run.ok_bind]
    rw [RoundsUpV1] at hup
    rw [if_neg hup]
  · rfl
  · rfl

/-- The branches of `se_round_v2`, with the two digits as an integer. -/
theorem digit_branches {α : Type} (dm ival : ℤ) (up down : α) :
    (if (dm : ℚ) / 100 ≥ 6 / 10 then up
      else if (dm : ℚ) / 100 < 5 / 10 then down
      else if (50 : ℚ) / 100 = dm / 100 then if Even ival then down else up
      else up) = if dm > 50 ∨ dm = 50 ∧ ¬ Even ival then up else down := by
  have h60 : (dm : ℚ) / 100 ≥ 6 / 10 ↔ dm ≥ 60 := by
    rw [ge_iff_le, le_div_iff₀ (by norm_num)]
    norm_num
    exact_mod_cast Iff.rfl
  have h50 : (dm : ℚ) / 100 < 5 / 10 ↔ dm < 50 := by
    rw [div_lt_iff₀ (by norm_num)]
    norm_num
    exact_mod_cast Iff.rfl
  have heq : (50 : ℚ) / 100 = dm / 100 ↔ dm = 50 := by
    rw [div_left_inj' (by norm_num), eq_comm]
    exact_mod_cast Iff.rfl
  simp only [h60, h50, heq]
  rcases lt_trichotomy dm 50 with hlt | rfl | hgt
  · have hdown : ¬ (dm > 50 ∨ dm = 50 ∧ ¬ Even ival) := by
      rintro (h | ⟨h, -⟩)
      · exact absurd h (not_lt.mpr hlt.le)
      · exact absurd h hlt.ne
    rw [if_neg (by omega), if_pos hlt, if_neg hdown]
  · by_cases heven : Even ival
    · simp [heven]
    · simp [heven]
  · rw [if_neg (not_lt.mpr hgt.le), if_neg hgt.ne', ite_self]
    exact (if_pos (Or.inl hgt)).symm

theorem seRoundV2_eq_cutAndRound : seRoundV2 = cutAndRound RoundsUpV2 := by
  funext val p
  have hdigits := fits_digits (val * 10 ^ p)
  rw [seRoundV2, cutAndRound]
  dsimp only
  rw [convert]
  split_ifs with hfits hup
  · rw [Run.ok_bind, Run.ok_bind, convert_of_fits hdigits, Run.ok_bind]
    simp only [even_iff_last_digit, digit_branches]
    rw [RoundsUpV2] at hup
    rw [if_pos hup]
  · rw [Run.ok_bind, Run.ok_bind, convert_of_fits hdigits, Run.ok_bind]
    simp only [even_iff_last_digit, digit_branches]
    rw [RoundsUpV2] at hup
    rw [if_neg hup]
  · rfl
  · rfl

/-- `se_round_v1` as a decision. -/
theorem seRoundV1_eq {val : ℚ} {p : ℕ} (h : |val * 10 ^ p| < 2 ^ 63 - 1) :
    seRoundV1 val p =
      .ok ((truncate (val * 10 ^ p) + if RoundsUpV1 (val * 10 ^ p) then 1 else 0 : ℤ) /
        10 ^ p) := by
  obtain ⟨hfits, hfits'⟩ := fits_truncate (w := 64) h
  rw [seRoundV1_eq_cutAndRound, cutAndRound_of_fits hfits fun _ ↦ hfits', roundBy]

/-- `se_round_v2` as a decision. -/
theorem seRoundV2_eq {val : ℚ} {p : ℕ} (h : |val * 10 ^ p| < 2 ^ 63 - 1) :
    seRoundV2 val p =
      .ok ((truncate (val * 10 ^ p) + if RoundsUpV2 (val * 10 ^ p) then 1 else 0 : ℤ) /
        10 ^ p) := by
  obtain ⟨hfits, hfits'⟩ := fits_truncate (w := 64) h
  rw [seRoundV2_eq_cutAndRound, cutAndRound_of_fits hfits fun _ ↦ hfits', roundBy]

/-! ## Numbers of either sign -/

theorem roundsUpV1_iff (h : 0 ≤ x) : RoundsUpV1 x ↔ 1 / 2 ≤ Int.fract x := by
  rw [RoundsUpV1, sub_truncate_of_nonneg h]

/-- The two digits that `se_round_v2` looks at. -/
theorem roundsUpV2_iff_digits (h : 0 ≤ x) : RoundsUpV2 x ↔
    ⌊Int.fract x * 100⌋ > 50 ∨ ⌊Int.fract x * 100⌋ = 50 ∧ ¬ Even ⌊x⌋ := by
  have hnonneg : 0 ≤ Int.fract x * 100 := mul_nonneg (Int.fract_nonneg x) (by norm_num)
  rw [RoundsUpV2, sub_truncate_of_nonneg h, truncate_of_nonneg hnonneg, truncate_of_nonneg h]

/-- The same as a bound on the fraction. -/
theorem roundsUpV2_iff (h : 0 ≤ x) :
    RoundsUpV2 x ↔ 51 / 100 ≤ Int.fract x ∨ 1 / 2 ≤ Int.fract x ∧ ¬ Even ⌊x⌋ := by
  have h51 : ⌊Int.fract x * 100⌋ > 50 ↔ 51 / 100 ≤ Int.fract x := by
    rw [gt_iff_lt, ← Int.add_one_le_iff, Int.le_floor, div_le_iff₀ (by norm_num)]
    norm_num
  have h50 : ⌊Int.fract x * 100⌋ ≥ 50 ↔ 1 / 2 ≤ Int.fract x := by
    rw [ge_iff_le, Int.le_floor, div_le_iff₀ (by norm_num)]
    constructor <;> intro h <;> push_cast at h ⊢ <;> linarith
  rw [roundsUpV2_iff_digits h, ← h51, ← h50]
  constructor
  · rintro (hgt | ⟨heq, hodd⟩)
    · exact .inl hgt
    · exact .inr ⟨heq.ge, hodd⟩
  · rintro (hgt | ⟨hge, hodd⟩)
    · exact .inl hgt
    · rcases lt_or_eq_of_le hge with hlt | heq
      · exact .inl hlt
      · exact .inr ⟨heq.symm, hodd⟩

/-- To a number that is not positive, one is never added. -/
theorem not_roundsUpV1 (h : x ≤ 0) : ¬ RoundsUpV1 x := by
  have hle := sub_truncate_of_nonpos h
  rw [RoundsUpV1, not_le]
  linarith

theorem not_roundsUpV2 (h : x ≤ 0) : ¬ RoundsUpV2 x := by
  have hle := sub_truncate_of_nonpos h
  have hdigits : truncate ((x - truncate x) * 100) ≤ 0 := by
    have hneg := truncate_neg (-((x - truncate x) * 100))
    rw [neg_neg] at hneg
    rw [hneg, truncate_of_nonneg (by linarith), neg_nonpos]
    exact Int.floor_nonneg.mpr (by linarith)
  rw [RoundsUpV2]
  omega

/-- Rounding a number and its negative gives a result and its negative. -/
def OddAt (round : ℚ → ℕ → Call ℚ) (val : ℚ) (precision : ℕ) : Prop :=
  ∃ result, round val precision = .ok result ∧ round (-val) precision = .ok (-result)

/-- A rounding that never adds one to a number that is not positive is odd where it
does not add one to the absolute value either. -/
theorem oddAt_iff {round : ℚ → ℕ → Call ℚ} {Up : ℚ → Prop} [DecidablePred Up] {p : ℕ}
    (hround : ∀ val : ℚ, |val * 10 ^ p| < 2 ^ 63 - 1 → round val p =
      .ok ((truncate (val * 10 ^ p) + if Up (val * 10 ^ p) then 1 else 0 : ℤ) / 10 ^ p))
    (hup : ∀ x ≤ 0, ¬ Up x) {val : ℚ} (h : |val| * 10 ^ p < 2 ^ 63 - 1) :
    OddAt round val p ↔ ¬ Up (|val| * 10 ^ p) := by
  have hpos : (0 : ℚ) < 10 ^ p := by positivity
  have hswap : OddAt round val p ↔ OddAt round |val| p := by
    rcases abs_choice val with habs | habs
    · rw [habs]
    · rw [habs]
      constructor
      · rintro ⟨result, hval, hneg⟩
        exact ⟨-result, hneg, by rw [neg_neg, neg_neg, hval]⟩
      · rintro ⟨result, hneg, hval⟩
        exact ⟨-result, by rw [← hval, neg_neg], by rw [neg_neg, hneg]⟩
  rw [hswap]
  have hnonneg : 0 ≤ |val| * 10 ^ p := mul_nonneg (abs_nonneg val) hpos.le
  have habs : |(|val| * 10 ^ p)| < 2 ^ 63 - 1 := by rwa [abs_of_nonneg hnonneg]
  have hval := hround |val| habs
  have hneg := hround (-|val|) (by rwa [neg_mul, abs_neg])
  rw [neg_mul, if_neg (hup _ (neg_nonpos.mpr hnonneg)), truncate_neg, add_zero] at hneg
  generalize |val| * 10 ^ p = x at *
  constructor
  · rintro ⟨result, hresult, hresult'⟩ hx
    rw [hval, if_pos hx, Except.ok.injEq] at hresult
    rw [hneg, ← hresult, Except.ok.injEq] at hresult'
    field_simp at hresult'
    push_cast at hresult'
    linarith
  · intro hx
    rw [if_neg hx, add_zero] at hval
    refine ⟨_, hval, hneg.trans ?_⟩
    push_cast
    rw [neg_div]

/-- Where the rounding functions are odd: one must not be added to the absolute value. -/
theorem seRound_odd_iff (val : ℚ) (precision : ℕ) (h : |val| * 10 ^ precision < 2 ^ 63 - 1) :
    ((OddAt seRoundV1 val precision ∧ OddAt seRoundV2 val precision) ↔
      Int.fract (|val| * 10 ^ precision) < 1 / 2) ∧
    (OddAt seRoundV2 val precision ↔ Int.fract (|val| * 10 ^ precision) < 1 / 2 ∨
      Int.fract (|val| * 10 ^ precision) < 51 / 100 ∧ Even ⌊|val| * 10 ^ precision⌋) := by
  have hnonneg : 0 ≤ |val| * 10 ^ precision := mul_nonneg (abs_nonneg val) (by positivity)
  have h1 := oddAt_iff (fun _ h ↦ seRoundV1_eq h) (fun _ ↦ not_roundsUpV1) h
  have h2 := oddAt_iff (fun _ h ↦ seRoundV2_eq h) (fun _ ↦ not_roundsUpV2) h
  rw [roundsUpV1_iff hnonneg, not_le] at h1
  rw [roundsUpV2_iff hnonneg, not_or, not_and_or, not_le, not_le, not_not] at h2
  have hlt : Int.fract (|val| * 10 ^ precision) < 1 / 2 →
      Int.fract (|val| * 10 ^ precision) < 51 / 100 := fun h ↦ by linarith
  rw [h1, h2]
  constructor
  · exact ⟨And.left, fun hhalf ↦ ⟨hhalf, hlt hhalf, .inl hhalf⟩⟩
  · constructor
    · rintro ⟨h51, hhalf | heven⟩
      · exact .inl hhalf
      · exact .inr ⟨h51, heven⟩
    · rintro (hhalf | ⟨h51, heven⟩)
      · exact ⟨hlt hhalf, .inl hhalf⟩
      · exact ⟨h51, .inr heven⟩

/-- Minus one quarter, to no decimals. -/
theorem seRound_odd_quarter :
    ((OddAt seRoundV1 (-1 / 4) 0 ∧ OddAt seRoundV2 (-1 / 4) 0) ↔
      Int.fract (|(-1 / 4 : ℚ)| * 10 ^ 0) < 1 / 2) ∧
    (OddAt seRoundV2 (-1 / 4) 0 ↔ Int.fract (|(-1 / 4 : ℚ)| * 10 ^ 0) < 1 / 2 ∨
      Int.fract (|(-1 / 4 : ℚ)| * 10 ^ 0) < 51 / 100 ∧ Even ⌊|(-1 / 4 : ℚ)| * 10 ^ 0⌋) :=
  seRound_odd_iff (-1 / 4) 0 (by norm_num)

/-- One and a half is rounded to two, and its negative to minus one. -/
theorem seRoundV1_not_odd : ¬ ∀ (val : ℚ) (precision : ℕ),
    |val| * 10 ^ precision < 2 ^ 63 - 1 →
    OddAt seRoundV1 val precision ∧ OddAt seRoundV2 val precision := by
  intro h
  obtain ⟨⟨result, hpos, hneg⟩, -⟩ := h (3 / 2) 0 (by norm_num)
  have htwo : seRoundV1 (3 / 2) 0 = .ok 2 := by decide +kernel
  have hone : seRoundV1 (-(3 / 2)) 0 = .ok (-1) := by decide +kernel
  rw [htwo] at hpos
  rw [hone] at hneg
  cases hpos
  cases hneg

end PgKmcb.Round
