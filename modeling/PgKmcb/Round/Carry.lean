import PgKmcb.Round.ByteUnits

/-!
# Sizes just below the next unit

`se_byte_units` chooses the unit by the size and then rounds the quotient, which lies
between 1 and 1024.  The number that is printed lies between them as well, but 1024 is
not excluded: there is no second look at the unit after the rounding.  Of the sizes whose
quotient has more decimals than are printed, those that carry (`Carries`) are printed as 1024
of their unit, and no others (`seByteUnits_range`).
-/

namespace PgKmcb.Round

open PgKmcb.Lib

/-- The quotient has more decimals than are printed for its unit. -/
def IsRounded (val : ℤ) : Prop :=
  Int.fract ((val : ℚ) / 1024 ^ unitIndex val * 10 ^ unitPrecision (unitIndex val)) ≠ 0

/-- The quotient is half a unit of the last place that is printed below 1024, or less. -/
def Carries (val : ℤ) : Prop :=
  1024 - 1 / 2 * (1 / 10 ^ unitPrecision (unitIndex val)) ≤ (val : ℚ) / 1024 ^ unitIndex val

instance (val : ℤ) : Decidable (IsRounded val) := inferInstanceAs (Decidable (_ ≠ _))

instance (val : ℤ) : Decidable (Carries val) := inferInstanceAs (Decidable (_ ≤ _))

/-- A quotient that is not rounded before is rounded when it is printed. -/
theorem value_round_zero {x : ℚ} (hlo : 1 ≤ x) (hhi : x < 1024) :
    1 ≤ (FixedDecimal.round x 0).value ∧ (FixedDecimal.round x 0).value ≤ 1024 := by
  have hvalue := FixedDecimal.value_round_of_nonneg (zero_le_one.trans hlo) 0
  rw [pow_zero, mul_one, div_one] at hvalue
  rw [hvalue]
  obtain ⟨hround, hround'⟩ := abs_le.mp (abs_roundTiesEven_sub_le x)
  have hone : 1 ≤ roundTiesEven x := by
    have : (0 : ℚ) < roundTiesEven x := by linarith
    exact_mod_cast this
  have hmax : roundTiesEven x ≤ 1024 := by
    have : (roundTiesEven x : ℚ) < 1025 := by linarith
    exact Int.lt_add_one_iff.mp (by exact_mod_cast this)
  exact ⟨by exact_mod_cast hone, by exact_mod_cast hmax⟩

/-- A quotient that is rounded is printed as it was rounded. -/
theorem value_round_round {x : ℚ} (hlo : 1 ≤ x) (hhi : x < 1024) (p : ℕ) :
    1 ≤ (FixedDecimal.round (round (x * 10 ^ p) / 10 ^ p) p).value ∧
      (FixedDecimal.round (round (x * 10 ^ p) / 10 ^ p) p).value ≤ 1024 ∧
      ((FixedDecimal.round (round (x * 10 ^ p) / 10 ^ p) p).value = 1024 ↔
        1024 - 1 / 2 * (1 / 10 ^ p) ≤ x) := by
  have hpos : (0 : ℚ) < 10 ^ p := by positivity
  have hone : (10 ^ p : ℤ) ≤ round (x * 10 ^ p) := by
    rw [le_round_iff]
    push_cast
    nlinarith
  have hmax : round (x * 10 ^ p) < 1024 * 10 ^ p + 1 := by
    rw [← not_le, le_round_iff]
    push_cast
    nlinarith
  have hedge : 1024 - 1 / 2 * (1 / 10 ^ p) ≤ x ↔ 1024 * 10 ^ p ≤ round (x * 10 ^ p) := by
    rw [le_round_iff, ← div_le_iff₀ hpos]
    push_cast
    rw [sub_div, mul_div_cancel_right₀ _ hpos.ne', mul_one_div]
  have hnonneg : 0 ≤ round (x * 10 ^ p) := (by positivity : (0 : ℤ) ≤ 10 ^ p).trans hone
  rw [FixedDecimal.value_round_div hnonneg, hedge, le_div_iff₀ hpos, div_le_iff₀ hpos,
    div_eq_iff hpos.ne', one_mul]
  generalize round (x * 10 ^ p) = n at *
  refine ⟨by exact_mod_cast hone, by exact_mod_cast Int.lt_add_one_iff.mp hmax, ?_⟩
  constructor
  · intro heq
    exact le_of_eq (by exact_mod_cast heq.symm)
  · intro hge
    exact_mod_cast le_antisymm (Int.lt_add_one_iff.mp hmax) hge

/-- The number that is printed is one to 1024 of the unit that the size lies in.  Where the
quotient is rounded, it is 1024 for the sizes that carry only. -/
theorem seByteUnits_range (index : ℤ → ℕ) (val : ℤ) (h1 : 1 ≤ val) (h60 : val < 2 ^ 60) :
    ∃ (d : FixedDecimal) (u : Fin 6),
      seByteUnits index val = .ok (some (d.print ++ unitText u)) ∧ (u : ℕ) = unitIndex val ∧
      1 ≤ d.value ∧ d.value ≤ 1024 ∧ (IsRounded val → (d.value = 1024 ↔ Carries val)) := by
  obtain ⟨hlo, hhi⟩ := unitIndex_spec h1
  obtain ⟨result, p, hround, -, hrun⟩ := seByteUnits_eq index h1
  refine ⟨_, _, hrun, min_eq_left ((unitIndex_le_iff h1).mpr h60), ?_⟩
  rw [byteRound_eq (zero_le_one.trans hlo) (scaled_lt hhi (unitPrecision_le _)),
    Except.ok.injEq] at hround
  split_ifs at hround with hzero
  · cases hround
    obtain ⟨hmin, hmax⟩ := value_round_zero hlo hhi
    exact ⟨hmin, hmax, fun h ↦ absurd hzero h⟩
  · cases hround
    obtain ⟨hmin, hmax, htop⟩ := value_round_round hlo hhi (unitPrecision (unitIndex val))
    exact ⟨hmin, hmax, fun _ ↦ htop⟩

/-- A kilobyte and a half. -/
theorem seByteUnits_range_1536 : ∃ (d : FixedDecimal) (u : Fin 6),
    seByteUnits (fun _ ↦ 0) 1536 = .ok (some (d.print ++ unitText u)) ∧
    (u : ℕ) = unitIndex 1536 ∧ 1 ≤ d.value ∧ d.value ≤ 1024 ∧
    (IsRounded 1536 → (d.value = 1024 ↔ Carries 1536)) :=
  seByteUnits_range _ 1536 (by decide) (by decide)

example : IsRounded (2 ^ 20 - 1) ∧ Carries (2 ^ 20 - 1) := by decide +kernel

/-- The last size below a megabyte is printed as `1024KB`. -/
theorem seByteUnits_mebibyte : ¬ ∀ (index : ℤ → ℕ) (val : ℤ), 1 ≤ val → val < 2 ^ 60 →
    ∃ (d : FixedDecimal) (u : Fin 6),
      seByteUnits index val = .ok (some (d.print ++ unitText u)) ∧
      1 ≤ d.value ∧ d.value < 1024 := by
  intro h
  obtain ⟨d, u, hrun, -, hlt⟩ := h (fun _ ↦ 0) (2 ^ 20 - 1) (by norm_num) (by norm_num)
  have htext : seByteUnits (fun _ ↦ 0) (2 ^ 20 - 1) =
      .ok (some ((⟨false, 1024, 0⟩ : FixedDecimal).print ++ unitText 1)) := by decide +kernel
  rw [htext, Except.ok.injEq, Option.some.injEq] at hrun
  obtain ⟨rfl, -⟩ := FixedDecimal.print_append_inj (unitText_spec 1).1 (unitText_spec u).1 hrun
  norm_num [FixedDecimal.value] at hlt

end PgKmcb.Round
