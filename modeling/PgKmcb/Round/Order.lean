import Mathlib.RingTheory.Coprime.Lemmas
import PgKmcb.Round.Carry

/-!
# Sizes in order

Sizes that are printed with the decimals of their unit sort like the texts do, across the
units as well: what carries is not more than the next unit begins with.  The exceptions are
the sizes that `byte_round` takes for whole numbers (`Drops`).  Their decimals are not
printed, and from megabytes on a quarter or a half of the unit is gone, while the size one
byte away is printed with all decimals.  So each of them is out of order with a neighbour,
and `seByteUnits_inOrder_iff` says that nothing else is.
-/

namespace PgKmcb.Round

open PgKmcb.Lib

/-- The quotient has decimals, and no more of them than are printed for its unit. -/
def Drops (val : ℤ) : Prop :=
  let x : ℚ := val / 1024 ^ unitIndex val
  Int.fract x ≠ 0 ∧ Int.fract (x * 10 ^ unitPrecision (unitIndex val)) = 0

instance (val : ℤ) : Decidable (Drops val) := inferInstanceAs (Decidable (_ ∧ _))

/-- The size that a text stands for. -/
def Stands (text : List Byte) (size : ℚ) : Prop :=
  ∃ (d : FixedDecimal) (u : Fin 6), text = d.print ++ unitText u ∧
    size = d.value * 1024 ^ (u : ℕ)

/-- What is printed of two sizes stands for sizes in the same order. -/
def InOrder (index : ℤ → ℕ) (val val' : ℤ) : Prop :=
  ∃ text text' size size', seByteUnits index val = .ok (some text) ∧
    seByteUnits index val' = .ok (some text') ∧ Stands text size ∧ Stands text' size' ∧
    (val ≤ val' → size ≤ size') ∧ (val' ≤ val → size' ≤ size)

/-- A text stands for one size at most. -/
theorem Stands.unique {text : List Byte} {size size' : ℚ} (h : Stands text size)
    (h' : Stands text size') : size = size' := by
  obtain ⟨d, u, rfl, rfl⟩ := h
  obtain ⟨d', u', heq, rfl⟩ := h'
  obtain ⟨rfl, hunit⟩ := FixedDecimal.print_append_inj (unitText_spec u).1 (unitText_spec u').1 heq
  rw [unitText_injective hunit]

/-! ## The size that is printed -/

/-- The number that is printed of a quotient. -/
def shown (x : ℚ) (precision : ℕ) : ℚ :=
  if Int.fract x ≠ 0 ∧ Int.fract (x * 10 ^ precision) = 0 then roundTiesEven x
  else round (x * 10 ^ precision) / 10 ^ precision

/-- The size that is printed. -/
def shownSize (val : ℤ) : ℚ :=
  shown (val / 1024 ^ unitIndex val) (unitPrecision (unitIndex val)) * 1024 ^ unitIndex val

/-- The number that `byte_round` makes of a quotient is printed as `shown` says. -/
theorem value_round_byteRound {x : ℚ} {p : ℕ} (hlo : 1 ≤ x) (hhi : x < 1024) {result : ℚ}
    {p' : ℕ} (h : byteRound x p = .ok (result, p')) (hp : p ≤ 2) :
    (FixedDecimal.round result p').value = shown x p ∧ 1 ≤ shown x p ∧ shown x p ≤ 1024 := by
  have hx := zero_le_one.trans hlo
  rw [byteRound_eq hx (scaled_lt hhi hp), Except.ok.injEq] at h
  rw [shown]
  by_cases hzero : Int.fract (x * 10 ^ p) = 0
  · rw [if_pos hzero] at h
    cases h
    obtain ⟨hmin, hmax⟩ := value_round_zero hlo hhi
    have hvalue := FixedDecimal.value_round_of_nonneg hx 0
    rw [pow_zero, mul_one, div_one] at hvalue
    rw [hvalue] at hmin hmax ⊢
    by_cases hint : Int.fract x = 0
    · -- a whole number stays what it is
      obtain ⟨n, rfl⟩ := Int.fract_eq_zero_iff.mp hint
      have hpow : ((n : ℚ) * 10 ^ p) = ((n * 10 ^ p : ℤ) : ℚ) := by push_cast; rfl
      rw [if_neg fun hne ↦ hne.1 hint, hpow, round_intCast, roundTiesEven_intCast] at *
      push_cast
      rw [mul_div_cancel_right₀ _ (by positivity)]
      exact ⟨rfl, hmin, hmax⟩
    · rw [if_pos ⟨hint, hzero⟩]
      exact ⟨rfl, hmin, hmax⟩
  · rw [if_neg hzero] at h
    cases h
    obtain ⟨hmin, hmax, -⟩ := value_round_round hlo hhi p
    have hnonneg : 0 ≤ round (x * 10 ^ p) := by
      rw [le_round_iff]
      push_cast
      have : 0 ≤ x * 10 ^ p := mul_nonneg hx (by positivity)
      linarith
    rw [FixedDecimal.value_round_div hnonneg] at hmin hmax ⊢
    rw [if_neg fun h ↦ hzero h.2]
    exact ⟨rfl, hmin, hmax⟩

theorem seByteUnits_stands (index : ℤ → ℕ) {val : ℤ} (h1 : 1 ≤ val) (h60 : val < 2 ^ 60) :
    ∃ text, seByteUnits index val = .ok (some text) ∧ Stands text (shownSize val) := by
  obtain ⟨hlo, hhi⟩ := unitIndex_spec h1
  obtain ⟨result, p, hround, -, hrun⟩ := seByteUnits_eq index h1
  have hu : min (unitIndex val) 5 = unitIndex val := min_eq_left ((unitIndex_le_iff h1).mpr h60)
  obtain ⟨hvalue, -⟩ := value_round_byteRound hlo hhi hround (unitPrecision_le _)
  refine ⟨_, hrun, _, _, rfl, ?_⟩
  show _ = _ * (1024 : ℚ) ^ min (unitIndex val) 5
  rw [hvalue, hu, shownSize]

/-- It is one to 1024 of the unit of the size. -/
theorem shownSize_bounds {val : ℤ} (h1 : 1 ≤ val) :
    1024 ^ unitIndex val ≤ shownSize val ∧ shownSize val ≤ 1024 ^ (unitIndex val + 1) := by
  obtain ⟨hlo, hhi⟩ := unitIndex_spec h1
  obtain ⟨result, p, hround, -⟩ := byteRound_shown hlo hhi (unitPrecision_le (unitIndex val))
  have hpos : (0 : ℚ) < 1024 ^ unitIndex val := by positivity
  obtain ⟨-, hmin, hmax⟩ := value_round_byteRound hlo hhi hround (unitPrecision_le _)
  refine ⟨le_mul_of_one_le_left hpos.le hmin, ?_⟩
  rw [pow_succ']
  exact mul_le_mul_of_nonneg_right hmax hpos.le

theorem inOrder_iff (index : ℤ → ℕ) {val val' : ℤ} (h1 : 1 ≤ val) (h60 : val < 2 ^ 60)
    (h1' : 1 ≤ val') (h60' : val' < 2 ^ 60) : InOrder index val val' ↔
      (val ≤ val' → shownSize val ≤ shownSize val') ∧
        (val' ≤ val → shownSize val' ≤ shownSize val) := by
  obtain ⟨text, hrun, hstands⟩ := seByteUnits_stands index h1 h60
  obtain ⟨text', hrun', hstands'⟩ := seByteUnits_stands index h1' h60'
  constructor
  · rintro ⟨t, t', size, size', ht, ht', hsize, hsize', horder⟩
    rw [hrun] at ht
    rw [hrun'] at ht'
    cases ht
    cases ht'
    rwa [hsize.unique hstands, hsize'.unique hstands'] at horder
  · exact fun horder ↦ ⟨text, text', _, _, hrun, hrun', hstands, hstands', horder⟩

/-! ## Sizes that keep their decimals -/

theorem shownSize_of_not_drops {val : ℤ} (h : ¬ Drops val) : shownSize val =
    round ((val : ℚ) / 1024 ^ unitIndex val * 10 ^ unitPrecision (unitIndex val)) /
      10 ^ unitPrecision (unitIndex val) * 1024 ^ unitIndex val := by
  rw [shownSize, shown]
  exact congrArg (· * _) (if_neg h)

/-- Half a unit of the last place that is printed. -/
theorem abs_shownSize_sub_le {val : ℤ} (h : ¬ Drops val) : |shownSize val - val| ≤
    1 / 2 * (1 / 10 ^ unitPrecision (unitIndex val)) * 1024 ^ unitIndex val := by
  have hpos : (0 : ℚ) < 1024 ^ unitIndex val := by positivity
  have hclose := abs_sub_round
    ((val : ℚ) / 1024 ^ unitIndex val * 10 ^ unitPrecision (unitIndex val))
  rw [abs_sub_comm] at hclose
  have hdiv := FixedDecimal.abs_div_sub_le (by positivity) hclose
  have hscale : shownSize val - val =
      (round ((val : ℚ) / 1024 ^ unitIndex val * 10 ^ unitPrecision (unitIndex val)) /
        10 ^ unitPrecision (unitIndex val) - val / 1024 ^ unitIndex val) *
          1024 ^ unitIndex val := by
    rw [shownSize_of_not_drops h, sub_mul, div_mul_cancel₀ _ hpos.ne']
  rw [hscale, abs_mul, abs_of_pos hpos]
  exact mul_le_mul_of_nonneg_right hdiv hpos.le

theorem unitIndex_mono {val val' : ℤ} (h : val ≤ val') : unitIndex val ≤ unitIndex val' :=
  Nat.log_mono_right (Int.toNat_le_toNat h)

/-- In one unit the rounding keeps the order, and between two of them the smaller one ends
where the larger one begins. -/
theorem shownSize_mono {val val' : ℤ} (h1 : 1 ≤ val) (hle : val ≤ val') (h : ¬ Drops val)
    (h' : ¬ Drops val') : shownSize val ≤ shownSize val' := by
  rcases (unitIndex_mono hle).eq_or_lt with hunit | hunit
  · rw [shownSize_of_not_drops h, shownSize_of_not_drops h', ← hunit]
    have hround : round ((val : ℚ) / 1024 ^ unitIndex val * 10 ^ unitPrecision (unitIndex val)) ≤
        round ((val' : ℚ) / 1024 ^ unitIndex val * 10 ^ unitPrecision (unitIndex val)) := by
      rw [le_round_iff]
      refine le_trans (sub_le_iff_le_add.mpr (round_le_add_half _)) ?_
      have : (val : ℚ) ≤ val' := by exact_mod_cast hle
      gcongr
    gcongr
  · calc shownSize val ≤ 1024 ^ (unitIndex val + 1) := (shownSize_bounds h1).2
      _ ≤ 1024 ^ unitIndex val' := pow_le_pow_right₀ (by norm_num) hunit
      _ ≤ shownSize val' := (shownSize_bounds (h1.trans hle)).1

/-! ## Sizes that drop them -/

/-- Decimals are dropped from megabytes on. -/
theorem unitIndex_of_drops {val : ℤ} (h : Drops val) : 2 ≤ unitIndex val := by
  by_contra hlt
  have hprecision : unitPrecision (unitIndex val) = 0 := by
    rw [unitPrecision, if_neg (by omega), if_neg (by omega)]
  refine h.1 ?_
  have hzero := h.2
  rwa [hprecision, pow_zero, mul_one] at hzero

theorem unitPrecision_pos {i : ℕ} (h : 2 ≤ i) : 1 ≤ unitPrecision i := by
  rw [unitPrecision]
  split_ifs <;> omega

/-- The quotient is a number of quarters: the unit has no factor of five. -/
theorem dvd_of_drops {val : ℤ} (h : Drops val) : (1024 : ℤ) ^ unitIndex val ∣ 4 * val := by
  obtain ⟨n, hn⟩ := Int.fract_eq_zero_iff.mp h.2
  have hpos : (0 : ℚ) < 1024 ^ unitIndex val := by positivity
  rw [div_mul_eq_mul_div, eq_div_iff hpos.ne'] at hn
  have hcast : n * 1024 ^ unitIndex val = val * 10 ^ unitPrecision (unitIndex val) := by
    exact_mod_cast hn
  have hten : (10 : ℤ) ^ unitPrecision (unitIndex val) ∣ 4 * 5 ^ 2 := by
    calc (10 : ℤ) ^ unitPrecision (unitIndex val) ∣ 10 ^ 2 := pow_dvd_pow _ (unitPrecision_le _)
      _ = 4 * 5 ^ 2 := by norm_num
  have hdvd : (1024 : ℤ) ^ unitIndex val ∣ 5 ^ 2 * (4 * val) := by
    calc (1024 : ℤ) ^ unitIndex val ∣ val * 10 ^ unitPrecision (unitIndex val) :=
          ⟨n, by rw [← hcast, mul_comm]⟩
      _ ∣ val * (4 * 5 ^ 2) := mul_dvd_mul_left _ hten
      _ = 5 ^ 2 * (4 * val) := by ring
  have hcoprime : IsCoprime (1024 : ℤ) 5 := ⟨-1, 205, by norm_num⟩
  exact hcoprime.pow.dvd_of_dvd_mul_left hdvd

theorem not_dvd_of_drops {val : ℤ} (h : Drops val) : ¬ (1024 : ℤ) ^ unitIndex val ∣ val := by
  rintro ⟨n, hn⟩
  refine h.1 (Int.fract_eq_zero_iff.mpr ⟨n, ?_⟩)
  rw [eq_div_iff (by positivity), mul_comm]
  exact_mod_cast hn.symm

theorem unit_of_drops {val : ℤ} (h : Drops val) : (1024 : ℤ) ^ 2 ≤ 1024 ^ unitIndex val :=
  pow_le_pow_right₀ (by norm_num) (unitIndex_of_drops h)

/-- What is printed is off by a quarter of the unit or more. -/
theorem quarter_le_of_drops {val : ℤ} (h : Drops val) :
    1 / 4 * 1024 ^ unitIndex val ≤ |shownSize val - val| := by
  obtain ⟨k, hk⟩ := dvd_of_drops h
  have hshown : shownSize val =
      roundTiesEven (val / 1024 ^ unitIndex val) * 1024 ^ unitIndex val := by
    rw [shownSize, shown]
    exact congrArg (· * _) (if_pos h)
  generalize roundTiesEven (val / 1024 ^ unitIndex val) = n at hshown
  have hne : 4 * n - k ≠ 0 := by
    intro hzero
    obtain rfl : k = 4 * n := by omega
    rw [mul_left_comm] at hk
    exact not_dvd_of_drops h ⟨n, mul_left_cancel₀ (by decide) hk⟩
  have hone : (1 : ℚ) ≤ |(4 * n - k : ℚ)| := by exact_mod_cast Int.one_le_abs hne
  have hfour : 4 * (shownSize val - val) = (4 * n - k) * 1024 ^ unitIndex val := by
    have hk' : (4 * val : ℚ) = 1024 ^ unitIndex val * k := by exact_mod_cast hk
    rw [mul_sub, hk', hshown]
    ring
  have hpos : (0 : ℚ) < 1024 ^ unitIndex val := by positivity
  have habs := congrArg abs hfour
  rw [abs_mul, abs_mul, abs_of_pos hpos, abs_of_pos (show (0 : ℚ) < 4 by norm_num)] at habs
  nlinarith

theorem unitIndex_eq_iff {val : ℤ} (h1 : 1 ≤ val) {u : ℕ} :
    unitIndex val = u ↔ 1024 ^ u ≤ val ∧ val < 1024 ^ (u + 1) := by
  lift val to ℕ using by omega
  rw [unitIndex, Int.toNat_natCast, Nat.log_eq_iff (.inr ⟨by norm_num, by omega⟩)]
  norm_cast

/-- The sizes next to one that drops its decimals have the same unit, and keep theirs. -/
theorem neighbour_of_drops {val : ℤ} (h1 : 1 ≤ val) (h : Drops val) {e : ℤ} (he : |e| = 1) :
    1 ≤ val + e ∧ unitIndex (val + e) = unitIndex val ∧ ¬ Drops (val + e) := by
  have hunit := unit_of_drops h
  have hstep := eq_or_eq_neg_of_abs_eq he
  obtain ⟨hlo, hhi⟩ := (unitIndex_eq_iff h1).mp rfl
  -- four bytes are less than a unit
  have hnot : ¬ (1024 : ℤ) ^ unitIndex val ∣ 4 * (val + e) := by
    rw [mul_add, Int.dvd_add_right (dvd_of_drops h)]
    intro hfour
    have hle := Int.le_of_dvd (by rw [abs_mul, he]; decide) ((dvd_abs _ _).mpr hfour)
    rw [abs_mul, he] at hle
    norm_num at hle
    omega
  have hpos : 1 ≤ val + e := by
    norm_num at hunit
    omega
  have hindex : unitIndex (val + e) = unitIndex val := by
    have hne : val ≠ 1024 ^ unitIndex val := fun heq ↦ not_dvd_of_drops h (dvd_of_eq heq.symm)
    have hne' : val + e ≠ 1024 ^ (unitIndex val + 1) := fun heq ↦
      hnot (heq ▸ dvd_mul_of_dvd_right (pow_dvd_pow _ (Nat.le_succ _)) _)
    exact (unitIndex_eq_iff hpos).mpr ⟨by omega, by omega⟩
  refine ⟨hpos, hindex, fun h' ↦ hnot ?_⟩
  have hdvd := dvd_of_drops h'
  rwa [hindex] at hdvd

/-- So the size that is printed of a neighbour is not off by a quarter of the unit. -/
theorem abs_neighbour_le {val : ℤ} (h1 : 1 ≤ val) (h60 : val < 2 ^ 60) (h : Drops val) {e : ℤ}
    (he : |e| = 1) : 1 ≤ val + e ∧ val + e < 2 ^ 60 ∧ ¬ Drops (val + e) ∧
      |shownSize (val + e) - (val + e : ℤ)| ≤ 1 / 20 * 1024 ^ unitIndex val := by
  obtain ⟨hpos, hindex, hkeeps⟩ := neighbour_of_drops h1 h he
  have hclose := abs_shownSize_sub_le hkeeps
  have hplaces : (10 : ℚ) ^ 1 ≤ 10 ^ unitPrecision (unitIndex val) :=
    pow_le_pow_right₀ (by norm_num) (unitPrecision_pos (unitIndex_of_drops h))
  have hplace := one_div_le_one_div_of_le (by positivity) hplaces
  rw [hindex] at hclose
  refine ⟨hpos, ?_, hkeeps, hclose.trans ?_⟩
  · rwa [← unitIndex_le_iff hpos, hindex, unitIndex_le_iff h1]
  · gcongr
    linarith

/-- A size is printed in order with all sizes that keep their decimals if and only if it
keeps its own. -/
theorem seByteUnits_inOrder_iff (index : ℤ → ℕ) (val : ℤ) (h1 : 1 ≤ val)
    (h60 : val < 2 ^ 60) : (∀ val', 1 ≤ val' → val' < 2 ^ 60 → ¬ Drops val' →
      InOrder index val val') ↔ ¬ Drops val := by
  constructor
  · intro horder h
    have hunit : (1024 : ℚ) ^ 2 ≤ 1024 ^ unitIndex val := by exact_mod_cast unit_of_drops h
    rcases le_abs.mp (quarter_le_of_drops h) with hup | hdown
    · -- the size is printed as more than the next one
      obtain ⟨hlo, hhi, hkeeps, hclose⟩ := abs_neighbour_le h1 h60 h (e := 1) rfl
      have hle := ((inOrder_iff index h1 h60 hlo hhi).mp (horder _ hlo hhi hkeeps)).1 (by omega)
      push_cast at hclose
      linarith [(abs_le.mp hclose).2]
    · obtain ⟨hlo, hhi, hkeeps, hclose⟩ := abs_neighbour_le h1 h60 h (e := -1) rfl
      have hle := ((inOrder_iff index h1 h60 hlo hhi).mp (horder _ hlo hhi hkeeps)).2 (by omega)
      push_cast at hclose
      linarith [(abs_le.mp hclose).1]
  · intro h val' h1' h60' h'
    rw [inOrder_iff index h1 h60 h1' h60']
    exact ⟨fun hle ↦ shownSize_mono h1 hle h h', fun hle ↦ shownSize_mono h1' hle h' h⟩

/-- A megabyte and a half is printed as `2MB`. -/
theorem seByteUnits_inOrder_iff_half : (∀ val', 1 ≤ val' → val' < 2 ^ 60 → ¬ Drops val' →
    InOrder (fun _ ↦ 0) (3 * 2 ^ 19) val') ↔ ¬ Drops (3 * 2 ^ 19) :=
  seByteUnits_inOrder_iff _ (3 * 2 ^ 19) (by norm_num) (by norm_num)

example : Drops (3 * 2 ^ 19) := by decide +kernel

end PgKmcb.Round
