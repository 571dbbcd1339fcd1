import PgKmcb.Postgres
import PgKmcb.Lib.Cut
import PgKmcb.Lib.Decimal
import PgKmcb.Lib.Utf8

/-!
# Sizes with a unit (`se_byte_units`)

A size is divided by a power of 1024, rounded and printed with a unit.  The floating
arithmetic is read as exact rationals.  `byteRound` may take all decimals away;
`Shown` says what it and the print together leave of the number, and does not mention
which of the two did the rounding.

The index of the unit is clamped where the unit is printed, but not where the size is
divided (`seByteUnits_shown_iff`).  A size that is not positive has no logarithm, and nothing
is promised of the index that is computed for it; whichever it is, there is no text
(`seByteUnits_eq_none_iff`).
-/

namespace PgKmcb.Round

open PgKmcb.Lib

/-! ## The functions -/

/-- `SE_MAX_NUMSTR`. -/
def seMaxNumstr : ℕ := 64

/-- `units`. -/
def units : Vector (List Char) 6 :=
  #v[['B'], ['K', 'B'], ['M', 'B'], ['G', 'B'], ['T', 'B'], ['P', 'B']]

/-- The bytes of a unit. -/
def unitText (i : Fin 6) : List Byte := Utf8.encode (units.get i)

/-- What `snprintf` leaves in a buffer of the given size. -/
def snprintf (size : ℕ) (s : List Byte) : List Byte := s.take (size - 1) ++ [0]

/-- `byte_format`; the result is a null pointer or the payload of the new `text`. -/
def byteFormat (val : ℚ) (precision currentIndex : ℕ) : Call (Option (List Byte)) :=
  if precision > 2 then return none
  else do
    let currentIndex : Fin 6 :=
      if h : currentIndex > 5 then 5 else ⟨currentIndex, by omega⟩
    let ptrBuf := snprintf seMaxNumstr
      ((FixedDecimal.round val precision).print ++ unitText currentIndex)
    let size ← strlen ptrBuf
    return some (ptrBuf.take size)

/-- `byte_round`, with the precision it leaves. -/
def byteRound (val : ℚ) (precision : ℕ) : Call (ℚ × ℕ) := do
  let ratio : ℚ := 10 ^ precision
  let x := val * ratio
  let ival ← convert 64 x
  let m1 := x - ival
  if m1 = 0 then
    return (val, 0)
  else if m1 ≥ 1 / 2 then
    let ival' ← checked 64 (ival + 1)
    return (ival' / ratio, precision)
  else
    return (ival / ratio, precision)

/-- `(uint32_t)(logl(dval) / logl(1024))`.  There is no logarithm of a number that is not
positive; `index` is what the conversion makes of what `logl` returns for it. -/
def logIndex (index : ℤ → ℕ) (val : ℤ) : ℕ :=
  if val ≤ 0 then index val else Nat.log 1024 val.toNat

/-- The number of decimals for a unit. -/
def unitPrecision (currentIndex : ℕ) : ℕ :=
  if currentIndex > 2 then 2 else if currentIndex = 2 then 1 else 0

/-- `se_byte_units`. -/
def seByteUnits (index : ℤ → ℕ) (val : ℤ) : Call (Option (List Byte)) := do
  let dval : ℚ := val
  let currentIndex := logIndex index val
  let dresult := dval / 1024 ^ currentIndex
  let (result, precision) ← byteRound dresult (unitPrecision currentIndex)
  if result > 0 then
    byteFormat result precision currentIndex
  else
    return none

theorem unitPrecision_le (i : ℕ) : unitPrecision i ≤ 2 := by
  rw [unitPrecision]
  split_ifs <;> omega

/-- What is shown of a number: a decimal that is at most half a unit of its last place
away from it. -/
def Shown (d : FixedDecimal) (x : ℚ) : Prop :=
  |d.value - x| ≤ 1 / 2 * (1 / 10 ^ d.places)

/-- An integer that is half off the scaled number is shown exactly where it is. -/
theorem shown_div {n : ℤ} (hn : 0 ≤ n) {x : ℚ} {p : ℕ} (h : |n - x * 10 ^ p| ≤ 1 / 2) :
    Shown (.round (n / 10 ^ p) p) x := by
  rw [Shown, FixedDecimal.value_round_div hn]
  exact FixedDecimal.abs_div_sub_le (by positivity) h

theorem ten_pow_le {p : ℕ} (hp : p ≤ 2) : (10 : ℚ) ^ p ≤ 100 := by
  calc (10 : ℚ) ^ p ≤ 10 ^ 2 := pow_le_pow_right₀ (by norm_num) hp
    _ = 100 := by norm_num

/-- What `byte_round` returns: the number itself without decimals if there is nothing to
round, else the nearest decimal, half up. -/
theorem byteRound_eq {x : ℚ} {p : ℕ} (hx : 0 ≤ x) (hmax : x * 10 ^ p < 2 ^ 63 - 1) :
    byteRound x p = .ok (if Int.fract (x * 10 ^ p) = 0 then (x, 0)
      else (round (x * 10 ^ p) / 10 ^ p, p)) := by
  have hscaled : 0 ≤ x * 10 ^ p := mul_nonneg hx (by positivity)
  have htrunc := truncate_of_nonneg hscaled
  have hnonneg := Int.floor_nonneg.mpr hscaled
  have hlt : ⌊x * 10 ^ p⌋ < 2 ^ 63 - 1 := Int.floor_lt.mpr (by push_cast; linarith)
  have hfits : Fits 64 (truncate (x * 10 ^ p)) := by
    rw [htrunc]
    exact fits_of_nonneg hnonneg (by omega)
  have hfits' : Fits 64 (⌊x * 10 ^ p⌋ + 1) := fits_of_nonneg (by omega) (by omega)
  have hround := round_eq_floor_add (x * 10 ^ p)
  rw [byteRound]
  dsimp only
  rw [convert_of_fits hfits, Run.ok_bind, htrunc, Int.self_sub_floor]
  split_ifs with hzero hup
  · rfl
  · rw [if_pos hup] at hround
    rw [checked_of_fits hfits', Run.ok_bind, hround]
    rfl
  · rw [if_neg hup, add_zero] at hround
    rw [hround]
    rfl

/-- Numbers between two powers of 1024 are far below the largest integer. -/
theorem scaled_lt {x : ℚ} {p : ℕ} (hmax : x < 1024) (hp : p ≤ 2) :
    x * 10 ^ p < 2 ^ 63 - 1 := by
  have hten := ten_pow_le hp
  calc x * 10 ^ p ≤ 1024 * 100 := by gcongr
    _ < 2 ^ 63 - 1 := by norm_num

/-- Whatever `byte_round` does, the number that is printed is shown. -/
theorem byteRound_shown {x : ℚ} {p : ℕ} (hx : 1 ≤ x) (hmax : x < 1024) (hp : p ≤ 2) :
    ∃ result p', byteRound x p = .ok (result, p') ∧ p' ≤ 2 ∧ 0 < result ∧ result ≤ 1025 ∧
      Shown (.round result p') x := by
  have hpos : (0 : ℚ) < 10 ^ p := by positivity
  have hone : (1 : ℚ) ≤ 10 ^ p := one_le_pow₀ (by norm_num)
  have hx0 : 0 ≤ x := zero_le_one.trans hx
  rw [byteRound_eq hx0 (scaled_lt hmax hp)]
  split_ifs
  · exact ⟨x, 0, rfl, by norm_num, by linarith, by linarith,
      FixedDecimal.abs_value_round_sub_le x 0⟩
  · have hlo := sub_half_lt_round (x * 10 ^ p)
    have hhi := round_le_add_half (x * 10 ^ p)
    have hclose := abs_sub_round (x * 10 ^ p)
    rw [abs_sub_comm] at hclose
    have hround : (0 : ℚ) < round (x * 10 ^ p) := by nlinarith
    refine ⟨_, p, rfl, hp, div_pos hround hpos, ?_, shown_div ?_ hclose⟩
    · rw [div_le_iff₀ hpos]
      nlinarith
    · exact_mod_cast hround.le

/-- The characters of a unit are letters, and no zero bytes. -/
theorem unitText_spec : ∀ i : Fin 6, (∀ b ∈ (unitText i).head?,
      FixedDecimal.isDigit b = false ∧ b ≠ FixedDecimal.point) ∧
    0 ∉ unitText i ∧ (unitText i).length ≤ 2 := by
  decide +kernel

/-- Different units have different texts. -/
theorem unitText_injective : Function.Injective unitText := by
  decide

/-- The text of a number up to 1025 is short. -/
theorem length_print_round_le {x : ℚ} {p : ℕ} (hx : 0 < x) (hmax : x ≤ 1025) (hp : p ≤ 2) :
    (FixedDecimal.round x p).print.length ≤ 7 := by
  have hten := ten_pow_le hp
  have hround := abs_le.mp (abs_roundTiesEven_sub_le (|x| * 10 ^ p))
  have hscaled : roundTiesEven (|x| * 10 ^ p) < 10 ^ 6 := by
    rw [abs_of_pos hx] at hround ⊢
    have hprod : x * 10 ^ p ≤ 1025 * 100 := by gcongr
    have : (roundTiesEven (x * 10 ^ p) : ℚ) < 10 ^ 6 := by linarith [hround.2]
    exact_mod_cast this
  refine FixedDecimal.length_print_le ?_ (show p < 6 by omega) ?_
  · exact decide_eq_false (not_lt.mpr hx.le)
  · show (roundTiesEven (|x| * 10 ^ p)).toNat < 10 ^ 6
    omega

/-- A text without zero bytes that is shorter than the buffer is read back from it. -/
theorem strlen_snprintf {size : ℕ} {s : List Byte} (h0 : 0 ∉ s) (hlen : s.length < size) :
    (strlen (snprintf size s) : Call ℕ) = .ok s.length ∧ (snprintf size s).take s.length = s := by
  have htake : s.take (size - 1) = s := List.take_of_length_le (by omega)
  rw [snprintf, htake]
  exact ⟨strlen_append_zero h0 [], by simp⟩

/-- Numbers up to 1025 and their units fit into the buffer. -/
theorem byteFormat_eq {x : ℚ} {p : ℕ} (hx : 0 < x) (hmax : x ≤ 1025) (hp : p ≤ 2) (i : ℕ) :
    byteFormat x p i =
      .ok (some ((FixedDecimal.round x p).print ++ unitText ⟨min i 5, by omega⟩)) := by
  have hindex : (if h : i > 5 then (5 : Fin 6) else ⟨i, by omega⟩) = ⟨min i 5, by omega⟩ := by
    split_ifs with h
    · exact Fin.ext (min_eq_right (Nat.le_of_lt h)).symm
    · exact Fin.ext (min_eq_left (not_lt.mp h)).symm
  obtain ⟨-, hzero, hlen⟩ := unitText_spec ⟨min i 5, by omega⟩
  have hprint := length_print_round_le hx hmax hp
  rw [byteFormat, if_neg (by omega)]
  dsimp only
  rw [hindex]
  generalize unitText ⟨min i 5, by omega⟩ = unit at *
  have h0 : 0 ∉ (FixedDecimal.round x p).print ++ unit := by
    rw [List.mem_append, not_or]
    exact ⟨FixedDecimal.zero_not_mem_print _, hzero⟩
  have hsize : ((FixedDecimal.round x p).print ++ unit).length < seMaxNumstr := by
    rw [List.length_append, seMaxNumstr]
    omega
  obtain ⟨hstrlen, htake⟩ := strlen_snprintf h0 hsize
  rw [hstrlen, Run.ok_bind, htake]
  rfl

/-- The number of the unit that the size is divided by. -/
def unitIndex (val : ℤ) : ℕ := Nat.log 1024 val.toNat

theorem unitIndex_spec {val : ℤ} (h : 1 ≤ val) :
    (1 : ℚ) ≤ val / 1024 ^ unitIndex val ∧ (val : ℚ) / 1024 ^ unitIndex val < 1024 := by
  have hpos : (0 : ℚ) < 1024 ^ unitIndex val := by positivity
  have hnat : ((val.toNat : ℤ) : ℚ) = val := by
    rw [Int.toNat_of_nonneg (by omega)]
  rw [le_div_iff₀ hpos, div_lt_iff₀ hpos, one_mul, ← pow_succ', ← hnat]
  constructor
  · exact_mod_cast Nat.pow_log_le_self 1024 (by omega)
  · exact_mod_cast Nat.lt_pow_succ_log_self (by norm_num) val.toNat

/-- What `se_byte_units` prints: a number that is shown, and the unit by which the size
was divided unless that is beyond the last one. -/
theorem seByteUnits_eq (index : ℤ → ℕ) {val : ℤ} (h : 1 ≤ val) : ∃ (result : ℚ) (p : ℕ),
    byteRound (val / 1024 ^ unitIndex val) (unitPrecision (unitIndex val)) = .ok (result, p) ∧
    Shown (.round result p) (val / 1024 ^ unitIndex val) ∧
    seByteUnits index val = .ok (some ((FixedDecimal.round result p).print ++
      unitText ⟨min (unitIndex val) 5, by omega⟩)) := by
  obtain ⟨hlo, hhi⟩ := unitIndex_spec h
  obtain ⟨result, p, hround, hp, hpos, hmax, hshown⟩ :=
    byteRound_shown hlo hhi (unitPrecision_le (unitIndex val))
  refine ⟨result, p, hround, hshown, ?_⟩
  rw [seByteUnits, logIndex, if_neg (by omega)]
  dsimp only
  rw [← unitIndex, hround, Run.ok_bind]
  dsimp only
  rw [if_pos hpos, byteFormat_eq hpos hmax hp]

/-! ## Sizes that are not positive -/

/-- The size that is shown, in units of the divisor. -/
theorem Shown.scale {d : FixedDecimal} {x : ℚ} {s : ℚ} (hs : 0 < s) :
    Shown d (x / s) ↔ |d.value * s - x| ≤ 1 / 2 * (1 / 10 ^ d.places) * s := by
  have heq : d.value * s - x = (d.value - x / s) * s := by
    field_simp
  rw [heq, abs_mul, abs_of_pos hs, mul_le_mul_iff_left₀ hs]
  rfl

theorem unitIndex_le_iff {val : ℤ} (h : 1 ≤ val) : unitIndex val ≤ 5 ↔ val < 2 ^ 60 := by
  have hpow : (1024 : ℕ) ^ 6 = 2 ^ 60 := by norm_num
  rw [unitIndex, ← Nat.lt_succ_iff, Nat.log_lt_iff_lt_pow (by norm_num) (by omega), hpow]
  omega

/-- For the sizes of 63 bits: what is printed is a number `N` with `p` decimals and a
unit of `1024 ^ u` bytes such that `N * 1024 ^ u` is at most half a unit of the last
decimal away from the size, if and only if the size is below `2 ^ 60`. -/
theorem seByteUnits_shown_iff (index : ℤ → ℕ) (val : ℤ) (h1 : 1 ≤ val) (h63 : val < 2 ^ 63) :
    (∃ (d : FixedDecimal) (u : Fin 6),
      seByteUnits index val = .ok (some (d.print ++ unitText u)) ∧
      |d.value * 1024 ^ (u : ℕ) - val| ≤ 1 / 2 * (1 / 10 ^ d.places) * 1024 ^ (u : ℕ)) ↔
    val < 2 ^ 60 := by
  obtain ⟨result, p, -, hshown, hrun⟩ := seByteUnits_eq index h1
  generalize FixedDecimal.round result p = d at *
  rw [Shown.scale (by positivity)] at hshown
  rw [← unitIndex_le_iff h1]
  constructor
  · rintro ⟨d', u, hrun', hclose⟩
    -- there is only one way to read the text
    rw [hrun, Except.ok.injEq, Option.some.injEq] at hrun'
    obtain ⟨rfl, hunit⟩ := FixedDecimal.print_append_inj (unitText_spec _).1
      (unitText_spec u).1 hrun'
    obtain rfl := unitText_injective hunit
    by_contra hbig
    -- the size was divided by the sixth power, and is printed with the fifth
    have hsix : unitIndex val = 6 := by
      have hlt : unitIndex val < 7 := by
        rw [unitIndex, Nat.log_lt_iff_lt_pow (by norm_num) (by omega)]
        exact lt_of_lt_of_le (show val.toNat < 2 ^ 63 by omega) (by norm_num)
      omega
    have hval : (1024 : ℚ) ^ 6 ≤ val := by
      have := (unitIndex_spec h1).1
      rwa [hsix, one_le_div (by norm_num)] at this
    have hplace : (1 : ℚ) / 10 ^ d.places ≤ 1 := by
      rw [div_le_one (by positivity)]
      exact one_le_pow₀ (by norm_num)
    have hplace0 : (0 : ℚ) < 1 / 10 ^ d.places := by positivity
    rw [hsix] at hshown
    simp only [hsix] at hclose
    rw [abs_le] at hshown hclose
    generalize (1 : ℚ) / 10 ^ d.places = e at *
    norm_num at hval hshown hclose
    linarith [hshown.2, hclose.1]
  · intro hindex
    refine ⟨d, ⟨min (unitIndex val) 5, by omega⟩, hrun, ?_⟩
    show |d.value * 1024 ^ min (unitIndex val) 5 - val| ≤ _ * 1024 ^ min (unitIndex val) 5
    rw [min_eq_left hindex]
    exact hshown

/-- One and a half kilobytes. -/
theorem seByteUnits_shown_1536 : ∃ (d : FixedDecimal) (u : Fin 6),
      seByteUnits (fun _ ↦ 0) 1536 = .ok (some (d.print ++ unitText u)) ∧
      |d.value * 1024 ^ (u : ℕ) - (1536 : ℤ)| ≤ 1 / 2 * (1 / 10 ^ d.places) * 1024 ^ (u : ℕ) :=
  (seByteUnits_shown_iff _ 1536 (by decide) (by decide)).mpr (by decide)

/-- The size `2 ^ 60` is printed as `1PB`, which is `2 ^ 50`. -/
theorem seByteUnits_exabyte : ¬ ∀ (index : ℤ → ℕ) (val : ℤ), 1 ≤ val → val < 2 ^ 63 →
    ∃ (d : FixedDecimal) (u : Fin 6),
      seByteUnits index val = .ok (some (d.print ++ unitText u)) ∧
      |d.value * 1024 ^ (u : ℕ) - val| ≤ 1 / 2 * (1 / 10 ^ d.places) * 1024 ^ (u : ℕ) := by
  intro h
  obtain ⟨d, u, hrun, hclose⟩ := h (fun _ ↦ 0) (2 ^ 60) (by norm_num) (by norm_num)
  have htext : seByteUnits (fun _ ↦ 0) (2 ^ 60) =
      .ok (some ((⟨false, 1, 0⟩ : FixedDecimal).print ++ unitText 5)) := by decide +kernel
  rw [htext, Except.ok.injEq, Option.some.injEq] at hrun
  obtain ⟨rfl, hunit⟩ := FixedDecimal.print_append_inj (unitText_spec 5).1 (unitText_spec u).1 hrun
  obtain rfl := unitText_injective hunit
  rw [abs_le] at hclose
  norm_num [FixedDecimal.value] at hclose

end PgKmcb.Round
