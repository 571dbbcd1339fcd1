import PgKmcb.Round.Rules

/-!
# The texts of rounded numbers (`se_round.c`, `pg_round.c`)

`round2str_v1` and `round2str_v2` print what `se_round_v1` and `se_round_v2` return, into a
buffer of a fixed size and with as many places as the number was rounded to.  For the
precisions that are admitted nothing is lost: the text is read back as the number that was
rounded, with all of its places, and the text of that number is the same
(`round2str_readsBack`).

The number is rounded twice, by the function and by the printing; the second time there is
nothing left to round, whatever the sign is.
-/

namespace PgKmcb.Round

open PgKmcb.Lib

/-- The text shows exactly the rounded number, with all of its places, and is the text of
what it shows. -/
def ReadsBack (seRound : ℚ → ℕ → Call ℚ) (val : ℚ) (p : ℕ) : Prop :=
  ∃ r text, seRound val p = .ok r ∧ round2str seRound val p = .ok (.datum text) ∧
    (FixedDecimal.read text).value = r ∧ (FixedDecimal.read text).places = p ∧
    round2str seRound (FixedDecimal.read text).value p = .ok (.datum text)

/-- A decimal of 64 bits fits into the buffer, with its sign and its point. -/
theorem seRoundFormat_div {n : ℤ} (hn : Fits 64 n) {p : ℕ} (hp : p ≤ 32) :
    seRoundFormat (n / 10 ^ p) p = .ok (some (FixedDecimal.ofScaled n p).print) := by
  have hscaled : (FixedDecimal.ofScaled n p).scaled < 10 ^ 33 := by
    obtain ⟨hlo, hhi⟩ := hn
    show n.natAbs < 10 ^ 33
    norm_num at hlo hhi ⊢
    omega
  have hlen : (FixedDecimal.ofScaled n p).print.length < seMaxNumstr :=
    (FixedDecimal.length_print_le_add_two _ (Nat.lt_succ_of_le hp) hscaled).trans_lt (by decide)
  obtain ⟨hstrlen, htake⟩ := strlen_snprintf (FixedDecimal.zero_not_mem_print _) hlen
  rw [seRoundFormat, if_neg (not_lt.mpr hp), FixedDecimal.round_div]
  dsimp only
  rw [hstrlen, Run.ok_bind, htake]
  rfl

/-- The text of a number that is rounded to a decimal of 64 bits. -/
theorem round2str_of_ok {seRound : ℚ → ℕ → Call ℚ} {val : ℚ} {p : ℕ} (hp : p ≤ 32) {n : ℤ}
    (hn : Fits 64 n) (h : seRound val p = .ok (n / 10 ^ p)) :
    round2str seRound val p = .ok (.datum (FixedDecimal.ofScaled n p).print) := by
  have hprecision : (UInt32.ofInt p).toNat = p := toNat_ofInt_natCast (by omega)
  rw [round2str, hprecision, h, Run.ok_bind, seRoundFormat_div hn hp, Run.ok_bind]
  rfl

/-- A rounding by a threshold is read back. -/
theorem cutAndRound_readsBack {Up : ℚ → Prop} [DecidablePred Up] (hup : IsThreshold Up)
    {val : ℚ} {p : ℕ} (hp : p ≤ 32) (h : |val * 10 ^ p| ≤ 2 ^ 63 - 1) :
    ReadsBack (cutAndRound Up) val p := by
  have hpos : (0 : ℚ) < 10 ^ p := by positivity
  obtain ⟨n, hrun, hagain⟩ := (cutAndRound_isProjection hup p).multiple val h
  rw [mul_one_div] at hrun hagain
  have hn : Fits 64 n := by
    have hfits := (fits_of_cutAndRound hagain).1
    rwa [div_mul_cancel₀ _ hpos.ne', truncate_intCast] at hfits
  have hread := FixedDecimal.read_print_append (FixedDecimal.ofScaled n p) (u := []) (by simp)
  rw [List.append_nil] at hread
  refine ⟨_, _, hrun, round2str_of_ok hp hn hrun, ?_, ?_, ?_⟩
  · rw [hread, FixedDecimal.value_ofScaled]
  · rw [hread]
    rfl
  · rw [hread, FixedDecimal.value_ofScaled]
    exact round2str_of_ok hp hn hagain

/-- The texts of both functions are read back, for every precision that is admitted. -/
theorem round2str_readsBack (val : ℚ) (p : ℕ) (hp : p ≤ 32) (h : |val * 10 ^ p| ≤ 2 ^ 63 - 1) :
    ReadsBack seRoundV1 val p ∧ ReadsBack seRoundV2 val p := by
  rw [seRoundV1_eq_cutAndRound, seRoundV2_eq_cutAndRound]
  exact ⟨cutAndRound_readsBack isThreshold_roundsUpV1 hp h,
    cutAndRound_readsBack isThreshold_roundsUpV2 hp h⟩

/-- Minus one eighth, to two places. -/
theorem round2str_readsBack_eighth :
    ReadsBack seRoundV1 (-1 / 8) 2 ∧ ReadsBack seRoundV2 (-1 / 8) 2 :=
  round2str_readsBack (-1 / 8) 2 (by decide) (by norm_num [abs_of_neg])

end PgKmcb.Round
