import PgKmcb.Postgres
import PgKmcb.Lib.MachineInt

/-!
# Serial numbers (`pg_datetime.c`)

A serial number is a bigint `yydoy * 10 ^ precision + id`.  Three functions take it
apart again: one returns the quotient, one the remainder, and one, a set-returning
function, rows of both.  All of them narrow the quotient to 32 bits and compute the
remainder from the narrowed value, so they agree with the division exactly as long as
the quotient has 32 bits (`serial_exact_iff`).
-/

namespace PgKmcb.Serial

open PgKmcb.Lib

/-! ## The functions -/

/-- `(int64)powl(10.0, precision)`. -/
def lpow (precision : ℤ) : Call ℤ := convert 64 ((10 : ℚ) ^ precision)

/-- `get_yydoy_from_sn`. -/
def getYydoyFromSn (yyDoyId precision : ℤ) : Call ℤ := do
  let lpow ← lpow precision
  let quotient ← divide 64 yyDoyId lpow
  return narrow 32 quotient

/-- `get_id_from_sn`; the product and the difference are of 64 bits. -/
def getIdFromSn (yyDoyId precision : ℤ) : Call ℤ := do
  let lpow ← lpow precision
  let quotient ← divide 64 yyDoyId lpow
  let yyDoy := narrow 32 quotient
  let product ← checked 64 (yyDoy * lpow)
  checked 64 (yyDoyId - product)

/-- What a set-returning function keeps between its calls. -/
structure FuncCallContext where
  callCntr : ℕ
  maxCalls : ℕ

/-- `SRF_IS_FIRSTCALL`; `composite` says whether the caller accepts rows. -/
def getYydoyIdFirstCall (composite : Bool) (n : UInt32) : Call FuncCallContext :=
  if composite then return { callCntr := 0, maxCalls := n.toNat }
  else .error (.raised (.ereport .featureNotSupported
    "function returning record called in context that cannot accept type record"))

/-- The row that `get_yydoy_id_from_sn` forms in one of its calls. -/
def yydoyIdRow (yyDoyId precision : ℤ) : Call (ℤ × ℤ) := do
  let lpow ← lpow precision
  let quotient ← divide 64 yyDoyId lpow
  let yyDoy := narrow 32 quotient
  let product ← checked 64 (yyDoy * lpow)
  let id ← checked 64 (yyDoyId - product)
  return (yyDoy, id)

/-- The executor's state while it collects the rows of a set-returning function. -/
structure SrfState where
  funcctx : FuncCallContext
  rows : List (ℤ × ℤ)

/-- A call that returns a row; `SRF_RETURN_NEXT` counts it. -/
def getYydoyIdNext (yyDoyId precision : ℤ) (s : SrfState) : Call SrfState := do
  let row ← yydoyIdRow yyDoyId precision
  return {
    funcctx := { s.funcctx with callCntr := s.funcctx.callCntr + 1 }
    rows := s.rows ++ [row] }

/-- `get_yydoy_id_from_sn`, called until it says that it is done. -/
def getYydoyIdFromSn (composite : Bool) (yyDoyId precision : ℤ) (n : UInt32) :
    Call (List (ℤ × ℤ)) := do
  let funcctx ← getYydoyIdFirstCall composite n
  let s ← whileLoop (fun s ↦ decide (s.funcctx.callCntr < s.funcctx.maxCalls))
    (getYydoyIdNext yyDoyId precision) funcctx.maxCalls { funcctx := funcctx, rows := [] }
  return s.rows

/-! ## Powers of ten -/

/-- A precision from 0 to 18, for which the power of ten has 64 bits. -/
theorem lpow_of_le {precision : ℤ} (h0 : 0 ≤ precision) (h18 : precision ≤ 18) :
    lpow precision = .ok (10 ^ precision.toNat) := by
  obtain ⟨p, rfl⟩ := Int.eq_ofNat_of_zero_le h0
  have hp : p ≤ 18 := by omega
  have hpow : ((10 : ℚ) ^ (p : ℤ)) = ((10 ^ p : ℤ) : ℚ) := by
    rw [zpow_natCast]
    push_cast
    rfl
  have hlt : (10 : ℤ) ^ p < 2 ^ 63 := by
    calc (10 : ℤ) ^ p ≤ 10 ^ 18 := pow_le_pow_right₀ (by norm_num) hp
      _ < 2 ^ 63 := by norm_num
  have hfits : Fits 64 ((10 : ℤ) ^ p) := fits_of_nonneg (by positivity) hlt
  rw [lpow, convert, hpow, truncate_intCast, if_pos hfits]
  rfl

variable {sn L precision : ℤ}

/-! ## One decoding for all three functions -/

/-- The quotient and the remainder as the code computes them, with the divisor at
hand. -/
def decode (sn L : ℤ) : Call (ℤ × ℤ) := do
  let product ← checked 64 (narrow 32 (sn.tdiv L) * L)
  let id ← checked 64 (sn - product)
  return (narrow 32 (sn.tdiv L), id)

theorem getYydoyFromSn_eq (hsn : Fits 64 sn) (hL : 0 < L) (hlpow : lpow precision = .ok L) :
    getYydoyFromSn sn precision = .ok (narrow 32 (sn.tdiv L)) := by
  rw [getYydoyFromSn, hlpow, Run.ok_bind, divide_of_pos hsn hL, Run.ok_bind]
  rfl

theorem getIdFromSn_eq (hsn : Fits 64 sn) (hL : 0 < L) (hlpow : lpow precision = .ok L) :
    getIdFromSn sn precision = (decode sn L).map Prod.snd := by
  rw [getIdFromSn, hlpow, Run.ok_bind, divide_of_pos hsn hL, Run.ok_bind, decode]
  dsimp only
  cases (checked 64 (narrow 32 (sn.tdiv L) * L) : Call ℤ) with
  | error e => rfl
  | ok product =>
      rw [Run.ok_bind, Run.ok_bind]
      cases (checked 64 (sn - product) : Call ℤ) <;> rfl

theorem yydoyIdRow_eq (hsn : Fits 64 sn) (hL : 0 < L) (hlpow : lpow precision = .ok L) :
    yydoyIdRow sn precision = decode sn L := by
  rw [yydoyIdRow, hlpow, Run.ok_bind, divide_of_pos hsn hL, Run.ok_bind]
  rfl

/-- Where the quotient has 32 bits, the decoding is the division. -/
theorem decode_of_fits (hsn : Fits 64 sn) (hL : 0 < L) (hq : Fits 32 (sn.tdiv L)) :
    decode sn L = .ok (sn.tdiv L, sn.tmod L) := by
  obtain ⟨hproduct, hid⟩ := fits_tdiv_mul hsn hL
  have hmod : sn - sn.tdiv L * L = sn.tmod L := by
    have := Int.tdiv_mul_add_tmod sn L
    linarith
  rw [decode, narrow_of_fits (by norm_num) hq, checked_of_fits hproduct, Run.ok_bind,
    checked_of_fits hid, Run.ok_bind, hmod]
  rfl

/-- The narrowed quotient is the first part of what is decoded. -/
theorem fst_of_decode {y i : ℤ} (h : decode sn L = .ok (y, i)) : y = narrow 32 (sn.tdiv L) := by
  obtain ⟨product, -, h⟩ := Run.bind_eq_ok.mp h
  obtain ⟨id, -, h⟩ := Run.bind_eq_ok.mp h
  exact (Prod.mk.inj (Except.ok.inj h)).1.symm

/-- The decoding raises no error of the host. -/
theorem decode_ne_raised {e : PgError} : decode sn L ≠ .error (.raised e) := by
  intro h
  rw [decode] at h
  by_cases hproduct : Fits 64 (narrow 32 (sn.tdiv L) * L)
  · rw [checked_of_fits hproduct, Run.ok_bind] at h
    by_cases hid : Fits 64 (sn - narrow 32 (sn.tdiv L) * L)
    · rw [checked_of_fits hid] at h
      cases h
    · rw [checked, if_neg hid] at h
      cases h
  · rw [checked, if_neg hproduct] at h
    cases h

/-- If the decoding is a division at all, the quotient has 32 bits. -/
theorem fits_of_decode {y i : ℤ} (hL : 0 < L) (h : decode sn L = .ok (y, i))
    (hdiv : TruncDiv sn L y i) : Fits 32 (sn.tdiv L) := by
  rw [← narrow_eq_self_iff (by norm_num), ← fst_of_decode h]
  exact ((truncDiv_iff hL).mp hdiv).1

/-- All rows of the set-returning function are the one decoding. -/
theorem getYydoyIdFromSn_rows {row : ℤ × ℤ} (hrow : yydoyIdRow sn precision = .ok row)
    (n : UInt32) :
    getYydoyIdFromSn true sn precision n = .ok (List.replicate n.toNat row) := by
  have hstep : ∀ s : SrfState, (s.funcctx.maxCalls = n.toNat ∧ s.funcctx.callCntr ≤ n.toNat ∧
      s.rows = List.replicate s.funcctx.callCntr row) →
      decide (s.funcctx.callCntr < s.funcctx.maxCalls) = true →
      ∃ s', getYydoyIdNext sn precision s = .ok s' ∧
        (s'.funcctx.maxCalls = n.toNat ∧ s'.funcctx.callCntr ≤ n.toNat ∧
          s'.rows = List.replicate s'.funcctx.callCntr row) ∧
        s'.funcctx.maxCalls - s'.funcctx.callCntr < s.funcctx.maxCalls - s.funcctx.callCntr := by
    rintro s ⟨hmax, hle, hrows⟩ hlt
    rw [decide_eq_true_iff] at hlt
    refine ⟨⟨⟨s.funcctx.callCntr + 1, s.funcctx.maxCalls⟩, s.rows ++ [row]⟩, ?_,
      ⟨hmax, ?_, ?_⟩, ?_⟩
    · rw [getYydoyIdNext, hrow, Run.ok_bind]
      rfl
    · show s.funcctx.callCntr + 1 ≤ n.toNat
      omega
    · rw [hrows]
      exact List.replicate_succ'.symm
    · show s.funcctx.maxCalls - (s.funcctx.callCntr + 1) < _
      omega
  obtain ⟨s, hrun, ⟨hmax, hle, hrows⟩, hstop⟩ := whileLoop_spec
    (fun s : SrfState ↦ s.funcctx.maxCalls = n.toNat ∧ s.funcctx.callCntr ≤ n.toNat ∧
      s.rows = List.replicate s.funcctx.callCntr row)
    (fun s ↦ s.funcctx.maxCalls - s.funcctx.callCntr) hstep
    (s := ⟨⟨0, n.toNat⟩, []⟩) ⟨rfl, Nat.zero_le _, rfl⟩ (Nat.sub_le _ _)
  rw [decide_eq_false_iff_not, hmax] at hstop
  rw [getYydoyIdFromSn, getYydoyIdFirstCall, if_pos rfl, pure_bind, hrun, Run.ok_bind, hrows,
    le_antisymm hle (not_lt.mp hstop)]
  rfl

/-! ## When the functions agree -/

/-- The functions take a serial number apart as division does: none of them leaves the
language, and what they return is one pair, the quotient and the remainder. -/
structure Exact (composite : Bool) (sn precision : ℤ) (n : UInt32) : Prop where
  yydoy : Run.Settles (getYydoyFromSn sn precision)
  id : Run.Settles (getIdFromSn sn precision)
  rows : Run.Settles (getYydoyIdFromSn composite sn precision n)
  pair : ∀ y i, getYydoyFromSn sn precision = .ok y → getIdFromSn sn precision = .ok i →
    TruncDiv sn (10 ^ precision.toNat) y i ∧
    ∀ rows, getYydoyIdFromSn composite sn precision n = .ok rows → ∀ row ∈ rows, row = (y, i)

/-- For a precision from 0 to 18 the functions are exact if and only if the quotient
has 32 bits. -/
theorem serial_exact_iff (composite : Bool) (sn precision : ℤ) (n : UInt32)
    (hsn : Fits 64 sn) (h0 : 0 ≤ precision) (h18 : precision ≤ 18) :
    Exact composite sn precision n ↔ Fits 32 (sn.tdiv (10 ^ precision.toNat)) := by
  have hL : (0 : ℤ) < 10 ^ precision.toNat := by positivity
  have hlpow := lpow_of_le h0 h18
  have hyydoy := getYydoyFromSn_eq hsn hL hlpow
  have hid := getIdFromSn_eq hsn hL hlpow
  have hrow := yydoyIdRow_eq hsn hL hlpow
  constructor
  · rintro ⟨-, hsettles, -, hpair⟩
    rw [hid] at hsettles
    -- the host raises no error here, so the decoding returns
    cases hdecode : decode sn (10 ^ precision.toNat) with
    | error e =>
        rw [hdecode] at hsettles
        rcases hsettles with ⟨a, ha⟩ | ⟨e', he'⟩
        · cases ha
        · cases he'
          exact absurd hdecode decode_ne_raised
    | ok row =>
        obtain ⟨y, i⟩ := row
        rw [hdecode] at hid
        obtain rfl := fst_of_decode hdecode
        exact fits_of_decode hL hdecode (hpair _ _ hyydoy hid).1
  · intro hq
    have hdecode := decode_of_fits hsn hL hq
    rw [narrow_of_fits (by norm_num) hq] at hyydoy
    rw [hdecode] at hid hrow
    refine ⟨?_, ?_, ?_, ?_⟩
    · exact hyydoy ▸ Run.settles_ok _
    · exact hid ▸ Run.settles_ok _
    · cases composite with
      | true => exact getYydoyIdFromSn_rows hrow n ▸ Run.settles_ok _
      | false => exact .inr ⟨_, rfl⟩
    · intro y i hy hi
      rw [hyydoy] at hy
      rw [hid] at hi
      cases hy
      cases hi
      refine ⟨(truncDiv_iff hL).mpr ⟨rfl, rfl⟩, fun rows hrows ↦ ?_⟩
      cases composite with
      | true =>
          rw [getYydoyIdFromSn_rows hrow n] at hrows
          cases hrows
          exact fun row hmem ↦ List.eq_of_mem_replicate hmem
      | false => cases hrows

/-- The first serial number of the documentation. -/
theorem serial_exact_doc : Exact true 1800100000001 8 1 :=
  (serial_exact_iff true 1800100000001 8 1 (by decide) (by decide) (by decide)).mpr (by decide)

/-- The serial number `2 ^ 32` with precision 0: the quotient is narrowed to 0, and
`2 ^ 32` is left over as the remainder of a division by 1. -/
theorem serial_not_exact : ¬ ∀ sn precision y i : ℤ, Fits 64 sn → 0 ≤ precision →
    precision ≤ 18 → getYydoyFromSn sn precision = .ok y → getIdFromSn sn precision = .ok i →
    TruncDiv sn (10 ^ precision.toNat) y i := by
  intro h
  have hyydoy : getYydoyFromSn (2 ^ 32) 0 = .ok 0 := by decide +kernel
  have hid : getIdFromSn (2 ^ 32) 0 = .ok (2 ^ 32) := by decide +kernel
  have hdiv := h (2 ^ 32) 0 0 (2 ^ 32) (by decide) (by decide) (by decide) hyydoy hid
  exact absurd hdiv.lt (by decide)

end PgKmcb.Serial
