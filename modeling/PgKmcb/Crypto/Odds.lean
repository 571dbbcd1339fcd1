import PgKmcb.Crypto.Keys
import PgKmcb.Lib.Tally

/-!
# How likely the keys are (`pg_crypto.c`)

`generate_key` draws sixteen values and keeps their remainders modulo 255.  The values that
`random` can have are not a multiple of 255 in number, so the lower half of the bytes is a
little more likely than the upper half, and the largest byte does not occur.  The number of
the lists of sixteen values that lead to a key is the product of what its bytes weigh
(`generateAes_tally`).
-/

namespace PgKmcb.Crypto

open PgKmcb.Lib PgKmcb.Text

/-- The byte that is made of a value. -/
def drawnByte (v : ℕ) : Byte := UInt8.ofNat (v % 0xFF)

/-- The number of the values that a byte is made of. -/
def byteWeight (b : Byte) : ℕ :=
  if b = 0xFF then 0 else if b < 0x80 then 8421505 else 8421504

theorem toNat_drawnByte (v : ℕ) : (drawnByte v).toNat = v % 0xFF := by
  have hlt := Nat.mod_lt v (show 0 < 0xFF by decide)
  rw [drawnByte, UInt8.toNat_ofNat', Nat.mod_eq_of_lt (hlt.trans (by decide))]

theorem ncard_drawnByte_eq (b : Byte) :
    {v | v ∈ randomValues ∧ drawnByte v = b}.ncard = byteWeight b := by
  have hset : {v | v ∈ randomValues ∧ drawnByte v = b} = {v | v < 2 ^ 31 ∧ v % 0xFF = b.toNat} := by
    ext v
    exact and_congr_right fun _ ↦ by rw [← UInt8.toNat_inj, toNat_drawnByte]
  have hdiv : 2 ^ 31 / 0xFF = 8421504 := rfl
  have hmod : 2 ^ 31 % 0xFF = 128 := rfl
  rw [hset, byteWeight]
  split_ifs with hmax hlow
  · have hempty : {v | v < 2 ^ 31 ∧ v % 0xFF = b.toNat} = ∅ := by
      refine Set.eq_empty_of_forall_notMem fun v hv ↦ ?_
      rw [hmax] at hv
      exact (Nat.mod_lt v (by decide)).ne hv.2
    rw [hempty, Set.ncard_empty]
  · have hb : b.toNat < 128 := UInt8.lt_iff_toNat_lt.mp hlow
    rw [ncard_mod_eq _ (hb.trans (by decide)), hdiv, hmod, if_pos hb]
  · have hne : b.toNat ≠ 0xFF := fun h ↦ hmax (UInt8.toNat_inj.mp h)
    have hb : ¬ b.toNat < 128 := fun h ↦ hlow (UInt8.lt_iff_toNat_lt.mpr h)
    have hlt := b.toNat_lt
    rw [ncard_mod_eq _ (show b.toNat < 0xFF by omega), hdiv, hmod, if_neg hb]

/-- The loop keeps what stands before `i` and draws the rest. -/
theorem generateKeyLoop_consumes (n i : ℕ) (key : List Byte) (h : key.length = i + n) :
    Consumes n (generateKeyLoop n i key) fun vs ↦ key.take i ++ vs.map drawnByte := by
  induction n generalizing i key with
  | zero =>
      refine (Consumes.pure key).congr fun vs hvs ↦ ?_
      obtain rfl := List.length_eq_zero_iff.mp hvs
      rw [List.map_nil, List.append_nil, List.take_of_length_le (show key.length ≤ i from h.le)]
  | succ n ih =>
      have hi : i < key.length := by omega
      refine Consumes.draw_bind fun v ↦ Consumes.lift_bind (writeAt_of_lt hi _) ?_
      refine (ih (i + 1) (key.set i (drawnByte v)) (by rw [List.length_set]; omega)).congr
        fun vs _ ↦ ?_
      rw [List.take_add_one, List.take_set_of_le le_rfl, List.getElem?_set_self hi,
        Option.toList_some, List.map_cons, List.append_assoc, List.singleton_append]

theorem generateKey_consumes (garbage : ℕ → Byte) :
    Consumes 16 (generateKey garbage) fun vs ↦ vs.map drawnByte := by
  refine (generateKeyLoop_consumes 16 0 (palloc garbage keyLen) ?_).congr fun vs _ ↦ ?_
  · rw [palloc, List.length_map, List.length_range]
    rfl
  · rw [List.take_zero, List.nil_append]

/-- The lists of sixteen values of `random` for which a key is generated, whatever values
come behind them. -/
def keyDraws (b64 : B64) (generate : RandCall (SqlResult (List Byte))) (key : List Byte) :
    Set (List ℕ) :=
  {vs | vs.length = 16 ∧ (∀ v ∈ vs, v ∈ randomValues) ∧ ∀ s, ∃ t,
    generate (vs ++ₛ s) = .ok (.datum t, s) ∧ base64Decrypt b64 t = .ok key}

/-- Both functions return what has been drawn. -/
theorem generateAes_draws {b64 : B64} (hb64 : b64.Lawful) (garbage : ℕ → Byte)
    {generate : RandCall (SqlResult (List Byte))}
    (hgenerate : generate = generateAes b64 garbage >>= fun result ↦ pure (.datum result))
    {vs : List ℕ} (hvs : vs.length = 16) : ∃ t,
      (∀ s, generate (vs ++ₛ s) = .ok (.datum t, s)) ∧
        base64Decrypt b64 t = .ok (vs.map drawnByte) := by
  have hne : vs.map drawnByte ≠ [] :=
    List.ne_nil_of_length_eq_add_one ((List.length_map drawnByte).trans hvs)
  obtain ⟨t, ht, hdecrypt, -⟩ := base64Encrypt_of_ne_nil hb64 hne
  refine ⟨t, fun s ↦ ?_, hdecrypt⟩
  rw [hgenerate, generateAes, bind_assoc, (generateKey_consumes garbage).bind_run _ hvs, ht]
  rfl

/-- A key is generated for as many lists of values as the product of what its bytes weigh. -/
theorem generateAes_tally (b64 : B64) (hb64 : b64.Lawful) (garbage : ℕ → Byte)
    (key : List Byte) (hkey : key.length = 16) :
    ∀ generate ∈ [generateAesKey b64 garbage, generateAesIv b64 garbage],
      (keyDraws b64 generate key).ncard = (key.map byteWeight).prod := by
  intro generate hgenerate
  have hform : generate = generateAes b64 garbage >>= fun result ↦ pure (.datum result) := by
    rcases List.mem_pair.mp hgenerate with rfl | rfl
    · rfl
    · rfl
  have hdraws : keyDraws b64 generate key =
      {vs | (∀ v ∈ vs, v ∈ randomValues) ∧ vs.map drawnByte = key} := by
    ext vs
    constructor
    · rintro ⟨hvs, hvalues, hrun⟩
      obtain ⟨t, ht, hdrawn⟩ := generateAes_draws hb64 garbage hform hvs
      obtain ⟨t', ht', hdecrypt⟩ := hrun (Stream'.const 0)
      rw [ht] at ht'
      cases ht'
      rw [hdrawn] at hdecrypt
      exact ⟨hvalues, Except.ok.inj hdecrypt⟩
    · rintro ⟨hvalues, rfl⟩
      rw [List.length_map] at hkey
      obtain ⟨t, ht, hdrawn⟩ := generateAes_draws hb64 garbage hform hkey
      exact ⟨hkey, hvalues, fun s ↦ ⟨t, ht s, hdrawn⟩⟩
  rw [hdraws, ncard_map_eq]
  simp only [ncard_drawnByte_eq]

/-- The key of sixteen zero bytes. -/
theorem generateAes_tally_zero :
    (keyDraws pgBase64 (generateAesKey pgBase64 fun _ ↦ 0) (List.replicate 16 0)).ncard =
      ((List.replicate 16 0).map byteWeight).prod :=
  generateAes_tally pgBase64 pgBase64_lawful (fun _ ↦ 0) (List.replicate 16 0)
    List.length_replicate _ List.mem_cons_self

end PgKmcb.Crypto
