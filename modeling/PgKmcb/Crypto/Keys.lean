import PgKmcb.Crypto.PgCrypto
import PgKmcb.Text.RandTexts

/-!
# Generated keys (`pg_crypto.c`)

`generateAesKey` and `generateAesIv` draw sixteen bytes and return them in Base64.  Each
byte is a remainder modulo 255, and so the largest byte is never drawn: the keys that there
are for some stream of values are those without it (`generateAes_recovered`).
-/

namespace PgKmcb.Crypto

open PgKmcb.Lib PgKmcb.Text

/-! ## The functions -/

/-- `*key_len` of `generate_key`, in the build for AES-128. -/
def keyLen : ℕ := 16

/-- The loop of `generate_key`, from `i` on for so many more bytes. -/
def generateKeyLoop : ℕ → ℕ → List Byte → RandCall (List Byte)
  | 0, _, key => return key
  | n + 1, i, key => do
      let random ← draw
      let key ← (writeAt key i (UInt8.ofNat (random % 0xFF)) : Call (List Byte))
      generateKeyLoop n (i + 1) key

/-- `generate_key`. -/
def generateKey (garbage : ℕ → Byte) : RandCall (List Byte) :=
  generateKeyLoop keyLen 0 (palloc garbage keyLen)

/-- `generate_aes`, which does not return if `base64_encrypt` fails. -/
def generateAes (b64 : B64) (garbage : ℕ → Byte) : RandCall (List Byte) := do
  let binKey ← generateKey garbage
  (base64Encrypt b64 binKey : Call (List Byte))

/-- `generate_aes_key`. -/
def generateAesKey (b64 : B64) (garbage : ℕ → Byte) : RandCall (SqlResult (List Byte)) := do
  let result ← generateAes b64 garbage
  return .datum result

/-- `generate_aes_iv`. -/
def generateAesIv (b64 : B64) (garbage : ℕ → Byte) : RandCall (SqlResult (List Byte)) := do
  let result ← generateAes b64 garbage
  return .datum result

/-! ## The bytes -/

/-- One byte is drawn, any but the largest. -/
theorem drawByte_yields : Yields randomValues
    (draw >>= fun random ↦ pure (UInt8.ofNat (random % 0xFF)) : RandCall Byte) {b | b ≠ 0xFF} := by
  refine (Yields.draw_map ?_).congr ?_
  · -- the remainder itself is a value that gives the same
    intro v
    have hlt := Nat.mod_lt v (show 0 < 0xFF by decide)
    exact ⟨v % 0xFF, hlt.trans (by decide), by rw [Nat.mod_mod]⟩
  · ext b
    constructor
    · rintro ⟨v, rfl⟩ hmax
      have hlt := Nat.mod_lt v (show 0 < 0xFF by decide)
      have hnat := congrArg UInt8.toNat hmax
      rw [UInt8.toNat_ofNat', Nat.mod_eq_of_lt (hlt.trans (by decide))] at hnat
      exact hlt.ne hnat
    · intro hb
      have hne : b.toNat ≠ 0xFF := fun h ↦ hb (UInt8.toNat_inj.mp h)
      have hlt := b.toNat_lt
      refine ⟨b.toNat, ?_⟩
      dsimp only
      rw [Nat.mod_eq_of_lt (by omega), UInt8.ofNat_toNat]

/-- The bytes that are drawn replace the rest of the block. -/
theorem generateKeyLoop_yields (n i : ℕ) (key : List Byte) (h : key.length = i + n) :
    Yields randomValues (generateKeyLoop n i key)
      ((key.take i ++ ·) '' {bs | bs.length = n ∧ 0xFF ∉ bs}) := by
  have htake : ∀ (key : List Byte) i (b : Byte), i < key.length →
      (key.set i b).take (i + 1) = key.take i ++ [b] := by
    intro key i b hi
    rw [List.take_add_one, List.take_set_of_le le_rfl, List.getElem?_set_self hi,
      Option.toList_some]
  have hbytes : {bs : List Byte | bs.length = n ∧ 0xFF ∉ bs} =
      {bs | bs.length = n ∧ ∀ b ∈ bs, b ∈ ({b | b ≠ 0xFF} : Set Byte)} := by
    ext bs
    exact and_congr_right fun _ ↦ List.forall_mem_ne'.symm
  rw [hbytes]
  -- the state is the index and the block
  refine Yields.loop (s := (i, key)) (fun n s ↦ generateKeyLoop n s.1 s.2)
    (fun s b ↦ (s.1 + 1, s.2.set s.1 b)) (fun s bs ↦ s.2.take s.1 ++ bs)
    (fun n s ↦ s.2.length = s.1 + n) ?_ ?_ ?_ ?_ h
  · rintro ⟨i, key⟩ h
    dsimp only at h ⊢
    rw [List.append_nil, List.take_of_length_le (show key.length ≤ i from h.le)]
    exact Yields.pure key
  · rintro n ⟨i, key⟩ h T hT
    dsimp only at h hT ⊢
    have hloop : generateKeyLoop (n + 1) i key =
        (draw >>= fun random ↦ pure (UInt8.ofNat (random % 0xFF)) : RandCall Byte) >>=
          fun b ↦ StateT.lift (writeAt key i b) >>= fun key ↦ generateKeyLoop n (i + 1) key := by
      rw [bind_assoc]
      rfl
    rw [hloop]
    refine drawByte_yields.bind fun b hb ↦ ?_
    exact Yields.lift_bind (writeAt_of_lt (by omega) b) (hT b hb)
  · rintro n ⟨i, key⟩ b h
    dsimp only at h ⊢
    rw [List.length_set, h, Nat.add_assoc, Nat.add_comm 1]
  · rintro n ⟨i, key⟩ b bs h
    dsimp only at h ⊢
    rw [htake key i b (by omega), List.append_assoc, List.singleton_append]

theorem generateKey_yields (garbage : ℕ → Byte) : Yields randomValues (generateKey garbage)
    {key | key.length = 16 ∧ 0xFF ∉ key} := by
  have hblock : (palloc garbage keyLen).length = 0 + 16 := by
    rw [palloc, List.length_map, List.length_range]
    rfl
  refine (generateKeyLoop_yields 16 0 _ hblock).congr ?_
  simp only [List.take_zero, List.nil_append, Set.image_id']

/-! ## The keys -/

/-- The keys that are decoded from what a generator returns for some stream of values. -/
def recovered (b64 : B64) (R : Set ℕ) (generate : RandCall (SqlResult (List Byte))) :
    Set (List Byte) :=
  {key | ∃ draws t rest, draws.All (· ∈ R) ∧ generate draws = .ok (.datum t, rest) ∧
    base64Decrypt b64 t = .ok key}

/-- What is decoded is what has been drawn. -/
theorem generateAes_recovered {b64 : B64} (hb64 : b64.Lawful) (garbage : ℕ → Byte) {R : Set ℕ}
    (hR : randomValues ⊆ R) {generate : RandCall (SqlResult (List Byte))}
    (hgenerate : generate = generateAes b64 garbage >>= fun result ↦ pure (.datum result)) :
    (∀ draws, ∃ t key rest, generate draws = .ok (.datum t, rest) ∧
      base64Decrypt b64 t = .ok key ∧ key.length = 16) ∧
    recovered b64 R generate = {key | key.length = 16 ∧ 0xFF ∉ key} := by
  have hencode : ∀ key : {key : List Byte // key.length = 16 ∧ 0xFF ∉ key},
      ∃ t, base64Encrypt b64 key = .ok t ∧ base64Decrypt b64 t = .ok key.1 := by
    rintro ⟨key, hlen, -⟩
    obtain ⟨t, ht, hkey, -⟩ :=
      base64Encrypt_of_ne_nil hb64 (List.ne_nil_of_length_eq_add_one hlen)
    exact ⟨t, ht, hkey⟩
  choose text htext hkey using hencode
  have hyields : Yields randomValues generate (Set.range fun key ↦ .datum (text key)) := by
    have hdrawn := (generateKey_yields garbage).congr
      (Subtype.range_coe (s := {key : List Byte | key.length = 16 ∧ 0xFF ∉ key})).symm
    rw [← Set.image_univ] at hdrawn ⊢
    rw [hgenerate, generateAes, bind_assoc]
    refine hdrawn.bind_image ?_
    rintro key -
    rw [htext key]
    rfl
  constructor
  · intro draws
    obtain ⟨_, rest, hrun, key, rfl⟩ := hyields.sound draws
    exact ⟨text key, key, rest, hrun, hkey key, key.2.1⟩
  · have hresults := hyields.setOf_results ⟨0, show 0 < 2 ^ 31 by decide⟩ hR
    ext key
    constructor
    · rintro ⟨draws, t, rest, hdraws, hrun, hdecrypt⟩
      obtain ⟨key', hkey'⟩ := hresults.subset ⟨draws, rest, hdraws, hrun⟩
      cases hkey'
      rw [hkey key'] at hdecrypt
      cases hdecrypt
      exact key'.2
    · intro h
      obtain ⟨draws, rest, hdraws, hrun⟩ := hresults.superset ⟨⟨key, h⟩, rfl⟩
      exact ⟨draws, _, rest, hdraws, hrun, hkey ⟨key, h⟩⟩

/-- Every stream makes each of the two functions return a text that is decoded to sixteen
bytes, and sixteen bytes are decoded for some stream if and only if none of them is the
largest byte. -/
theorem generateAes_keys_iff (b64 : B64) (hb64 : b64.Lawful) (garbage : ℕ → Byte) (R : Set ℕ)
    (hR : ∀ n < 2 ^ 31, n ∈ R) :
    ∀ generate ∈ [generateAesKey b64 garbage, generateAesIv b64 garbage],
      (∀ draws, ∃ t key rest, generate draws = .ok (.datum t, rest) ∧
        base64Decrypt b64 t = .ok key ∧ key.length = 16) ∧
      ∀ key : List Byte, key.length = 16 → (key ∈ recovered b64 R generate ↔ 0xFF ∉ key) := by
  intro generate hgenerate
  have hform : generate = generateAes b64 garbage >>= fun result ↦ pure (.datum result) := by
    rcases List.mem_pair.mp hgenerate with rfl | rfl
    · rfl
    · rfl
  obtain ⟨hsound, hrecovered⟩ := generateAes_recovered hb64 garbage hR hform
  refine ⟨hsound, fun key hkey ↦ ?_⟩
  rw [hrecovered]
  exact and_iff_right hkey

/-- The key, with Base64 as it is and for all streams of values. -/
theorem generateAes_keys_pgBase64 :
    (∀ draws, ∃ t key rest, generateAesKey pgBase64 (fun _ ↦ 0) draws = .ok (.datum t, rest) ∧
      base64Decrypt pgBase64 t = .ok key ∧ key.length = 16) ∧
    ∀ key : List Byte, key.length = 16 →
      (key ∈ recovered pgBase64 Set.univ (generateAesKey pgBase64 fun _ ↦ 0) ↔ 0xFF ∉ key) :=
  generateAes_keys_iff pgBase64 pgBase64_lawful (fun _ ↦ 0) Set.univ (fun _ _ ↦ trivial) _
    List.mem_cons_self

/-- The key of sixteen largest bytes is not generated. -/
theorem generateAesKey_not_all : ¬ ∀ key : List Byte, key.length = 16 →
    key ∈ recovered pgBase64 Set.univ (generateAesKey pgBase64 fun _ ↦ 0) := by
  intro h
  have hkey := h (List.replicate 16 0xFF) List.length_replicate
  obtain ⟨-, hrecovered⟩ := generateAes_recovered pgBase64_lawful (fun _ ↦ 0)
    (Set.subset_univ randomValues) (show generateAesKey pgBase64 _ = _ from rfl)
  rw [hrecovered] at hkey
  exact hkey.2 (List.mem_replicate.mpr ⟨by decide, rfl⟩)

end PgKmcb.Crypto
