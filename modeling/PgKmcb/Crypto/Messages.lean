import PgKmcb.Crypto.Keys
import PgKmcb.Crypto.Streams

/-!
# What becomes of a message (`pg_crypto.c`, `aes.c`)

From the generator of the keys to the decrypted text (`generated_keys_decrypt`), and two
things that a chain of blocks cannot hide or heal: how far two texts agree
(`aesEncrypt_take_iff`), and a block that was changed on its way (`cbcDecrypt_changed`).
-/

namespace PgKmcb.Crypto

open PgKmcb.Lib PgKmcb.Text

/-! ## Generated keys -/

theorem decode_of_base64Decrypt {b64 : B64} {cs bs : List Byte}
    (h : base64Decrypt b64 cs = .ok bs) : b64.decode cs = some bs :=
  (base64Decrypt_eq_ok_iff.mp h).2

/-- A padded text ends where its padding begins. -/
theorem strlen_binEncrypt {t : List Byte} (hdvd : ¬ aesBlocklen ∣ t.length) (h0 : 0 ∉ t)
    (m : List Byte) : (strlen (binEncrypt t ++ m) : Call ℕ) = .ok t.length := by
  obtain ⟨zs, hzs⟩ := binEncrypt_of_not_dvd hdvd
  rw [hzs, List.append_assoc]
  exact strlen_append_zero h0 _

/-- A key and a vector that are drawn one after the other serve for every text without zero
bytes that needs a padding, whatever was drawn and whatever the memory holds. -/
theorem generated_keys_decrypt (b64 : B64) (hb64 : b64.Lawful) (garbage garbage' : ℕ → Byte)
    (draws : Stream' ℕ) (behind behind' : Behind) (t : List Byte) (h0 : 0 ∉ t)
    (hdvd : ¬ 16 ∣ t.length) :
    ∃ key rest iv rest' ct, generateAesKey b64 garbage draws = .ok (.datum key, rest) ∧
      generateAesIv b64 garbage' rest = .ok (.datum iv, rest') ∧
      aesEncrypt b64 behind key iv t = .ok (.datum ct) ∧
      aesDecrypt b64 behind' key iv ct = .ok (.datum t) := by
  have ht : t ≠ [] := by
    rintro rfl
    exact hdvd (Nat.dvd_zero 16)
  obtain ⟨key, kb, rest, hkey, hkb, hkeyLen⟩ :=
    (generateAes_recovered hb64 garbage (Set.subset_univ randomValues)
      (show generateAesKey b64 garbage = _ from rfl)).1 draws
  obtain ⟨iv, ib, rest', hiv, hib, hivLen⟩ :=
    (generateAes_recovered hb64 garbage' (Set.subset_univ randomValues)
      (show generateAesIv b64 garbage' = _ from rfl)).1 rest
  obtain ⟨ct, hct, hdecrypt⟩ := aesDecrypt_aesEncrypt hb64 (decode_of_base64Decrypt hkb)
    (decode_of_base64Decrypt hib) hkeyLen hivLen ht behind behind'
  refine ⟨key, rest, iv, rest', ct, hkey, hiv, hct, hdecrypt.trans ?_⟩
  obtain ⟨zs, hzs⟩ := binEncrypt_of_not_dvd hdvd
  rw [strlen_binEncrypt hdvd h0, Run.ok_bind, hzs, List.append_assoc, List.take_left]

/-- Only zeros are drawn, and the text is the letter `a`. -/
theorem generated_keys_decrypt_a : ∃ key rest iv rest' ct,
    generateAesKey pgBase64 (fun _ ↦ 0) (Stream'.const 0) = .ok (.datum key, rest) ∧
    generateAesIv pgBase64 (fun _ ↦ 0) rest = .ok (.datum iv, rest') ∧
    aesEncrypt pgBase64 ⟨[], [], []⟩ key iv [97] = .ok (.datum ct) ∧
    aesDecrypt pgBase64 ⟨[], [], []⟩ key iv ct = .ok (.datum [97]) :=
  generated_keys_decrypt pgBase64 pgBase64_lawful (fun _ ↦ 0) (fun _ ↦ 0) (Stream'.const 0)
    ⟨[], [], []⟩ ⟨[], [], []⟩ [97] (by decide) (by decide)

/-! ## Texts that agree at first -/

theorem take_blockBytes (bs : List State) (n : ℕ) :
    (blockBytes bs).take (aesBlocklen * n) = blockBytes (bs.take n) := by
  induction bs generalizing n with
  | nil => simp [blockBytes]
  | cons b bs ih =>
      cases n with
      | zero => rfl
      | succ n =>
          rw [blockBytes_cons, Nat.mul_succ, Nat.add_comm, List.take_succ_cons, blockBytes_cons,
            ← ih n, ← State.length_bytes b, List.take_length_add_append]

/-- Under one key and one vector the ciphertexts show how many blocks at the beginning of
two texts are the same. -/
theorem aesEncrypt_take_iff (b64 : B64) (hb64 : b64.Lawful) (key iv kb ib t₁ t₂ : List Byte)
    (behind₁ behind₂ : Behind) (hkey : b64.decode key = some kb) (hiv : b64.decode iv = some ib)
    (hkb : kb.length = 16) (hib : ib.length = 16) (ht₁ : t₁ ≠ []) (ht₂ : t₂ ≠ []) :
    ∃ ct₁ ct₂ bs₁ bs₂, aesEncrypt b64 behind₁ key iv t₁ = .ok (.datum ct₁) ∧
      aesEncrypt b64 behind₂ key iv t₂ = .ok (.datum ct₂) ∧
      b64.decode ct₁ = some bs₁ ∧ b64.decode ct₂ = some bs₂ ∧
      ∀ n, bs₁.take (16 * n) = bs₂.take (16 * n) ↔
        (binEncrypt t₁).take (16 * n) = (binEncrypt t₂).take (16 * n) := by
  obtain ⟨k, rfl⟩ := exists_bytes hkb
  obtain ⟨v, rfl⟩ := exists_bytes hib
  have hkey' := base64Decrypt_of_decode hb64 k.bytes_ne_nil hkey
  have hiv' := base64Decrypt_of_decode hb64 v.bytes_ne_nil hiv
  obtain ⟨ps₁, ct₁, hps₁, hct₁, -, hrun₁⟩ := aesEncrypt_of_ctx hb64 ht₁ ⟨keyExpansion k, v⟩
  obtain ⟨ps₂, ct₂, hps₂, hct₂, -, hrun₂⟩ := aesEncrypt_of_ctx hb64 ht₂ ⟨keyExpansion k, v⟩
  refine ⟨ct₁, ct₂, _, _, hrun₁ hkey' hiv' (aesInitCtxIv_bytes k v _ _),
    hrun₂ hkey' hiv' (aesInitCtxIv_bytes k v _ _), hct₁, hct₂, fun n ↦ ?_⟩
  have htake := fun bs ↦ take_blockBytes bs n
  rw [aesBlocklen] at htake
  rw [htake, htake, BlockChain.take_encrypt, BlockChain.take_encrypt,
    blockBytes_injective.eq_iff, ← hps₁, ← hps₂, htake, htake, blockBytes_injective.eq_iff]
  exact (BlockChain.encrypt_injective State.xor_xor_self (invCipher_cipher _) v).eq_iff

/-- The texts `a` and `b`, which differ in their first block. -/
theorem aesEncrypt_take_iff_a_b : ∃ ct₁ ct₂ bs₁ bs₂,
    aesEncrypt pgBase64 ⟨[], [], []⟩ (Base64.encode (List.replicate 16 0))
      (Base64.encode (List.replicate 16 0)) [97] = .ok (.datum ct₁) ∧
    aesEncrypt pgBase64 ⟨[], [], []⟩ (Base64.encode (List.replicate 16 0))
      (Base64.encode (List.replicate 16 0)) [98] = .ok (.datum ct₂) ∧
    pgBase64.decode ct₁ = some bs₁ ∧ pgBase64.decode ct₂ = some bs₂ ∧
    ∀ n, bs₁.take (16 * n) = bs₂.take (16 * n) ↔
      (binEncrypt [97]).take (16 * n) = (binEncrypt [98]).take (16 * n) :=
  aesEncrypt_take_iff pgBase64 pgBase64_lawful _ _ (List.replicate 16 0) (List.replicate 16 0)
    [97] [98] ⟨[], [], []⟩ ⟨[], [], []⟩ (Base64.decode_encode _) (Base64.decode_encode _) rfl rfl
    (by decide) (by decide)

/-! ## A block that was changed -/

theorem State.xor_assoc (s t u : State) : s.xor (t.xor u) = (s.xor t).xor u := by
  simp only [State.xor, Word.xor, UInt8.xor_assoc]

theorem State.xor_xor_cancel_left (s t : State) : s.xor (s.xor t) = t := by
  simp only [State.xor, Word.xor, xor_self_left]

/-- In place of one block of a chain another one is decrypted: the blocks before it and the
blocks from the second one behind it on stay, the block itself changes to what cannot be
told, and the change itself is added to the block behind it. -/
theorem cbcDecrypt_changed (ctx : AesCtx) (cs ds : List State) (c c' : State) :
    ∃ ps p p' qs, ps.length = cs.length ∧ qs.length = ds.length ∧ (p = p' ↔ c = c') ∧
      serve ctx ⟨.cbcDecrypt, blockBytes (cs ++ c :: ds)⟩ =
        .ok (⟨ctx.roundKey, BlockChain.last c ds⟩, blockBytes (ps ++ p :: qs)) ∧
      serve ctx ⟨.cbcDecrypt, blockBytes (cs ++ c' :: ds)⟩ =
        .ok (⟨ctx.roundKey, BlockChain.last c' ds⟩,
          blockBytes (ps ++ p' :: qs.modifyHead (State.xor · (c.xor c')))) := by
  have hlast : ∀ c, BlockChain.last ctx.iv (cs ++ c :: ds) = BlockChain.last c ds :=
    fun c ↦ BlockChain.last_append _ _ _
  have hchanged := BlockChain.decrypt_changed (D := invCipher ctx.roundKey) State.xor_assoc
    State.xor_xor_cancel_left ctx.iv cs c
  refine ⟨BlockChain.decrypt State.xor (invCipher ctx.roundKey) ctx.iv cs,
    (invCipher ctx.roundKey c).xor (BlockChain.last ctx.iv cs),
    (invCipher ctx.roundKey c').xor (BlockChain.last ctx.iv cs),
    BlockChain.decrypt State.xor (invCipher ctx.roundKey) c ds, by simp, by simp, ?_, ?_, ?_⟩
  · constructor
    · intro h
      have hcancel := congrArg (State.xor · (BlockChain.last ctx.iv cs)) h
      simp only [State.xor_xor_self] at hcancel
      exact Function.LeftInverse.injective (cipher_invCipher ctx.roundKey) hcancel
    · rintro rfl
      rfl
  · rw [serve_cbcDecrypt, hlast, BlockChain.decrypt_append]
    rfl
  · rw [serve_cbcDecrypt, hlast, hchanged]

end PgKmcb.Crypto
