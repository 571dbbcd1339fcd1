import Mathlib.Order.Bounds.Defs
import PgKmcb.Crypto.Cbc
import PgKmcb.Lib.Base64

/-!
# Encrypted texts (`pg_crypto.c`)

`aesEncrypt` fills its argument up to a multiple of the block size with zero bytes,
and `aesDecrypt` finds the end of the text by the first zero byte again.  A text whose
length is such a multiple already gets no zero byte, and what `aesDecrypt` returns
then depends on the memory behind the decrypted data (`aesDecrypt_aesEncrypt_iff`).

Base64 is the server's: `B64` is what the code uses of it.
-/

namespace PgKmcb.Crypto

open PgKmcb.Lib

/-! ## Base64 of the server -/

/-- `pg_b64_encode` and `pg_b64_decode`; `none` is the result -1. -/
structure B64 where
  encode : List Byte → Option (List Byte)
  decode : List Byte → Option (List Byte)

/-- What the server documents: the one inverts the other, and the decoded bytes fit into
a buffer of the size that `pg_b64_dec_len` announces. -/
structure B64.Lawful (b64 : B64) : Prop where
  decode_encode : ∀ bs, ∃ cs, b64.encode bs = some cs ∧ b64.decode cs = some bs
  length_decode_le : ∀ {cs bs}, b64.decode cs = some bs → 4 * bs.length ≤ 3 * cs.length

/-- `base64_encrypt`. -/
def base64Encrypt (b64 : B64) (data : List Byte) : Call (List Byte) :=
  if data.length < 1 then .error (.raised (.ereport .dataException "base64 encode fail!"))
  else match b64.encode data with
    | none => .error (.raised (.ereport .dataException "base64 encode fail!"))
    | some result => .ok result

/-- `base64_decrypt`. -/
def base64Decrypt (b64 : B64) (base64 : List Byte) : Call (List Byte) :=
  if base64.length < 1 then .error (.raised (.ereport .dataException "base64 decode fail!"))
  else match b64.decode base64 with
    | none => .error (.raised (.ereport .dataException "base64 decode fail!"))
    | some result => .ok result

/-! ## Encryption and decryption -/

/-- What the memory holds behind the decoded key, the decoded vector and the decoded
data: the slack of their buffers first, then anything. -/
structure Behind where
  key : List Byte
  iv : List Byte
  data : List Byte

/-- `bin_encrypt_len`, the length filled up to a multiple of the block size. -/
def binEncryptLen (binDataLen : ℕ) : ℕ :=
  binDataLen / aesBlocklen * aesBlocklen + if binDataLen % aesBlocklen = 0 then 0 else aesBlocklen

/-- `bin_encrypt`, before it is encrypted. -/
def binEncrypt (data : List Byte) : List Byte :=
  data ++ List.replicate (binEncryptLen data.length - data.length) 0

/-- `aes_encrypt`. -/
def aesEncrypt (b64 : B64) (behind : Behind) (b64Key b64Iv binData : List Byte) :
    Call (SqlResult (List Byte)) := do
  let binKey ← base64Decrypt b64 b64Key
  let binIv ← base64Decrypt b64 b64Iv
  let ctx ← aesInitCtxIv (binKey ++ behind.key) (binIv ++ behind.iv)
  let buf ← aesCbcEncryptBuffer ctx (binEncrypt binData) (binEncryptLen binData.length)
  let result ← base64Encrypt b64 buf
  return .datum result

/-- `aes_decrypt`. -/
def aesDecrypt (b64 : B64) (behind : Behind) (b64Key b64Iv b64Data : List Byte) :
    Call (SqlResult (List Byte)) := do
  let binKey ← base64Decrypt b64 b64Key
  let binIv ← base64Decrypt b64 b64Iv
  let result ← base64Decrypt b64 b64Data
  if result.length % aesBlocklen ≠ 0 then
    return .null
  let ctx ← aesInitCtxIv (binKey ++ behind.key) (binIv ++ behind.iv)
  let buf ← aesCbcDecryptBuffer ctx result result.length
  let size ← strlen (buf ++ behind.data)
  return .datum ((buf ++ behind.data).take size)

/-! ## Padding -/

/-- The filled-up length is the next multiple of the block size. -/
theorem binEncryptLen_spec (n : ℕ) : n ≤ binEncryptLen n ∧ binEncryptLen n < n + aesBlocklen ∧
    ∃ k, binEncryptLen n = aesBlocklen * k := by
  have hdiv := Nat.div_add_mod n aesBlocklen
  have hlt := Nat.mod_lt n (show 0 < aesBlocklen by decide)
  rw [binEncryptLen]
  split_ifs with h
  · exact ⟨by rw [Nat.mul_comm]; omega, by rw [Nat.mul_comm]; omega, n / aesBlocklen, by
      rw [Nat.mul_comm, Nat.add_zero]⟩
  · exact ⟨by rw [Nat.mul_comm]; omega, by rw [Nat.mul_comm]; omega, n / aesBlocklen + 1, by
      rw [Nat.mul_comm, Nat.mul_succ]⟩

theorem length_binEncrypt (t : List Byte) :
    (binEncrypt t).length = binEncryptLen t.length := by
  have := (binEncryptLen_spec t.length).1
  rw [binEncrypt, List.length_append, List.length_replicate]
  omega

/-- A text gets no padding exactly when it fills its blocks. -/
theorem binEncrypt_of_dvd {t : List Byte} (h : aesBlocklen ∣ t.length) : binEncrypt t = t := by
  have hmod := Nat.mod_eq_zero_of_dvd h
  rw [binEncrypt, binEncryptLen, if_pos hmod, Nat.add_zero, Nat.div_mul_cancel h, Nat.sub_self]
  exact List.append_nil t

theorem binEncrypt_of_not_dvd {t : List Byte} (h : ¬ aesBlocklen ∣ t.length) :
    ∃ zs, binEncrypt t = t ++ 0 :: zs := by
  obtain ⟨hle, -, k, hk⟩ := binEncryptLen_spec t.length
  have hlt : t.length < binEncryptLen t.length :=
    lt_of_le_of_ne hle fun heq ↦ h ⟨k, heq.trans hk⟩
  obtain ⟨d, hd⟩ := Nat.exists_eq_add_of_lt hlt
  refine ⟨List.replicate d 0, ?_⟩
  rw [binEncrypt, hd, show t.length + d + 1 - t.length = d + 1 by omega, List.replicate_succ]

/-- The filled-up length is the least multiple of the block size that is not below. -/
theorem binEncryptLen_isLeast (n : ℕ) :
    IsLeast {m | aesBlocklen ∣ m ∧ n ≤ m} (binEncryptLen n) := by
  obtain ⟨hle, hlt, k, hk⟩ := binEncryptLen_spec n
  refine ⟨⟨⟨k, hk⟩, hle⟩, ?_⟩
  rintro m ⟨⟨j, rfl⟩, hm⟩
  -- a smaller multiple would be a whole block smaller
  by_contra hcon
  rw [hk, not_le] at hcon
  have hj : aesBlocklen * (j + 1) ≤ aesBlocklen * k :=
    Nat.mul_le_mul_left _ (Nat.lt_of_mul_lt_mul_left hcon)
  rw [← hk, Nat.mul_succ] at hj
  omega

/-- A text without zero bytes is what comes before the padding. -/
theorem takeWhile_binEncrypt {t : List Byte} (h0 : 0 ∉ t) :
    (binEncrypt t).takeWhile (· != 0) = t := by
  have hpos : ∀ b ∈ t, (b != 0) = true := by
    intro b hb
    rw [bne_iff_ne]
    rintro rfl
    exact h0 hb
  rw [binEncrypt, List.takeWhile_append_of_pos hpos, List.takeWhile_replicate, if_neg (by decide),
    List.append_nil]

/-! ## The round trip -/

variable {b64 : B64}

theorem base64Decrypt_of_decode (hb64 : b64.Lawful) {cs bs : List Byte} (hbs : bs ≠ [])
    (h : b64.decode cs = some bs) : base64Decrypt b64 cs = .ok bs := by
  have hlen := hb64.length_decode_le h
  have hpos := List.length_pos_of_ne_nil hbs
  rw [base64Decrypt, if_neg (by omega), h]

theorem base64Encrypt_of_ne_nil (hb64 : b64.Lawful) {bs : List Byte} (hbs : bs ≠ []) :
    ∃ cs, base64Encrypt b64 bs = .ok cs ∧ base64Decrypt b64 cs = .ok bs ∧
      b64.decode cs = some bs := by
  obtain ⟨cs, hcs, hdecode⟩ := hb64.decode_encode bs
  have hpos := List.length_pos_of_ne_nil hbs
  refine ⟨cs, ?_, base64Decrypt_of_decode hb64 hbs hdecode, hdecode⟩
  rw [base64Encrypt, if_neg (by omega), hcs]

/-- A key and a vector of sixteen bytes are read without a look behind them. -/
theorem aesInitCtxIv_bytes (k v : State) (m m' : List Byte) :
    aesInitCtxIv (k.bytes ++ m) (v.bytes ++ m') = .ok ⟨keyExpansion k, v⟩ := by
  have hnil : ([] : List Byte).length = 0 := rfl
  have hkey : readBlock (k.bytes ++ m) 0 = .ok k := readBlock_append hnil k
  have hiv : readBlock (v.bytes ++ m') 0 = .ok v := readBlock_append hnil v
  rw [aesInitCtxIv, hkey, Run.ok_bind, hiv, Run.ok_bind]
  rfl

/-- The blocks of a text are those of the padded text.  What they are encrypted to
depends on the context, and on the memory only as far as the context does. -/
theorem aesEncrypt_of_ctx (hb64 : b64.Lawful) {t : List Byte} (ht : t ≠ []) (ctx : AesCtx) :
    ∃ ps ct, blockBytes ps = binEncrypt t ∧
      b64.decode ct =
        some (blockBytes (BlockChain.encrypt State.xor (cipher ctx.roundKey) ctx.iv ps)) ∧
      base64Decrypt b64 ct =
        .ok (blockBytes (BlockChain.encrypt State.xor (cipher ctx.roundKey) ctx.iv ps)) ∧
      ∀ {key iv kb ib behind}, base64Decrypt b64 key = .ok kb → base64Decrypt b64 iv = .ok ib →
        aesInitCtxIv (kb ++ behind.key) (ib ++ behind.iv) = .ok ctx →
        aesEncrypt b64 behind key iv t = .ok (.datum ct) := by
  -- the padded text as blocks
  obtain ⟨hle, -, n, hn⟩ := binEncryptLen_spec t.length
  obtain ⟨ps, rfl, hps⟩ := exists_blocks ((length_binEncrypt t).trans hn)
  have hbuf := aesCbcEncryptBuffer_eq ctx ps
  have hcs := BlockChain.length_encrypt State.xor (cipher ctx.roundKey) ctx.iv ps
  have hpos := List.length_pos_of_ne_nil ht
  generalize hcs' : BlockChain.encrypt State.xor (cipher ctx.roundKey) ctx.iv ps = cs at *
  have hlen : (blockBytes cs).length = aesBlocklen * cs.length := length_blockBytes cs
  have hne : blockBytes cs ≠ [] := by
    intro hnil
    rw [hnil, hcs, List.length_nil] at hlen
    omega
  obtain ⟨ct, hencode, hdecode, hct⟩ := base64Encrypt_of_ne_nil hb64 hne
  refine ⟨ps, ct, hps, by rw [hcs', hct], by rw [hcs', hdecode], fun hkey hiv hctx ↦ ?_⟩
  rw [aesEncrypt, hkey, Run.ok_bind, hiv, Run.ok_bind, hctx, Run.ok_bind, ← hps, hn, hbuf,
    Run.ok_bind, hencode, Run.ok_bind]
  rfl

/-- Blocks are decrypted as a chain; the rest of `aes_decrypt` is the search for the end
of the text. -/
theorem aesDecrypt_of_ctx {key iv data kb ib : List Byte} {behind : Behind} {ctx : AesCtx}
    {cs : List State} (hkey : base64Decrypt b64 key = .ok kb)
    (hiv : base64Decrypt b64 iv = .ok ib) (hdata : base64Decrypt b64 data = .ok (blockBytes cs))
    (hctx : aesInitCtxIv (kb ++ behind.key) (ib ++ behind.iv) = .ok ctx) :
    aesDecrypt b64 behind key iv data =
      (strlen (blockBytes (BlockChain.decrypt State.xor (invCipher ctx.roundKey) ctx.iv cs) ++
        behind.data) >>= fun size ↦ .ok (.datum
          ((blockBytes (BlockChain.decrypt State.xor (invCipher ctx.roundKey) ctx.iv cs) ++
            behind.data).take size))) := by
  have hlen : (blockBytes cs).length = aesBlocklen * cs.length := length_blockBytes cs
  have hmod : ¬ (blockBytes cs).length % aesBlocklen ≠ 0 := by
    rw [hlen, Nat.mul_mod_right]
    exact fun h ↦ h rfl
  rw [aesDecrypt, hkey, Run.ok_bind, hiv, Run.ok_bind, hdata, Run.ok_bind, if_neg hmod, hctx,
    Run.ok_bind, hlen, aesCbcDecryptBuffer_eq, Run.ok_bind]
  rfl

/-- What the blocks are decrypted to is what has been encrypted, padding included. -/
theorem aesDecrypt_aesEncrypt (hb64 : b64.Lawful) {key iv kb ib t : List Byte}
    (hkey : b64.decode key = some kb) (hiv : b64.decode iv = some ib)
    (hkb : kb.length = aesBlocklen) (hib : ib.length = aesBlocklen) (ht : t ≠ [])
    (behind behind' : Behind) : ∃ ct, aesEncrypt b64 behind key iv t = .ok (.datum ct) ∧
      aesDecrypt b64 behind' key iv ct = (strlen (binEncrypt t ++ behind'.data) >>= fun size ↦
        .ok (.datum ((binEncrypt t ++ behind'.data).take size))) := by
  obtain ⟨k, rfl⟩ := exists_bytes hkb
  obtain ⟨v, rfl⟩ := exists_bytes hib
  have hkey' := base64Decrypt_of_decode hb64 k.bytes_ne_nil hkey
  have hiv' := base64Decrypt_of_decode hb64 v.bytes_ne_nil hiv
  obtain ⟨ps, ct, hps, -, hct, hrun⟩ := aesEncrypt_of_ctx hb64 ht ⟨keyExpansion k, v⟩
  refine ⟨ct, hrun hkey' hiv' (aesInitCtxIv_bytes k v _ _), ?_⟩
  rw [aesDecrypt_of_ctx hkey' hiv' hct (aesInitCtxIv_bytes k v _ _),
    BlockChain.decrypt_encrypt State.xor_xor_self (invCipher_cipher _), hps]

/-- The search for the end of a text that got no padding finds it only if the memory
behind the text happens to begin with a zero byte. -/
theorem strlen_take_iff {t m : List Byte} (h0 : 0 ∉ t) :
    (strlen (t ++ m) >>= fun size ↦ (.ok (.datum ((t ++ m).take size)) :
      Call (SqlResult (List Byte)))) = .ok (.datum t) ↔ m.head? = some 0 := by
  rw [strlen_append h0]
  cases m with
  | nil =>
      constructor
      · intro h
        cases h
      · intro h
        cases h
  | cons b m =>
      constructor
      · intro h
        rcases eq_or_ne b 0 with rfl | hb
        · rfl
        · -- the search passes over at least one byte behind the text
          rw [strlen, if_neg hb] at h
          cases hm : (strlen m : Call ℕ) with
          | error e =>
              rw [hm] at h
              cases h
          | ok n =>
              rw [hm] at h
              have htake : (t ++ b :: m).take (t.length + (n + 1)) = t :=
                SqlResult.datum.inj (Except.ok.inj h)
              rw [List.take_length_add_append] at htake
              have hnil := List.append_right_eq_self.mp htake
              cases hnil
      · intro h
        cases h
        show Except.ok (SqlResult.datum ((t ++ 0 :: m).take (t.length + 0))) = _
        rw [Nat.add_zero, List.take_left]

/-- Under a key and a vector of sixteen bytes, a text without zero bytes is decrypted to
itself if and only if its length is no multiple of sixteen, or the memory behind the
decrypted data begins with a zero byte. -/
theorem aesDecrypt_aesEncrypt_iff (b64 : B64) (hb64 : b64.Lawful) (key iv kb ib t : List Byte)
    (behind behind' : Behind) (hkey : b64.decode key = some kb) (hiv : b64.decode iv = some ib)
    (hkb : kb.length = 16) (hib : ib.length = 16) (ht : t ≠ []) (h0 : 0 ∉ t) :
    (∃ ct, aesEncrypt b64 behind key iv t = .ok (.datum ct) ∧
      aesDecrypt b64 behind' key iv ct = .ok (.datum t)) ↔
    (¬ 16 ∣ t.length ∨ behind'.data.head? = some 0) := by
  obtain ⟨ct, hct, hrun⟩ := aesDecrypt_aesEncrypt hb64 hkey hiv hkb hib ht behind behind'
  have hiff : (∃ ct, aesEncrypt b64 behind key iv t = .ok (.datum ct) ∧
      aesDecrypt b64 behind' key iv ct = .ok (.datum t)) ↔
      aesDecrypt b64 behind' key iv ct = .ok (.datum t) := by
    constructor
    · rintro ⟨ct', hct', h⟩
      rw [hct] at hct'
      cases hct'
      exact h
    · exact fun h ↦ ⟨ct, hct, h⟩
  rw [hiff, hrun]
  by_cases hdvd : 16 ∣ t.length
  · rw [binEncrypt_of_dvd hdvd, strlen_take_iff h0]
    exact ⟨.inr, fun h ↦ h.resolve_left fun hn ↦ hn hdvd⟩
  · obtain ⟨zs, hzs⟩ := binEncrypt_of_not_dvd hdvd
    rw [hzs, List.append_assoc, strlen_take_iff h0]
    exact ⟨fun _ ↦ .inl hdvd, fun _ ↦ rfl⟩

/-- Base64 as it is, for texts without white space. -/
def pgBase64 : B64 where
  encode bs := some (Base64.encode bs)
  decode := Base64.decode

theorem pgBase64_lawful : pgBase64.Lawful where
  decode_encode bs := ⟨_, rfl, Base64.decode_encode bs⟩
  length_decode_le := Base64.length_decode_le

/-- The key of sixteen zero bytes and the text `a`. -/
theorem aesDecrypt_aesEncrypt_a : ∃ ct,
    aesEncrypt pgBase64 ⟨[], [], []⟩ (Base64.encode (List.replicate 16 0))
      (Base64.encode (List.replicate 16 0)) [97] = .ok (.datum ct) ∧
    aesDecrypt pgBase64 ⟨[], [], []⟩ (Base64.encode (List.replicate 16 0))
      (Base64.encode (List.replicate 16 0)) ct = .ok (.datum [97]) :=
  (aesDecrypt_aesEncrypt_iff pgBase64 pgBase64_lawful _ _ (List.replicate 16 0)
    (List.replicate 16 0) [97] ⟨[], [], []⟩ ⟨[], [], []⟩ (Base64.decode_encode _)
    (Base64.decode_encode _) rfl rfl (by decide) (by decide)).mpr (.inl (by decide))

/-- Sixteen letters `a`, with the letter `A` and a zero byte behind the decrypted data:
seventeen letters are returned. -/
theorem aesDecrypt_reads_behind : ¬ ∀ (key iv t : List Byte) (behind behind' : Behind),
    (∃ kb, pgBase64.decode key = some kb ∧ kb.length = 16) →
    (∃ ib, pgBase64.decode iv = some ib ∧ ib.length = 16) → t ≠ [] → 0 ∉ t →
    ∃ ct, aesEncrypt pgBase64 behind key iv t = .ok (.datum ct) ∧
      aesDecrypt pgBase64 behind' key iv ct = .ok (.datum t) := by
  intro h
  have hkey : pgBase64.decode (Base64.encode (List.replicate 16 0)) =
      some (List.replicate 16 0) := Base64.decode_encode _
  obtain ⟨ct, hct, hrun⟩ := h _ _ (List.replicate 16 97) ⟨[], [], []⟩ ⟨[], [], [65, 0]⟩
    ⟨_, hkey, rfl⟩ ⟨_, hkey, rfl⟩ (by decide) (by decide)
  obtain ⟨ct', hct', hrun'⟩ := aesDecrypt_aesEncrypt pgBase64_lawful hkey hkey rfl rfl
    (show List.replicate 16 (97 : Byte) ≠ [] by decide) ⟨[], [], []⟩ ⟨[], [], [65, 0]⟩
  rw [hct] at hct'
  cases hct'
  rw [hrun, binEncrypt_of_dvd (by decide)] at hrun'
  exact absurd hrun'.symm (mt (strlen_take_iff (by decide)).mp (by decide))

/-! ## Distinct texts -/

/-- Under a key and a vector of sixteen bytes, two texts without zero bytes are encrypted
to two ciphertexts, and each of them has as many bytes as the text needs to fill its
blocks. -/
theorem aesEncrypt_ne (b64 : B64) (hb64 : b64.Lawful) (key iv kb ib t₁ t₂ : List Byte)
    (behind₁ behind₂ : Behind) (hkey : b64.decode key = some kb) (hiv : b64.decode iv = some ib)
    (hkb : kb.length = 16) (hib : ib.length = 16) (ht₁ : t₁ ≠ []) (ht₂ : t₂ ≠ [])
    (h0₁ : 0 ∉ t₁) (h0₂ : 0 ∉ t₂) (hne : t₁ ≠ t₂) :
    ∃ ct₁ ct₂, aesEncrypt b64 behind₁ key iv t₁ = .ok (.datum ct₁) ∧
      aesEncrypt b64 behind₂ key iv t₂ = .ok (.datum ct₂) ∧ ct₁ ≠ ct₂ ∧
      (∃ bs, b64.decode ct₁ = some bs ∧ IsLeast {n | 16 ∣ n ∧ t₁.length ≤ n} bs.length) ∧
      (∃ bs, b64.decode ct₂ = some bs ∧ IsLeast {n | 16 ∣ n ∧ t₂.length ≤ n} bs.length) := by
  obtain ⟨k, rfl⟩ := exists_bytes hkb
  obtain ⟨v, rfl⟩ := exists_bytes hib
  have hkey' := base64Decrypt_of_decode hb64 k.bytes_ne_nil hkey
  have hiv' := base64Decrypt_of_decode hb64 v.bytes_ne_nil hiv
  obtain ⟨ps₁, ct₁, hps₁, hct₁, -, hrun₁⟩ := aesEncrypt_of_ctx hb64 ht₁ ⟨keyExpansion k, v⟩
  obtain ⟨ps₂, ct₂, hps₂, hct₂, -, hrun₂⟩ := aesEncrypt_of_ctx hb64 ht₂ ⟨keyExpansion k, v⟩
  refine ⟨ct₁, ct₂, hrun₁ hkey' hiv' (aesInitCtxIv_bytes k v _ _),
    hrun₂ hkey' hiv' (aesInitCtxIv_bytes k v _ _), ?_, ⟨_, hct₁, ?_⟩, ⟨_, hct₂, ?_⟩⟩
  · rintro rfl
    rw [hct₁] at hct₂
    have hps := BlockChain.encrypt_injective State.xor_xor_self (invCipher_cipher _) v
      (blockBytes_injective (Option.some.inj hct₂))
    rw [hps, hps₂] at hps₁
    apply hne
    rw [← takeWhile_binEncrypt h0₁, ← takeWhile_binEncrypt h0₂, hps₁]
  · rw [length_blockBytes, BlockChain.length_encrypt, ← length_blockBytes, hps₁, length_binEncrypt]
    exact binEncryptLen_isLeast t₁.length
  · rw [length_blockBytes, BlockChain.length_encrypt, ← length_blockBytes, hps₂, length_binEncrypt]
    exact binEncryptLen_isLeast t₂.length

/-- The texts `a` and `b` under the key of sixteen zero bytes. -/
theorem aesEncrypt_ne_a_b : ∃ ct₁ ct₂,
    aesEncrypt pgBase64 ⟨[], [], []⟩ (Base64.encode (List.replicate 16 0))
      (Base64.encode (List.replicate 16 0)) [97] = .ok (.datum ct₁) ∧
    aesEncrypt pgBase64 ⟨[], [], []⟩ (Base64.encode (List.replicate 16 0))
      (Base64.encode (List.replicate 16 0)) [98] = .ok (.datum ct₂) ∧ ct₁ ≠ ct₂ ∧
    (∃ bs, pgBase64.decode ct₁ = some bs ∧
      IsLeast {n | 16 ∣ n ∧ [(97 : Byte)].length ≤ n} bs.length) ∧
    (∃ bs, pgBase64.decode ct₂ = some bs ∧
      IsLeast {n | 16 ∣ n ∧ [(98 : Byte)].length ≤ n} bs.length) :=
  aesEncrypt_ne pgBase64 pgBase64_lawful _ _ (List.replicate 16 0) (List.replicate 16 0) [97] [98]
    ⟨[], [], []⟩ ⟨[], [], []⟩ (Base64.decode_encode _) (Base64.decode_encode _) rfl rfl
    (by decide) (by decide) (by decide) (by decide) (by decide)

end PgKmcb.Crypto
