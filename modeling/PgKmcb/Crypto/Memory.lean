import Mathlib.Data.Finite.Prod
import Mathlib.Data.Fintype.EquivFin
import PgKmcb.Crypto.PgCrypto

/-!
# Reads behind the decoded bytes (`pg_crypto.c`)

`aes_decrypt` checks that the length of its data is a multiple of the block size.  There
is no such check for the key and the vector: `AES_init_ctx_iv` gets bare pointers and
reads sixteen bytes through each of them (`readsDecoded_iff`).  Nor is there one for the
end of the decrypted text, which is searched for as if it were there
(`aesDecrypt_staysInside_iff`).
-/

namespace PgKmcb.Crypto

open PgKmcb.Lib

variable {b64 : B64} {key iv data kb ib : List Byte}

/-! ## The key and the vector -/

/-- A block can be read exactly where there are sixteen bytes. -/
theorem length_le_of_readBlock {buf : List Byte} {s : State} (h : readBlock buf 0 = .ok s) :
    aesBlocklen ≤ buf.length := by
  by_contra hcon
  rw [readBlock] at h
  split at h
  · rename_i hbuf
    rw [List.drop_zero] at hbuf
    rw [hbuf] at hcon
    simp [aesBlocklen] at hcon
  · cases h

/-- Where there are sixteen bytes, the block is made of them alone. -/
theorem exists_readBlock {buf : List Byte} (h : aesBlocklen ≤ buf.length) :
    ∃ s, ∀ m, readBlock (buf ++ m) 0 = .ok s := by
  obtain ⟨s, hs⟩ := exists_bytes (List.length_take_of_le h)
  refine ⟨s, fun m ↦ ?_⟩
  have hbuf : buf ++ m = [] ++ (s.bytes ++ (buf.drop aesBlocklen ++ m)) := by
    rw [List.nil_append, hs, ← List.append_assoc, List.take_append_drop]
  rw [hbuf]
  exact readBlock_append List.length_nil s

/-- A key and a vector that are long enough are read without a look behind them. -/
theorem exists_aesInitCtxIv (hkb : aesBlocklen ≤ kb.length) (hib : aesBlocklen ≤ ib.length) :
    ∃ ctx, ∀ m m', aesInitCtxIv (kb ++ m) (ib ++ m') = .ok ctx := by
  obtain ⟨k, hk⟩ := exists_readBlock hkb
  obtain ⟨v, hv⟩ := exists_readBlock hib
  refine ⟨⟨keyExpansion k, v⟩, fun m m' ↦ ?_⟩
  rw [aesInitCtxIv, hk, Run.ok_bind, hv, Run.ok_bind]
  rfl

/-- Without memory behind them, they have to be long enough. -/
theorem length_le_of_aesInitCtxIv {ctx : AesCtx} (h : aesInitCtxIv kb ib = .ok ctx) :
    aesBlocklen ≤ kb.length ∧ aesBlocklen ≤ ib.length := by
  obtain ⟨k, hk, h⟩ := Run.bind_eq_ok.mp h
  obtain ⟨v, hv, -⟩ := Run.bind_eq_ok.mp h
  exact ⟨length_le_of_readBlock hk, length_le_of_readBlock hv⟩

/-- Sixteen zero bytes behind each of them are enough in any case. -/
theorem exists_aesInitCtxIv_zeros (kb ib : List Byte) : ∃ ctx,
    aesInitCtxIv (kb ++ List.replicate aesBlocklen 0) (ib ++ List.replicate aesBlocklen 0) =
      .ok ctx := by
  have hlen : ∀ bs : List Byte, aesBlocklen ≤ (bs ++ List.replicate aesBlocklen 0).length := by
    intro bs
    rw [List.length_append, List.length_replicate]
    exact Nat.le_add_left _ _
  obtain ⟨ctx, hctx⟩ := exists_aesInitCtxIv (hlen kb) (hlen ib)
  have hnil := hctx [] []
  rw [List.append_nil, List.append_nil] at hnil
  exact ⟨ctx, hnil⟩

/-! ## What the functions take of the memory -/

/-- A text that stands for the bytes in base64. -/
def Decodes (b64 : B64) (base64 bytes : List Byte) : Prop :=
  base64 ≠ [] ∧ b64.decode base64 = some bytes

theorem base64Decrypt_eq_ok_iff {cs bs : List Byte} :
    base64Decrypt b64 cs = .ok bs ↔ Decodes b64 cs bs := by
  rw [base64Decrypt, Decodes]
  cases cs with
  | nil => simp
  | cons c cs =>
      rw [if_neg (by simp)]
      cases b64.decode (c :: cs) <;> simp

/-- Bytes are decoded from their base64. -/
theorem decodes_encode {bs : List Byte} (h : bs ≠ []) :
    Decodes pgBase64 (Base64.encode bs) bs := by
  have hdecode := Base64.decode_encode bs
  refine ⟨?_, hdecode⟩
  intro hnil
  rw [hnil] at hdecode
  exact h (Option.some.inj hdecode).symm

/-- The run takes nothing from behind the decoded key and the decoded vector: where it
returns, it returns the same if there is no memory behind them. -/
def ReadsDecoded (run : Behind → Call (SqlResult (List Byte))) : Prop :=
  ∀ behind r, run behind = .ok r → run { behind with key := [], iv := [] } = .ok r

/-- Such a run of the encryption returns the same for any two memories. -/
theorem ReadsDecoded.eq (h : ReadsDecoded (aesEncrypt b64 · key iv data))
    {behind₁ behind₂ : Behind} {r₁ r₂ : SqlResult (List Byte)}
    (h₁ : aesEncrypt b64 behind₁ key iv data = .ok r₁)
    (h₂ : aesEncrypt b64 behind₂ key iv data = .ok r₂) : r₁ = r₂ := by
  have hr₁ : aesEncrypt b64 ⟨[], [], behind₁.data⟩ key iv data = .ok r₁ := h behind₁ r₁ h₁
  have hr₂ : aesEncrypt b64 ⟨[], [], behind₂.data⟩ key iv data = .ok r₂ := h behind₂ r₂ h₂
  exact Except.ok.inj (hr₁.symm.trans hr₂)

theorem aesEncrypt_readsDecoded_iff (hb64 : b64.Lawful) :
    ReadsDecoded (aesEncrypt b64 · key iv data) ↔
      ∀ kb ib, Decodes b64 key kb → Decodes b64 iv ib → data ≠ [] →
        aesBlocklen ≤ kb.length ∧ aesBlocklen ≤ ib.length := by
  constructor
  · intro h kb ib hkey hiv hdata
    rw [← base64Decrypt_eq_ok_iff] at hkey hiv
    obtain ⟨ctx, hctx⟩ := exists_aesInitCtxIv_zeros kb ib
    obtain ⟨ps, ct, -, -, -, hrun⟩ := aesEncrypt_of_ctx hb64 hdata ctx
    have hnil := h ⟨_, _, []⟩ _ (hrun hkey hiv hctx)
    dsimp only at hnil
    rw [aesEncrypt, hkey, Run.ok_bind, hiv, Run.ok_bind] at hnil
    obtain ⟨ctx', hctx', -⟩ := Run.bind_eq_ok.mp hnil
    rw [List.append_nil, List.append_nil] at hctx'
    exact length_le_of_aesInitCtxIv hctx'
  · intro h behind r hr
    obtain ⟨kb, hkey, hr⟩ := Run.bind_eq_ok.mp hr
    obtain ⟨ib, hiv, hr⟩ := Run.bind_eq_ok.mp hr
    obtain ⟨ctx, hctx, hr⟩ := Run.bind_eq_ok.mp hr
    have hdata : data ≠ [] := by
      -- no bytes are encrypted to no bytes, which have no base64
      rintro rfl
      have hbuf := aesCbcEncryptBuffer_eq ctx []
      change aesCbcEncryptBuffer ctx (binEncrypt []) (binEncryptLen ([] : List Byte).length) = _
        at hbuf
      rw [hbuf] at hr
      cases hr
    obtain ⟨hkb, hib⟩ := h kb ib (base64Decrypt_eq_ok_iff.mp hkey)
      (base64Decrypt_eq_ok_iff.mp hiv) hdata
    obtain ⟨ctx', hctx'⟩ := exists_aesInitCtxIv hkb hib
    rw [hctx'] at hctx
    cases hctx
    dsimp only
    rw [aesEncrypt, hkey, Run.ok_bind, hiv, Run.ok_bind, hctx', Run.ok_bind]
    exact hr

theorem aesDecrypt_readsDecoded_iff :
    ReadsDecoded (aesDecrypt b64 · key iv data) ↔
      ∀ kb ib bs, Decodes b64 key kb → Decodes b64 iv ib → Decodes b64 data bs →
        aesBlocklen ∣ bs.length → aesBlocklen ≤ kb.length ∧ aesBlocklen ≤ ib.length := by
  constructor
  · rintro h kb ib bs hkey hiv hdata ⟨n, hn⟩
    rw [← base64Decrypt_eq_ok_iff] at hkey hiv hdata
    obtain ⟨cs, -, rfl⟩ := exists_blocks hn
    obtain ⟨ctx, hctx⟩ := exists_aesInitCtxIv_zeros kb ib
    -- with a zero byte behind the data, the text ends somewhere
    have hrun : aesDecrypt b64 ⟨_, _, [0]⟩ key iv data = _ :=
      aesDecrypt_of_ctx hkey hiv hdata hctx
    obtain ⟨size, -, hsize⟩ := strlen_of_mem (List.mem_append_right
      (blockBytes (BlockChain.decrypt State.xor (invCipher ctx.roundKey) ctx.iv cs))
      (List.mem_singleton.mpr (rfl : (0 : Byte) = 0))) []
    rw [List.append_nil] at hsize
    rw [hsize, Run.ok_bind] at hrun
    have hnil := h ⟨_, _, [0]⟩ _ hrun
    dsimp only at hnil
    rw [aesDecrypt, hkey, Run.ok_bind, hiv, Run.ok_bind, hdata, Run.ok_bind] at hnil
    rw [if_neg (by rw [hn, Nat.mul_mod_right]; exact fun h ↦ h rfl)] at hnil
    obtain ⟨ctx', hctx', -⟩ := Run.bind_eq_ok.mp hnil
    rw [List.append_nil, List.append_nil] at hctx'
    exact length_le_of_aesInitCtxIv hctx'
  · intro h behind r hr
    obtain ⟨kb, hkey, hr⟩ := Run.bind_eq_ok.mp hr
    obtain ⟨ib, hiv, hr⟩ := Run.bind_eq_ok.mp hr
    obtain ⟨bs, hdata, hr⟩ := Run.bind_eq_ok.mp hr
    dsimp only
    rw [aesDecrypt, hkey, Run.ok_bind, hiv, Run.ok_bind, hdata, Run.ok_bind]
    by_cases hmod : bs.length % aesBlocklen ≠ 0
    · rw [if_pos hmod] at hr ⊢
      exact hr
    · rw [if_neg hmod] at hr ⊢
      obtain ⟨hkb, hib⟩ := h kb ib bs (base64Decrypt_eq_ok_iff.mp hkey)
        (base64Decrypt_eq_ok_iff.mp hiv) (base64Decrypt_eq_ok_iff.mp hdata)
        (Nat.dvd_of_mod_eq_zero (not_not.mp hmod))
      obtain ⟨ctx, hctx⟩ := exists_aesInitCtxIv hkb hib
      rw [hctx, Run.ok_bind] at hr ⊢
      exact hr

/-- Neither function takes anything from behind the decoded key and the decoded vector if
and only if both have at least sixteen bytes, or the call is not accepted: a text that is no
base64, nothing to encrypt, or data that are not made of blocks. -/
theorem readsDecoded_iff (b64 : B64) (hb64 : b64.Lawful) (key iv data : List Byte) :
    (ReadsDecoded (aesEncrypt b64 · key iv data) ↔
      ∀ kb ib, Decodes b64 key kb → Decodes b64 iv ib → data ≠ [] →
        16 ≤ kb.length ∧ 16 ≤ ib.length) ∧
    (ReadsDecoded (aesDecrypt b64 · key iv data) ↔
      ∀ kb ib bs, Decodes b64 key kb → Decodes b64 iv ib → Decodes b64 data bs →
        16 ∣ bs.length → 16 ≤ kb.length ∧ 16 ≤ ib.length) :=
  ⟨aesEncrypt_readsDecoded_iff hb64, aesDecrypt_readsDecoded_iff⟩

/-- The key of sixteen zero bytes and the text `a`. -/
theorem readsDecoded_a : ReadsDecoded (aesEncrypt pgBase64 ·
    (Base64.encode (List.replicate 16 0)) (Base64.encode (List.replicate 16 0)) [97]) := by
  have hdecode : pgBase64.decode (Base64.encode (List.replicate 16 0)) =
      some (List.replicate 16 0) := Base64.decode_encode _
  refine (readsDecoded_iff pgBase64 pgBase64_lawful _ _ _).1.mpr ?_
  rintro kb ib ⟨-, hkb⟩ ⟨-, hib⟩ -
  rw [hdecode] at hkb hib
  cases hkb
  cases hib
  exact ⟨le_rfl, le_rfl⟩

/-- The key `AA==`, which is one byte: with other bytes behind it, the letter `a` is
encrypted to another ciphertext. -/
theorem aesEncrypt_reads_behind_key : ¬ ∀ (key iv t : List Byte) (behind₁ behind₂ : Behind)
    (r₁ r₂ : SqlResult (List Byte)), aesEncrypt pgBase64 behind₁ key iv t = .ok r₁ →
    aesEncrypt pgBase64 behind₂ key iv t = .ok r₂ → r₁ = r₂ := by
  intro h
  have hzeros : aesEncrypt pgBase64 ⟨List.replicate 15 0, [], []⟩ [65, 65, 61, 61]
      (Base64.encode (List.replicate 16 0)) [97] = .ok (.datum [76, 118, 78, 76, 121, 105, 89, 75,
        53, 90, 106, 67, 106, 90, 118, 66, 47, 100, 81, 86, 97, 119, 61, 61]) := by
    decide +kernel
  have hones : aesEncrypt pgBase64 ⟨List.replicate 15 1, [], []⟩ [65, 65, 61, 61]
      (Base64.encode (List.replicate 16 0)) [97] = .ok (.datum [50, 99, 70, 85, 120, 55, 52, 106,
        90, 97, 79, 43, 107, 120, 114, 112, 102, 122, 97, 119, 78, 81, 61, 61]) := by
    decide +kernel
  cases h _ _ _ _ _ _ _ hzeros hones

/-! ## The decrypted text -/

instance : Finite Byte := Finite.of_injective UInt8.toFin fun _ _ h ↦ UInt8.toFin_inj.mp h

instance : Finite Word :=
  Finite.of_injective (fun w : Word ↦ (w.b0, w.b1, w.b2, w.b3)) fun v w h ↦ by
    simp only [Prod.mk.injEq] at h
    exact Word.ext h.1 h.2.1 h.2.2.1 h.2.2.2

instance : Finite State :=
  Finite.of_injective (fun s : State ↦ (s.c0, s.c1, s.c2, s.c3)) fun s t h ↦ by
    simp only [Prod.mk.injEq] at h
    exact State.ext h.1 h.2.1 h.2.2.1 h.2.2.2

/-- There are as many blocks as blocks, so what is undone is also reached. -/
theorem cipher_invCipher (roundKey : Vector Word 44) (s : State) :
    cipher roundKey (invCipher roundKey s) = s := by
  have hleft : Function.LeftInverse (invCipher roundKey) (cipher roundKey) :=
    invCipher_cipher roundKey
  exact hleft.rightInverse_of_surjective (Finite.surjective_of_injective hleft.injective) s

/-- Whatever lies behind the data, the text that is returned is no longer than the bytes
the data stand for, and is the beginning of the decrypted ones. -/
def StaysInside (b64 : B64) (key iv data bytes plain : List Byte) : Prop :=
  ∀ behind r, aesDecrypt b64 behind key iv data = .ok (.datum r) →
    r.length ≤ bytes.length ∧ r <+: plain

/-- Under a key and a vector of sixteen bytes, the text that is returned for data made of
blocks stays inside of them if and only if the data are the encryption of blocks with a
zero byte among their bytes. -/
theorem aesDecrypt_staysInside_iff (b64 : B64) (key iv data : List Byte) (k v : State)
    (cs : List State) (hkey : Decodes b64 key k.bytes) (hiv : Decodes b64 iv v.bytes)
    (hdata : Decodes b64 data (blockBytes cs)) :
    StaysInside b64 key iv data (blockBytes cs)
      (blockBytes (BlockChain.decrypt State.xor (invCipher (keyExpansion k)) v cs)) ↔
    ∃ ps, BlockChain.encrypt State.xor (cipher (keyExpansion k)) v ps = cs ∧
      0 ∈ blockBytes ps := by
  rw [← base64Decrypt_eq_ok_iff] at hkey hiv hdata
  have hrun : ∀ behind, aesDecrypt b64 behind key iv data = _ := fun behind ↦
    aesDecrypt_of_ctx hkey hiv hdata (aesInitCtxIv_bytes k v behind.key behind.iv)
  dsimp only at hrun
  constructor
  · intro h
    refine ⟨BlockChain.decrypt State.xor (invCipher (keyExpansion k)) v cs,
      BlockChain.encrypt_decrypt State.xor_xor_self (cipher_invCipher _) v cs, ?_⟩
    generalize BlockChain.decrypt State.xor (invCipher (keyExpansion k)) v cs = ps at *
    -- if there is no zero byte, the search passes over the byte behind the blocks
    by_contra h0
    have hone : (strlen [1, 0] : Call ℕ) = .ok 1 := rfl
    have hfar := hrun ⟨[], [], [1, 0]⟩
    rw [strlen_append h0, hone] at hfar
    have hlen := (h _ _ hfar).2.length_le
    rw [List.length_take_of_le
      (by rw [List.length_append]; exact Nat.add_le_add_left (by decide) _)]
      at hlen
    exact absurd hlen (Nat.not_succ_le_self _)
  · rintro ⟨ps, rfl, h0⟩ behind r hr
    rw [BlockChain.decrypt_encrypt State.xor_xor_self (invCipher_cipher _)] at hrun ⊢
    obtain ⟨n, hn, hstrlen⟩ := strlen_of_mem h0 behind.data
    rw [hrun, hstrlen, Run.ok_bind, List.take_append_of_le_length hn.le] at hr
    cases hr
    refine ⟨?_, List.take_prefix _ _⟩
    rw [List.length_take, length_blockBytes, length_blockBytes, BlockChain.length_encrypt]
    exact Nat.min_le_right _ _

/-- The block of zero bytes. -/
def State.zero : State := ⟨⟨0, 0, 0, 0⟩, ⟨0, 0, 0, 0⟩, ⟨0, 0, 0, 0⟩, ⟨0, 0, 0, 0⟩⟩

/-- The encryption of the block of zero bytes, under such a key and vector. -/
theorem aesDecrypt_staysInside_zero : StaysInside pgBase64
    (Base64.encode State.zero.bytes) (Base64.encode State.zero.bytes)
    (Base64.encode (blockBytes [encryptBlock (keyExpansion State.zero) State.zero State.zero]))
    (blockBytes [encryptBlock (keyExpansion State.zero) State.zero State.zero])
    (blockBytes (BlockChain.decrypt State.xor (invCipher (keyExpansion State.zero)) State.zero
      [encryptBlock (keyExpansion State.zero) State.zero State.zero])) := by
  have hblocks : ∀ s : State, blockBytes [s] ≠ [] := by
    intro s h
    cases h
  refine (aesDecrypt_staysInside_iff pgBase64 _ _ _ _ _ _
    (decodes_encode State.zero.bytes_ne_nil) (decodes_encode State.zero.bytes_ne_nil)
    (decodes_encode (hblocks _))).mpr ⟨[State.zero], rfl, ?_⟩
  exact List.mem_cons_self

/-- The encryption of sixteen letters `a`, with the letter `A` and a zero byte behind the
decrypted data: seventeen letters are returned. -/
theorem aesDecrypt_not_staysInside : ¬ ∀ (key iv data kb ib bs : List Byte) (behind : Behind)
    (r : List Byte), pgBase64.decode key = some kb → kb.length = 16 →
    pgBase64.decode iv = some ib → ib.length = 16 → pgBase64.decode data = some bs →
    aesDecrypt pgBase64 behind key iv data = .ok (.datum r) → r.length ≤ bs.length := by
  intro h
  obtain ⟨ps, ct, hps, hdecode, hct, -⟩ := aesEncrypt_of_ctx pgBase64_lawful
    (show List.replicate 16 (97 : Byte) ≠ [] by decide) ⟨keyExpansion State.zero, State.zero⟩
  obtain ⟨-, hkey⟩ := decodes_encode State.zero.bytes_ne_nil
  have hkey' := base64Decrypt_eq_ok_iff.mpr (decodes_encode State.zero.bytes_ne_nil)
  have hrun : aesDecrypt pgBase64 ⟨[], [], [65, 0]⟩ _ _ ct = _ :=
    aesDecrypt_of_ctx hkey' hkey' hct (aesInitCtxIv_bytes State.zero State.zero [] [])
  dsimp only at hrun
  rw [BlockChain.decrypt_encrypt State.xor_xor_self (invCipher_cipher _), hps,
    binEncrypt_of_dvd (by decide)] at hrun
  have hlen := h _ _ _ _ _ _ _ _ hkey rfl hkey rfl hdecode hrun
  rw [length_blockBytes, BlockChain.length_encrypt, ← length_blockBytes, hps] at hlen
  exact absurd hlen (by decide)

end PgKmcb.Crypto
