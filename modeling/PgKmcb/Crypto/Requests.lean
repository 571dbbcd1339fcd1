import PgKmcb.Crypto.Context

/-!
# Sessions on a context (`aes.c`)

A `Request` is a call of a function of the header on one context.  The two ends of a
channel hold equal contexts and send each other what their calls leave in the buffers;
`session_serve_mirror` says that the receiving end, which calls the opposite function
for each buffer, gets what the sending end had, for every order of modes and every
change of the vector or the key in between.
-/

namespace PgKmcb.Crypto

open PgKmcb.Lib

/-- The functions that work on a context. -/
inductive Op where
  | init
  | setIv
  | ecbEncrypt
  | ecbDecrypt
  | cbcEncrypt
  | cbcDecrypt
  | ctrXcrypt
deriving DecidableEq, Repr

/-- A call, with the bytes its pointer leads to; `length` is their number. -/
structure Request where
  op : Op
  buf : List Byte
deriving DecidableEq

/-- The call is made: the context and the bytes behind the pointer afterwards. -/
def serve (ctx : AesCtx) (r : Request) : Call (AesCtx × List Byte) :=
  match r.op with
  | .init => do
      let ctx ← ctx.init r.buf
      return (ctx, r.buf)
  | .setIv => do
      let ctx ← ctx.setIv r.buf
      return (ctx, r.buf)
  | .ecbEncrypt => do
      let buf ← ctx.ecbEncrypt r.buf
      return (ctx, buf)
  | .ecbDecrypt => do
      let buf ← ctx.ecbDecrypt r.buf
      return (ctx, buf)
  | .cbcEncrypt => ctx.cbcEncryptBuffer r.buf r.buf.length
  | .cbcDecrypt => ctx.cbcDecryptBuffer r.buf r.buf.length
  | .ctrXcrypt => ctx.ctrXcryptBuffer r.buf r.buf.length

/-- What the function needs of its buffer: a block for a block, whole blocks for a
chain. -/
def Request.Valid (r : Request) : Prop :=
  match r.op with
  | .init | .setIv | .ecbEncrypt | .ecbDecrypt => aesBlocklen ≤ r.buf.length
  | .cbcEncrypt | .cbcDecrypt => aesBlocklen ∣ r.buf.length
  | .ctrXcrypt => True

instance : DecidablePred Request.Valid
  | ⟨.init, buf⟩ => inferInstanceAs (Decidable (aesBlocklen ≤ buf.length))
  | ⟨.setIv, buf⟩ => inferInstanceAs (Decidable (aesBlocklen ≤ buf.length))
  | ⟨.ecbEncrypt, buf⟩ => inferInstanceAs (Decidable (aesBlocklen ≤ buf.length))
  | ⟨.ecbDecrypt, buf⟩ => inferInstanceAs (Decidable (aesBlocklen ≤ buf.length))
  | ⟨.cbcEncrypt, buf⟩ => inferInstanceAs (Decidable (aesBlocklen ∣ buf.length))
  | ⟨.cbcDecrypt, buf⟩ => inferInstanceAs (Decidable (aesBlocklen ∣ buf.length))
  | ⟨.ctrXcrypt, _⟩ => inferInstanceAs (Decidable True)

/-- The opposite function. -/
def Op.mirror : Op → Op
  | .ecbEncrypt => .ecbDecrypt
  | .ecbDecrypt => .ecbEncrypt
  | .cbcEncrypt => .cbcDecrypt
  | .cbcDecrypt => .cbcEncrypt
  | op => op

/-- The other end calls the opposite function for what it was sent. -/
def Request.mirror (r : Request) (sent : List Byte) : Request := ⟨r.op.mirror, sent⟩

/-! ## One call -/

/-- The blocks of a chain, and the last encrypted one in the context. -/
theorem cbcEncryptBuffer_blocks (ctx : AesCtx) (bs : List State) :
    ctx.cbcEncryptBuffer (blockBytes bs) (aesBlocklen * bs.length) =
      .ok (⟨ctx.roundKey, BlockChain.last ctx.iv
          (BlockChain.encrypt State.xor (cipher ctx.roundKey) ctx.iv bs)⟩,
        blockBytes (BlockChain.encrypt State.xor (cipher ctx.roundKey) ctx.iv bs)) := by
  have hspec := cbcBuffer_spec (encryptBlock ctx.roundKey) (encryptBlock ctx.roundKey)
    (BlockChain.encrypt State.xor (cipher ctx.roundKey) ctx.iv)
    (fun bs ↦ BlockChain.last ctx.iv
      (BlockChain.encrypt State.xor (cipher ctx.roundKey) ctx.iv bs)) rfl
    (BlockChain.length_encrypt _ _ _) (BlockChain.encrypt_concat _ _ _)
    (fun bs b ↦ by rw [BlockChain.encrypt_concat, BlockChain.last_concat, encryptBlock]) bs
  rw [AesCtx.cbcEncryptBuffer]
  exact congrArg (· >>= fun s : CbcState ↦ pure ({ ctx with iv := s.iv }, s.buf)) hspec

theorem cbcDecryptBuffer_blocks (ctx : AesCtx) (cs : List State) :
    ctx.cbcDecryptBuffer (blockBytes cs) (aesBlocklen * cs.length) =
      .ok (⟨ctx.roundKey, BlockChain.last ctx.iv cs⟩,
        blockBytes (BlockChain.decrypt State.xor (invCipher ctx.roundKey) ctx.iv cs)) := by
  have hspec := cbcBuffer_spec (decryptBlock ctx.roundKey) (fun block _ ↦ block)
    (BlockChain.decrypt State.xor (invCipher ctx.roundKey) ctx.iv) (BlockChain.last ctx.iv) rfl
    (BlockChain.length_decrypt _ _ _) (BlockChain.decrypt_concat _ _ _)
    (BlockChain.last_concat _) cs
  rw [AesCtx.cbcDecryptBuffer]
  exact congrArg (· >>= fun s : CbcState ↦ pure ({ ctx with iv := s.iv }, s.buf)) hspec

/-- A request for a chain of blocks. -/
theorem serve_cbcEncrypt (ctx : AesCtx) (bs : List State) :
    serve ctx ⟨.cbcEncrypt, blockBytes bs⟩ =
      .ok (⟨ctx.roundKey, BlockChain.last ctx.iv
          (BlockChain.encrypt State.xor (cipher ctx.roundKey) ctx.iv bs)⟩,
        blockBytes (BlockChain.encrypt State.xor (cipher ctx.roundKey) ctx.iv bs)) := by
  rw [← cbcEncryptBuffer_blocks, ← length_blockBytes]
  rfl

theorem serve_cbcDecrypt (ctx : AesCtx) (cs : List State) :
    serve ctx ⟨.cbcDecrypt, blockBytes cs⟩ =
      .ok (⟨ctx.roundKey, BlockChain.last ctx.iv cs⟩,
        blockBytes (BlockChain.decrypt State.xor (invCipher ctx.roundKey) ctx.iv cs)) := by
  rw [← cbcDecryptBuffer_blocks, ← length_blockBytes]
  rfl

theorem serve_ctrXcrypt (ctx : AesCtx) (buf : List Byte) : serve ctx ⟨.ctrXcrypt, buf⟩ =
    .ok ({ ctx with iv := ctx.iv.add (blocksOf buf.length) },
      Counter.mask (· ^^^ ·) (keyByte ctx) buf) := ctrXcryptBuffer_eq ctx buf

/-- A block at the front of a buffer. -/
theorem serve_ecb (ctx : AesCtx) (s : State) (rest : List Byte) :
    serve ctx ⟨.ecbEncrypt, s.bytes ++ rest⟩ =
      .ok (ctx, (cipher ctx.roundKey s).bytes ++ rest) ∧
    serve ctx ⟨.ecbDecrypt, s.bytes ++ rest⟩ =
      .ok (ctx, (invCipher ctx.roundKey s).bytes ++ rest) := by
  have hnil : ([] : List Byte).length = 0 := rfl
  have hread : readBlock (s.bytes ++ rest) 0 = .ok s := readBlock_append hnil s
  have hwrite : ∀ t : State, writeBlock (s.bytes ++ rest) 0 t = .ok (t.bytes ++ rest) :=
    writeBlock_append hnil s
  constructor
  · rw [serve, AesCtx.ecbEncrypt, hread, Run.ok_bind, hwrite, Run.ok_bind]
    rfl
  · rw [serve, AesCtx.ecbDecrypt, hread, Run.ok_bind, hwrite, Run.ok_bind]
    rfl

theorem serve_init (ctx : AesCtx) (s : State) (rest : List Byte) :
    serve ctx ⟨.init, s.bytes ++ rest⟩ =
      .ok ({ ctx with roundKey := keyExpansion s }, s.bytes ++ rest) := rfl

theorem serve_setIv (ctx : AesCtx) (s : State) (rest : List Byte) :
    serve ctx ⟨.setIv, s.bytes ++ rest⟩ = .ok ({ ctx with iv := s }, s.bytes ++ rest) := rfl

/-- A buffer that holds a block begins with it. -/
theorem exists_front {buf : List Byte} (h : aesBlocklen ≤ buf.length) :
    ∃ (s : State) (rest : List Byte), s.bytes ++ rest = buf := by
  obtain ⟨s, hs⟩ := exists_bytes (List.length_take_of_le h)
  exact ⟨s, buf.drop aesBlocklen, by rw [hs, List.take_append_drop]⟩

/-- What a valid call does: it returns, the other end's call undoes it and leaves the same
context, and only a new key changes the round keys. -/
structure Served (ctx : AesCtx) (r : Request) (ctx' : AesCtx) (sent : List Byte) : Prop where
  call : serve ctx r = .ok (ctx', sent)
  mirror : serve ctx (r.mirror sent) = .ok (ctx', r.buf)
  length : sent.length = r.buf.length
  roundKey : r.op ≠ .init → ctx'.roundKey = ctx.roundKey

theorem served_cbcEncrypt (ctx : AesCtx) (bs : List State) : ∃ ctx' sent,
    Served ctx ⟨.cbcEncrypt, blockBytes bs⟩ ctx' sent := by
  refine ⟨_, _, serve_cbcEncrypt ctx bs, ?_, by simp, fun _ ↦ rfl⟩
  refine (serve_cbcDecrypt ctx _).trans ?_
  rw [BlockChain.decrypt_encrypt State.xor_xor_self (invCipher_cipher ctx.roundKey)]

theorem served_cbcDecrypt (ctx : AesCtx) (cs : List State) : ∃ ctx' sent,
    Served ctx ⟨.cbcDecrypt, blockBytes cs⟩ ctx' sent := by
  refine ⟨_, _, serve_cbcDecrypt ctx cs, ?_, by simp, fun _ ↦ rfl⟩
  refine (serve_cbcEncrypt ctx _).trans ?_
  rw [BlockChain.encrypt_decrypt State.xor_xor_self (cipher_invCipher ctx.roundKey)]

theorem served_ctrXcrypt (ctx : AesCtx) (buf : List Byte) : ∃ ctx' sent,
    Served ctx ⟨.ctrXcrypt, buf⟩ ctx' sent := by
  refine ⟨_, _, serve_ctrXcrypt ctx buf, ?_, by simp, fun _ ↦ rfl⟩
  refine (serve_ctrXcrypt ctx _).trans ?_
  rw [Counter.mask_mask _ xor_xor_self, Counter.length_mask]

theorem served_of_valid (ctx : AesCtx) {r : Request} (h : r.Valid) :
    ∃ ctx' sent, Served ctx r ctx' sent := by
  obtain ⟨op, buf⟩ := r
  cases op with
  | init =>
      obtain ⟨s, rest, rfl⟩ := exists_front h
      exact ⟨_, _, serve_init ctx s rest, serve_init ctx s rest, rfl, fun hne ↦ absurd rfl hne⟩
  | setIv =>
      obtain ⟨s, rest, rfl⟩ := exists_front h
      exact ⟨_, _, serve_setIv ctx s rest, serve_setIv ctx s rest, rfl, fun _ ↦ rfl⟩
  | ecbEncrypt =>
      obtain ⟨s, rest, rfl⟩ := exists_front h
      refine ⟨_, _, (serve_ecb ctx s rest).1, ?_, by simp, fun _ ↦ rfl⟩
      refine (serve_ecb ctx _ rest).2.trans ?_
      rw [invCipher_cipher]
  | ecbDecrypt =>
      obtain ⟨s, rest, rfl⟩ := exists_front h
      refine ⟨_, _, (serve_ecb ctx s rest).2, ?_, by simp, fun _ ↦ rfl⟩
      refine (serve_ecb ctx _ rest).1.trans ?_
      rw [cipher_invCipher]
  | cbcEncrypt =>
      obtain ⟨n, hn⟩ := h
      obtain ⟨bs, -, rfl⟩ := exists_blocks hn
      exact served_cbcEncrypt ctx bs
  | cbcDecrypt =>
      obtain ⟨n, hn⟩ := h
      obtain ⟨cs, -, rfl⟩ := exists_blocks hn
      exact served_cbcDecrypt ctx cs
  | ctrXcrypt => exact served_ctrXcrypt ctx buf

/-- A call that returns was valid. -/
theorem valid_of_serve {ctx : AesCtx} {r : Request} {res : AesCtx × List Byte}
    (h : serve ctx r = .ok res) : r.Valid := by
  have hblock : ∀ {β : Type} {f : State → Call β} {b : β},
      (readBlock r.buf 0 >>= f) = .ok b → aesBlocklen ≤ r.buf.length := by
    intro β f b hb
    obtain ⟨s, hs, -⟩ := Run.bind_eq_ok.mp hb
    exact length_le_of_readBlock hs
  obtain ⟨op, buf⟩ := r
  cases op with
  | init | setIv | ecbEncrypt | ecbDecrypt =>
      obtain ⟨x, hx, -⟩ := Run.bind_eq_ok.mp h
      exact hblock hx
  | cbcEncrypt | cbcDecrypt =>
      obtain ⟨s, hs, -⟩ := Run.bind_eq_ok.mp h
      exact dvd_of_cbcBuffer (s := ⟨buf, ctx.iv⟩) hs
  | ctrXcrypt => trivial

/-! ## Sessions -/

/-- A session returns exactly if each of its calls is valid: then no call reads or writes
outside of its buffer. -/
theorem session_serve_iff (ctx : AesCtx) (rs : List Request) :
    (∃ res, session serve ctx rs = .ok res) ↔ ∀ r ∈ rs, r.Valid := by
  constructor
  · rintro ⟨res, hres⟩
    exact session_requests (fun _ ↦ True) Request.Valid
      (fun _ _ _ _ _ h ↦ ⟨trivial, valid_of_serve h⟩) hres trivial
  · intro hvalid
    obtain ⟨ctx', sent, hrun, -, -⟩ := session_spec (f := serve) (fun _ ↦ True)
      (fun _ _ ↦ True) (fun s r hr _ ↦ by
        obtain ⟨s', sent, h⟩ := served_of_valid s (hvalid r hr)
        exact ⟨s', sent, h.call, trivial, trivial⟩) trivial
    exact ⟨_, hrun⟩

/-- The other end of a session gets what the first one had, call by call, and the two
contexts are equal at the end. -/
theorem session_serve_mirror (ctx : AesCtx) (rs : List Request) (hvalid : ∀ r ∈ rs, r.Valid) :
    ∃ ctx' sent, session serve ctx rs = .ok (ctx', sent) ∧
      session serve ctx (List.zipWith Request.mirror rs sent) =
        .ok (ctx', rs.map Request.buf) ∧
      List.Forall₂ (fun r data ↦ data.length = r.buf.length) rs sent := by
  obtain ⟨ctx', sent, hrun, -, hlen⟩ := session_spec (f := serve) (fun _ ↦ True)
    (fun r data ↦ data.length = r.buf.length) (fun s r hr _ ↦ by
      obtain ⟨s', data, h⟩ := served_of_valid s (hvalid r hr)
      exact ⟨s', data, h.call, trivial, h.length⟩) trivial
  refine ⟨ctx', sent, hrun, ?_, hlen⟩
  refine session_mirror (fun s r s' data h ↦ ?_) hrun
  obtain ⟨s₁, data₁, h₁⟩ := served_of_valid s (valid_of_serve h)
  have hres := h₁.call.symm.trans h
  cases hres
  exact h₁.mirror

/-- A session with three modes and a change of the vector. -/
theorem session_serve_mirror_modes : ∃ rs : List Request,
    rs.map Request.op = [.ctrXcrypt, .cbcEncrypt, .setIv, .ecbDecrypt] ∧
    ∃ ctx' sent, session serve ⟨keyExpansion .zero, .zero⟩ rs = .ok (ctx', sent) ∧
      session serve ⟨keyExpansion .zero, .zero⟩ (List.zipWith Request.mirror rs sent) =
        .ok (ctx', rs.map Request.buf) ∧
      List.Forall₂ (fun r data ↦ data.length = r.buf.length) rs sent :=
  ⟨[⟨.ctrXcrypt, [1, 2, 3]⟩, ⟨.cbcEncrypt, List.replicate 32 4⟩, ⟨.setIv, List.replicate 16 5⟩,
    ⟨.ecbDecrypt, List.replicate 20 6⟩], rfl, session_serve_mirror _ _ (by decide)⟩

/-- Whatever a context has been used for, with a new vector it is the context that
`AES_init_ctx_iv` makes of its key and that vector. -/
theorem setIv_session (key iv iv' : List Byte) (ctx : AesCtx)
    (hctx : aesInitCtxIv key iv = .ok ctx) (rs : List Request)
    (hvalid : ∀ r ∈ rs, r.Valid ∧ r.op ≠ .init) :
    ∃ ctx' sent, session serve ctx rs = .ok (ctx', sent) ∧
      ctx'.setIv iv' = aesInitCtxIv key iv' := by
  obtain ⟨k, hk, h⟩ := Run.bind_eq_ok.mp hctx
  obtain ⟨v, -, h⟩ := Run.bind_eq_ok.mp h
  obtain rfl : ⟨keyExpansion k, v⟩ = ctx := Except.ok.inj h
  obtain ⟨ctx', sent, hrun, hkey, -⟩ := session_spec (f := serve)
    (fun ctx ↦ ctx.roundKey = keyExpansion k) (fun _ _ ↦ True) (fun s r hr hs ↦ by
      obtain ⟨s', data, h⟩ := served_of_valid s (hvalid r hr).1
      exact ⟨s', data, h.call, (h.roundKey (hvalid r hr).2).trans hs, trivial⟩)
    (s := ⟨keyExpansion k, v⟩) rfl
  refine ⟨ctx', sent, hrun, ?_⟩
  rw [AesCtx.setIv, aesInitCtxIv, hk, hkey]
  rfl

/-- The key of sixteen zero bytes. -/
theorem setIv_session_zero : ∃ ctx' sent,
    session serve ⟨keyExpansion .zero, .zero⟩ [⟨.cbcEncrypt, List.replicate 16 1⟩,
      ⟨.ctrXcrypt, [2]⟩] = .ok (ctx', sent) ∧
    ctx'.setIv (List.replicate 16 3) = aesInitCtxIv (List.replicate 16 0) (List.replicate 16 3) :=
  setIv_session (List.replicate 16 0) (List.replicate 16 0) (List.replicate 16 3) _ rfl _
    (by decide)

end PgKmcb.Crypto
