import PgKmcb.Crypto.Aes

/-!
# Buffers of blocks (`aes.c`)

`AES_CBC_encrypt_buffer` and `AES_CBC_decrypt_buffer` walk a buffer block by block and
overwrite it in place.  They differ in what they write and in what they chain the next
block to, so both are `cbcBuffer`, and `cbcBuffer_spec` relates both to the chain of
blocks that they compute.
-/

namespace PgKmcb.Crypto

open PgKmcb.Lib

/-! ## Blocks in memory -/

/-- `AES_BLOCKLEN`. -/
def aesBlocklen : ℕ := 16

/-- The bytes of a state, in the order of the buffer. -/
def State.bytes (s : State) : List Byte :=
  [s.c0.b0, s.c0.b1, s.c0.b2, s.c0.b3, s.c1.b0, s.c1.b1, s.c1.b2, s.c1.b3,
    s.c2.b0, s.c2.b1, s.c2.b2, s.c2.b3, s.c3.b0, s.c3.b1, s.c3.b2, s.c3.b3]

/-- The block at a position of a buffer, `(state_t *)buf`. -/
def readBlock (buf : List Byte) (pos : ℕ) : Call State :=
  match buf.drop pos with
  | a0 :: a1 :: a2 :: a3 :: b0 :: b1 :: b2 :: b3 :: c0 :: c1 :: c2 :: c3 ::
      d0 :: d1 :: d2 :: d3 :: _ =>
    .ok ⟨⟨a0, a1, a2, a3⟩, ⟨b0, b1, b2, b3⟩, ⟨c0, c1, c2, c3⟩, ⟨d0, d1, d2, d3⟩⟩
  | _ => .error (.undefined .outOfBounds)

/-- A block is overwritten. -/
def writeBlock (buf : List Byte) (pos : ℕ) (s : State) : Call (List Byte) :=
  if pos + aesBlocklen ≤ buf.length then
    .ok (buf.take pos ++ s.bytes ++ buf.drop (pos + aesBlocklen))
  else
    .error (.undefined .outOfBounds)

/-- The bytes of consecutive blocks. -/
def blockBytes (bs : List State) : List Byte := (bs.map State.bytes).flatten

@[simp] theorem State.length_bytes (s : State) : s.bytes.length = aesBlocklen := rfl

theorem State.bytes_injective : Function.Injective State.bytes := by
  intro s t h
  simp only [State.bytes, List.cons.injEq] at h
  ext <;> grind

theorem State.bytes_ne_nil (s : State) : s.bytes ≠ [] := List.cons_ne_nil _ _

@[simp] theorem length_blockBytes (bs : List State) :
    (blockBytes bs).length = aesBlocklen * bs.length := by
  induction bs with
  | nil => rfl
  | cons b bs ih =>
      rw [blockBytes, List.map_cons, List.flatten_cons, List.length_append, ← blockBytes, ih,
        State.length_bytes, List.length_cons, Nat.mul_succ, Nat.add_comm]

theorem blockBytes_append (bs cs : List State) :
    blockBytes (bs ++ cs) = blockBytes bs ++ blockBytes cs := by simp [blockBytes]

theorem blockBytes_cons (b : State) (bs : List State) :
    blockBytes (b :: bs) = b.bytes ++ blockBytes bs := rfl

theorem blockBytes_injective : Function.Injective blockBytes := by
  intro bs
  induction bs with
  | nil =>
      intro cs h
      cases cs with
      | nil => rfl
      | cons c cs => cases h
  | cons b bs ih =>
      intro cs h
      cases cs with
      | nil => cases h
      | cons c cs =>
          rw [blockBytes_cons, blockBytes_cons] at h
          obtain ⟨hhead, htail⟩ := List.append_inj h rfl
          rw [State.bytes_injective hhead, ih htail]

theorem readBlock_append {xs ys : List Byte} {pos : ℕ} (h : xs.length = pos) (s : State) :
    readBlock (xs ++ (s.bytes ++ ys)) pos = .ok s := by
  rw [readBlock, List.drop_left' h]
  rfl

theorem writeBlock_append {xs ys : List Byte} {pos : ℕ} (h : xs.length = pos) (s t : State) :
    writeBlock (xs ++ (s.bytes ++ ys)) pos t = .ok (xs ++ (t.bytes ++ ys)) := by
  have hlen : pos + aesBlocklen ≤ (xs ++ (s.bytes ++ ys)).length := by
    rw [List.length_append, List.length_append, State.length_bytes, h]
    omega
  have hdrop : (xs ++ (s.bytes ++ ys)).drop (pos + aesBlocklen) = ys := by
    rw [← List.drop_drop, List.drop_left' h, List.drop_left' (State.length_bytes s)]
  rw [writeBlock, if_pos hlen, hdrop, List.take_left' h, List.append_assoc]

/-- Sixteen bytes are a block. -/
theorem exists_bytes : ∀ {xs : List Byte}, xs.length = aesBlocklen → ∃ s : State, s.bytes = xs
  | [a0, a1, a2, a3, b0, b1, b2, b3, c0, c1, c2, c3, d0, d1, d2, d3], _ =>
    ⟨⟨⟨a0, a1, a2, a3⟩, ⟨b0, b1, b2, b3⟩, ⟨c0, c1, c2, c3⟩, ⟨d0, d1, d2, d3⟩⟩, rfl⟩

/-- A buffer whose length is a multiple of the block size is made of blocks. -/
theorem exists_blocks {n : ℕ} {buf : List Byte} (h : buf.length = aesBlocklen * n) :
    ∃ bs, bs.length = n ∧ blockBytes bs = buf := by
  induction n generalizing buf with
  | zero => exact ⟨[], rfl, (List.eq_nil_of_length_eq_zero h).symm⟩
  | succ n ih =>
      rw [Nat.mul_succ] at h
      have hhead : (buf.take aesBlocklen).length = aesBlocklen := by
        rw [List.length_take]
        omega
      have htail : (buf.drop aesBlocklen).length = aesBlocklen * n := by
        rw [List.length_drop]
        omega
      obtain ⟨b, hb⟩ := exists_bytes hhead
      obtain ⟨bs, hbs, hrest⟩ := ih htail
      refine ⟨b :: bs, by rw [List.length_cons, hbs], ?_⟩
      rw [blockBytes_cons, hb, hrest, List.take_append_drop]

/-! ## The two loops -/

/-- `struct AES_ctx`. -/
structure AesCtx where
  roundKey : Vector Word 44
  iv : State

/-- `AES_init_ctx_iv`; sixteen bytes are read through each pointer. -/
def aesInitCtxIv (key iv : List Byte) : Call AesCtx := do
  let key ← readBlock key 0
  let iv ← readBlock iv 0
  return { roundKey := keyExpansion key, iv := iv }

/-- The buffer, and the block that the next one is chained to.  Where the code keeps a
pointer to a block of the buffer, that block is not written again. -/
structure CbcState where
  buf : List Byte
  iv : State

/-- One round over the block number `i`: `out` is written in its place, and the next
block is chained to `next`. -/
def cbcStep (out next : State → State → State) (i : ℕ) (s : CbcState) : Call CbcState := do
  let block ← readBlock s.buf (aesBlocklen * i)
  let buf ← writeBlock s.buf (aesBlocklen * i) (out block s.iv)
  return { buf := buf, iv := next block s.iv }

/-- `for (i = 0; i < length; i += AES_BLOCKLEN)`. -/
def cbcBuffer (out next : State → State → State) (length : ℕ) (s : CbcState) : Call CbcState :=
  forLoop (cbcStep out next) ((length + (aesBlocklen - 1)) / aesBlocklen) s

/-- `XorWithIv`, then `Cipher`. -/
def encryptBlock (roundKey : Vector Word 44) (block iv : State) : State :=
  cipher roundKey (block.xor iv)

/-- `InvCipher`, then `XorWithIv`. -/
def decryptBlock (roundKey : Vector Word 44) (block iv : State) : State :=
  (invCipher roundKey block).xor iv

/-- `AES_CBC_encrypt_buffer`; the next block is chained to the one just written. -/
def aesCbcEncryptBuffer (ctx : AesCtx) (buf : List Byte) (length : ℕ) : Call (List Byte) := do
  let s ← cbcBuffer (encryptBlock ctx.roundKey) (encryptBlock ctx.roundKey) length
    { buf := buf, iv := ctx.iv }
  return s.buf

/-- `AES_CBC_decrypt_buffer`; the next block is chained to `storeNextIv`, the block as
it was read. -/
def aesCbcDecryptBuffer (ctx : AesCtx) (buf : List Byte) (length : ℕ) : Call (List Byte) := do
  let s ← cbcBuffer (decryptBlock ctx.roundKey) (fun block _ ↦ block) length
    { buf := buf, iv := ctx.iv }
  return s.buf

/-- A walk over blocks computes every function of them that it computes step by
step. -/
theorem cbcBuffer_spec (out next : State → State → State) (trans : List State → List State)
    (link : List State → State) (htrans : trans [] = [])
    (hlen : ∀ bs, (trans bs).length = bs.length)
    (hout : ∀ bs b, trans (bs ++ [b]) = trans bs ++ [out b (link bs)])
    (hnext : ∀ bs b, link (bs ++ [b]) = next b (link bs)) (bs : List State) :
    cbcBuffer out next (aesBlocklen * bs.length) { buf := blockBytes bs, iv := link [] } =
      .ok { buf := blockBytes (trans bs), iv := link bs } := by
  have hrounds : (aesBlocklen * bs.length + (aesBlocklen - 1)) / aesBlocklen = bs.length := by
    rw [aesBlocklen]
    omega
  have hstart : (⟨blockBytes bs, link []⟩ : CbcState).buf =
        blockBytes (trans (bs.take 0)) ++ blockBytes (bs.drop 0) ∧
      (⟨blockBytes bs, link []⟩ : CbcState).iv = link (bs.take 0) := by
    rw [List.take_zero, htrans, List.drop_zero]
    exact ⟨rfl, rfl⟩
  have hstep : ∀ i (s : CbcState), i < bs.length →
      (s.buf = blockBytes (trans (bs.take i)) ++ blockBytes (bs.drop i) ∧
        s.iv = link (bs.take i)) →
      ∃ s', cbcStep out next i s = .ok s' ∧
        (s'.buf = blockBytes (trans (bs.take (i + 1))) ++ blockBytes (bs.drop (i + 1)) ∧
          s'.iv = link (bs.take (i + 1))) := by
    rintro i s hi ⟨hbuf, hiv⟩
    have hpos : (blockBytes (trans (bs.take i))).length = aesBlocklen * i := by
      rw [length_blockBytes, hlen, List.length_take_of_le (Nat.le_of_lt hi)]
    have htake : bs.take (i + 1) = bs.take i ++ [bs[i]] := List.take_succ_eq_append_getElem hi
    rw [List.drop_eq_getElem_cons hi, blockBytes_cons] at hbuf
    refine ⟨⟨blockBytes (trans (bs.take i)) ++ ((out bs[i] s.iv).bytes ++
      blockBytes (bs.drop (i + 1))), next bs[i] s.iv⟩, ?_, ?_, ?_⟩
    · rw [cbcStep, hbuf, readBlock_append hpos, Run.ok_bind, writeBlock_append hpos, Run.ok_bind]
      rfl
    · rw [htake, hout, blockBytes_append, hiv, List.append_assoc]
      rfl
    · rw [htake, hnext, hiv]
  obtain ⟨s, hrun, hbuf, hiv⟩ := forLoop_spec
    (fun i (s : CbcState) ↦ s.buf = blockBytes (trans (bs.take i)) ++ blockBytes (bs.drop i) ∧
      s.iv = link (bs.take i)) hstart hstep
  rw [List.take_length, List.drop_length] at hbuf
  rw [List.take_length] at hiv
  rw [cbcBuffer, hrounds, hrun, ← hiv]
  congr 1
  cases s
  simpa [blockBytes] using hbuf

/-- The encryption of a buffer is the encryption of the chain of its blocks. -/
theorem aesCbcEncryptBuffer_eq (ctx : AesCtx) (bs : List State) :
    aesCbcEncryptBuffer ctx (blockBytes bs) (aesBlocklen * bs.length) =
      .ok (blockBytes (BlockChain.encrypt State.xor (cipher ctx.roundKey) ctx.iv bs)) := by
  have hspec := cbcBuffer_spec (encryptBlock ctx.roundKey) (encryptBlock ctx.roundKey)
    (BlockChain.encrypt State.xor (cipher ctx.roundKey) ctx.iv)
    (fun bs ↦ BlockChain.last ctx.iv
      (BlockChain.encrypt State.xor (cipher ctx.roundKey) ctx.iv bs)) rfl
    (BlockChain.length_encrypt _ _ _) (BlockChain.encrypt_concat _ _ _)
    (fun bs b ↦ by rw [BlockChain.encrypt_concat, BlockChain.last_concat, encryptBlock]) bs
  rw [aesCbcEncryptBuffer]
  exact congrArg (· >>= fun s : CbcState ↦ pure s.buf) hspec

/-- The decryption of a buffer is the decryption of the chain of its blocks. -/
theorem aesCbcDecryptBuffer_eq (ctx : AesCtx) (cs : List State) :
    aesCbcDecryptBuffer ctx (blockBytes cs) (aesBlocklen * cs.length) =
      .ok (blockBytes (BlockChain.decrypt State.xor (invCipher ctx.roundKey) ctx.iv cs)) := by
  have hspec := cbcBuffer_spec (decryptBlock ctx.roundKey) (fun block _ ↦ block)
    (BlockChain.decrypt State.xor (invCipher ctx.roundKey) ctx.iv) (BlockChain.last ctx.iv) rfl
    (BlockChain.length_decrypt _ _ _) (BlockChain.decrypt_concat _ _ _)
    (BlockChain.last_concat _) cs
  rw [aesCbcDecryptBuffer]
  exact congrArg (· >>= fun s : CbcState ↦ pure s.buf) hspec

end PgKmcb.Crypto
