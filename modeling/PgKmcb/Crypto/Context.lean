import PgKmcb.Crypto.Memory
import PgKmcb.Lib.Counter
import PgKmcb.Lib.Session

/-!
# The context of a cipher (`aes.c`)

`struct AES_ctx` lives across calls: the chaining modes leave the vector of the next call
in it, the counter mode leaves the next counter.  Here every function of the header is a
call on a context, and what can be said about the calls one by one is said about any
sequence of them, in any order of modes.
-/

namespace PgKmcb.Crypto

open PgKmcb.Lib

/-! ## The functions of the header -/

namespace AesCtx

/-- `AES_init_ctx`; the vector stays what it was. -/
def init (ctx : AesCtx) (key : List Byte) : Call AesCtx := do
  let key ← readBlock key 0
  return { ctx with roundKey := keyExpansion key }

/-- `AES_ctx_set_iv`. -/
def setIv (ctx : AesCtx) (iv : List Byte) : Call AesCtx := do
  let iv ← readBlock iv 0
  return { ctx with iv := iv }

/-- `AES_ECB_encrypt`. -/
def ecbEncrypt (ctx : AesCtx) (buf : List Byte) : Call (List Byte) := do
  let block ← readBlock buf 0
  writeBlock buf 0 (cipher ctx.roundKey block)

/-- `AES_ECB_decrypt`. -/
def ecbDecrypt (ctx : AesCtx) (buf : List Byte) : Call (List Byte) := do
  let block ← readBlock buf 0
  writeBlock buf 0 (invCipher ctx.roundKey block)

/-- `AES_CBC_encrypt_buffer` with the vector that it stores in the context. -/
def cbcEncryptBuffer (ctx : AesCtx) (buf : List Byte) (length : ℕ) :
    Call (AesCtx × List Byte) := do
  let s ← cbcBuffer (encryptBlock ctx.roundKey) (encryptBlock ctx.roundKey) length
    { buf := buf, iv := ctx.iv }
  return ({ ctx with iv := s.iv }, s.buf)

/-- `AES_CBC_decrypt_buffer` with the vector that it stores in the context. -/
def cbcDecryptBuffer (ctx : AesCtx) (buf : List Byte) (length : ℕ) :
    Call (AesCtx × List Byte) := do
  let s ← cbcBuffer (decryptBlock ctx.roundKey) (fun block _ ↦ block) length
    { buf := buf, iv := ctx.iv }
  return ({ ctx with iv := s.iv }, s.buf)

end AesCtx

/-- The buffer of `AES_CBC_encrypt_buffer`, the context aside. -/
theorem aesCbcEncryptBuffer_eq_map (ctx : AesCtx) (buf : List Byte) (length : ℕ) :
    aesCbcEncryptBuffer ctx buf length = (ctx.cbcEncryptBuffer buf length).map Prod.snd := by
  rw [aesCbcEncryptBuffer, AesCtx.cbcEncryptBuffer]
  cases cbcBuffer (encryptBlock ctx.roundKey) (encryptBlock ctx.roundKey) length
    { buf := buf, iv := ctx.iv } <;> rfl

/-- The buffer of `AES_CBC_decrypt_buffer`, the context aside. -/
theorem aesCbcDecryptBuffer_eq_map (ctx : AesCtx) (buf : List Byte) (length : ℕ) :
    aesCbcDecryptBuffer ctx buf length = (ctx.cbcDecryptBuffer buf length).map Prod.snd := by
  rw [aesCbcDecryptBuffer, AesCtx.cbcDecryptBuffer]
  cases cbcBuffer (decryptBlock ctx.roundKey) (fun block _ ↦ block) length
    { buf := buf, iv := ctx.iv } <;> rfl

/-! ## Counter mode -/

/-- `for (bi = AES_BLOCKLEN - 1; bi >= 0; --bi)`, for the bytes before the given one: a
full byte starts again and the byte before it is incremented too. -/
def incrementIv : ℕ → List Byte → Call (List Byte)
  | 0, iv => return iv
  | bi + 1, iv => do
      let byte ← readAt iv bi
      if byte = 255 then
        let iv ← writeAt iv bi 0
        incrementIv bi iv
      else
        writeAt iv bi (byte + 1)

/-- The variables of `AES_CTR_xcrypt_buffer`; `buffer` has no value at first. -/
structure CtrState where
  buf : List Byte
  iv : State
  buffer : Option State
  bi : ℕ

/-- The next block of the keystream goes to `buffer`, and the counter is incremented. -/
def regenBuffer (roundKey : Vector Word 44) (s : CtrState) : Call CtrState := do
  let iv ← incrementIv aesBlocklen s.iv.bytes
  let iv ← readBlock iv 0
  return { s with iv := iv, buffer := some (cipher roundKey s.iv), bi := 0 }

/-- `buffer[bi]`. -/
def readBuffer (buffer : Option State) (bi : ℕ) : Call Byte :=
  match buffer with
  | none => .error (.undefined .uninitialized)
  | some block => readAt block.bytes bi

/-- One round, with the `++bi` at its end. -/
def ctrStep (roundKey : Vector Word 44) (i : ℕ) (s : CtrState) : Call CtrState := do
  let s ← if s.bi = aesBlocklen then regenBuffer roundKey s else pure s
  let byte ← readAt s.buf i
  let key ← readBuffer s.buffer s.bi
  let buf ← writeAt s.buf i (byte ^^^ key)
  return { s with buf := buf, bi := s.bi + 1 }

/-- `AES_CTR_xcrypt_buffer`. -/
def AesCtx.ctrXcryptBuffer (ctx : AesCtx) (buf : List Byte) (length : ℕ) :
    Call (AesCtx × List Byte) := do
  let s ← forLoop (ctrStep ctx.roundKey) length
    { buf := buf, iv := ctx.iv, buffer := none, bi := aesBlocklen }
  return ({ ctx with iv := s.iv }, s.buf)

/-- The block that holds a number, the most significant byte first. -/
def State.ofNumber (n : ℕ) : State :=
  ⟨⟨.ofNat (n / 256 ^ 15), .ofNat (n / 256 ^ 14), .ofNat (n / 256 ^ 13), .ofNat (n / 256 ^ 12)⟩,
    ⟨.ofNat (n / 256 ^ 11), .ofNat (n / 256 ^ 10), .ofNat (n / 256 ^ 9), .ofNat (n / 256 ^ 8)⟩,
    ⟨.ofNat (n / 256 ^ 7), .ofNat (n / 256 ^ 6), .ofNat (n / 256 ^ 5), .ofNat (n / 256 ^ 4)⟩,
    ⟨.ofNat (n / 256 ^ 3), .ofNat (n / 256 ^ 2), .ofNat (n / 256 ^ 1), .ofNat (n / 256 ^ 0)⟩⟩

/-- The counter that many blocks later. -/
def State.add (iv : State) (k : ℕ) : State := .ofNumber (Counter.number iv.bytes + k)

@[simp] theorem State.bytes_ofNumber (n : ℕ) :
    (State.ofNumber n).bytes = Counter.digits aesBlocklen n := by
  simp only [State.ofNumber, State.bytes, aesBlocklen, Counter.digits]

theorem State.bytes_add (iv : State) (k : ℕ) :
    (iv.add k).bytes = Counter.digits aesBlocklen (Counter.number iv.bytes + k) :=
  State.bytes_ofNumber _

@[simp] theorem State.add_zero (iv : State) : iv.add 0 = iv := by
  apply State.bytes_injective
  rw [State.bytes_add, Nat.add_zero]
  exact Counter.digits_number iv.bytes

/-- Counters start again after `2 ^ 128` blocks. -/
theorem State.add_eq_iff {iv : State} {j k : ℕ} :
    iv.add j = iv.add k ↔ j ≡ k [MOD 2 ^ 128] := by
  have hwidth : 256 ^ aesBlocklen = 2 ^ 128 := by
    rw [aesBlocklen]
    norm_num
  rw [← State.bytes_injective.eq_iff, State.bytes_add, State.bytes_add, Counter.digits_eq_iff,
    hwidth]
  exact ⟨Nat.ModEq.add_left_cancel' _, Nat.ModEq.add_left _⟩

theorem State.add_add (iv : State) (j k : ℕ) : (iv.add j).add k = iv.add (j + k) := by
  apply State.bytes_injective
  rw [State.bytes_add, State.bytes_add, State.bytes_add, Counter.number_digits,
    ← Nat.add_assoc, Counter.digits_eq_iff]
  exact (Nat.mod_modEq _ _).add_right k

/-- The bytes before the given one become the next number. -/
theorem incrementIv_spec (xs ys : List Byte) : ∃ zs, zs.length = xs.length ∧
    incrementIv xs.length (xs ++ ys) = .ok (zs ++ ys) ∧
    Counter.number zs = (Counter.number xs + 1) % 256 ^ xs.length := by
  induction xs using List.reverseRecOn generalizing ys with
  | nil => exact ⟨[], rfl, rfl, rfl⟩
  | append_singleton xs x ih =>
      rw [List.length_append, List.length_singleton, List.append_assoc, List.singleton_append,
        incrementIv, readAt_append_cons rfl, Run.ok_bind]
      by_cases hx : x = 255
      · obtain ⟨zs, hlen, hrun, hnum⟩ := ih (0 :: ys)
        refine ⟨zs ++ [0], by simp [hlen], ?_, ?_⟩
        · rw [if_pos hx, writeAt_append_cons rfl, Run.ok_bind, hrun, List.append_assoc,
            List.singleton_append]
        · rw [hx]
          exact (Counter.number_carry hnum).trans (by simp)
      · refine ⟨xs ++ [x + 1], by simp, ?_, ?_⟩
        · rw [if_neg hx, writeAt_append_cons rfl, List.append_assoc, List.singleton_append]
        · have hlt := Counter.number_lt (xs ++ [x + 1])
          rw [Counter.number_succ hx] at hlt ⊢
          exact (Nat.mod_eq_of_lt (by simpa using hlt)).symm

/-- The loop over the bytes of the counter adds one to it. -/
theorem incrementIv_bytes (iv : State) :
    incrementIv aesBlocklen iv.bytes = .ok (iv.add 1).bytes := by
  obtain ⟨zs, hlen, hrun, hnum⟩ := incrementIv_spec iv.bytes []
  rw [List.append_nil, List.append_nil, State.length_bytes] at hrun
  rw [hrun, State.bytes_add]
  refine congrArg _ (Counter.number_injective (by simpa using hlen) ?_)
  rw [hnum, Counter.number_digits, State.length_bytes]

/-- The byte of the keystream at a position of the data. -/
def keyByte (ctx : AesCtx) (i : ℕ) : Byte :=
  (cipher ctx.roundKey (ctx.iv.add (i / aesBlocklen))).bytes.getD (i % aesBlocklen) 0

/-- The blocks that data of a length begins. -/
def blocksOf (length : ℕ) : ℕ := (length + (aesBlocklen - 1)) / aesBlocklen

/-- What has happened before round `i`: the data up to there is masked, and the variables
belong to the block of the byte before. -/
structure CtrInv (ctx : AesCtx) (buf : List Byte) (i : ℕ) (s : CtrState) : Prop where
  buf_eq : s.buf = Counter.mask (· ^^^ ·) (keyByte ctx) (buf.take i) ++ buf.drop i
  iv_eq : s.iv = ctx.iv.add (blocksOf i)
  bi_eq : s.bi = (i + 15) % aesBlocklen + 1
  buffer_eq : 0 < i → s.buffer = some (cipher ctx.roundKey (ctx.iv.add ((i - 1) / aesBlocklen)))

/-- With the buffer of its block at hand, a round masks a byte. -/
theorem ctrStep_mask {ctx : AesCtx} {buf : List Byte} {i : ℕ} (hi : i < buf.length)
    {s : CtrState} (hbuf : s.buf =
      Counter.mask (· ^^^ ·) (keyByte ctx) (buf.take i) ++ buf.drop i)
    (hbuffer : s.buffer = some (cipher ctx.roundKey (ctx.iv.add (i / aesBlocklen))))
    (hbi : s.bi = i % aesBlocklen) :
    (do
      let byte ← readAt s.buf i
      let key ← readBuffer s.buffer s.bi
      let buf ← writeAt s.buf i (byte ^^^ key)
      return { s with buf := buf, bi := s.bi + 1 } : Call CtrState) =
    .ok { s with
      buf := Counter.mask (· ^^^ ·) (keyByte ctx) (buf.take (i + 1)) ++ buf.drop (i + 1)
      bi := i % aesBlocklen + 1 } := by
  have hlen : (Counter.mask (· ^^^ ·) (keyByte ctx) (buf.take i)).length = i := by
    rw [Counter.length_mask, List.length_take_of_le hi.le]
  have hkey : readBuffer s.buffer s.bi = .ok (keyByte ctx i) := by
    have hmod : i % aesBlocklen <
        (cipher ctx.roundKey (ctx.iv.add (i / aesBlocklen))).bytes.length :=
      Nat.mod_lt i (by decide)
    rw [hbuffer, hbi]
    exact readAt_of_getElem? (by simp [keyByte, List.getElem?_eq_getElem hmod])
  have hread : (readAt s.buf i : Call Byte) = .ok buf[i] := by
    rw [hbuf, List.drop_eq_getElem_cons hi]
    exact readAt_append_cons hlen _
  have hwrite : ∀ b, (writeAt s.buf i b : Call (List Byte)) =
      .ok (Counter.mask (· ^^^ ·) (keyByte ctx) (buf.take i) ++ b :: buf.drop (i + 1)) := by
    intro b
    rw [hbuf, List.drop_eq_getElem_cons hi]
    exact writeAt_append_cons hlen _ b
  rw [hread, Run.ok_bind, hkey, Run.ok_bind, hwrite, Run.ok_bind, hbi,
    List.take_succ_eq_append_getElem hi, Counter.mask_concat, List.length_take_of_le hi.le,
    List.append_assoc]
  rfl

theorem readBlock_bytes (s : State) : readBlock s.bytes 0 = .ok s := rfl

/-- The buffer becomes the keystream of the counter before it is incremented. -/
theorem regenBuffer_eq (roundKey : Vector Word 44) (s : CtrState) : regenBuffer roundKey s =
    .ok { s with iv := s.iv.add 1, buffer := some (cipher roundKey s.iv), bi := 0 } := by
  rw [regenBuffer, incrementIv_bytes, Run.ok_bind, readBlock_bytes, Run.ok_bind]
  rfl

theorem ctrStep_spec {ctx : AesCtx} {buf : List Byte} {i : ℕ} (hi : i < buf.length)
    {s : CtrState} (h : CtrInv ctx buf i s) :
    ∃ s', ctrStep ctx.roundKey i s = .ok s' ∧ CtrInv ctx buf (i + 1) s' := by
  by_cases hbi : s.bi = aesBlocklen
  · -- A block of the data begins, so a block of the keystream is made.
    have hmod : i % aesBlocklen = 0 := by
      have hmod := h.bi_eq.symm.trans hbi
      rw [aesBlocklen] at hmod ⊢
      omega
    have hdiv : blocksOf i = i / aesBlocklen ∧ blocksOf (i + 1) = i / aesBlocklen + 1 := by
      rw [blocksOf, blocksOf]
      rw [aesBlocklen] at hmod ⊢
      omega
    have hmask := ctrStep_mask hi (s := { s with
      iv := s.iv.add 1, buffer := some (cipher ctx.roundKey s.iv), bi := 0 }) h.buf_eq
      (by rw [h.iv_eq, hdiv.1]) hmod.symm
    refine ⟨_, Eq.trans ?_ hmask, ?_⟩
    · rw [ctrStep, if_pos hbi, regenBuffer_eq, Run.ok_bind]
    · constructor
      · rfl
      · rw [hdiv.2, ← State.add_add, ← hdiv.1, ← h.iv_eq]
      · show i % 16 + 1 = (i + 1 + 15) % 16 + 1
        omega
      · intro _
        rw [Nat.add_sub_cancel, ← hdiv.1, ← h.iv_eq]
  · -- The buffer still has a byte for this one.
    have hmod : i % aesBlocklen ≠ 0 := by
      intro hmod
      refine hbi (h.bi_eq.trans ?_)
      rw [aesBlocklen] at hmod ⊢
      omega
    have hdiv : blocksOf (i + 1) = blocksOf i ∧ (i - 1) / aesBlocklen = i / aesBlocklen ∧
        (i + 15) % aesBlocklen + 1 = i % aesBlocklen ∧ 0 < i := by
      rw [blocksOf, blocksOf]
      rw [aesBlocklen] at hmod ⊢
      omega
    have hmask := ctrStep_mask hi h.buf_eq (by rw [h.buffer_eq hdiv.2.2.2, hdiv.2.1])
      (h.bi_eq.trans hdiv.2.2.1)
    refine ⟨_, Eq.trans ?_ hmask, ?_⟩
    · rw [ctrStep, if_neg hbi, pure_bind]
    · constructor
      · rfl
      · rw [hdiv.1, ← h.iv_eq]
      · show i % 16 + 1 = (i + 1 + 15) % 16 + 1
        omega
      · intro _
        rw [Nat.add_sub_cancel, ← hdiv.2.1, ← h.buffer_eq hdiv.2.2.2]

/-- Data is masked with the keystream of the counters from the vector on, and the next
counter is left in the context. -/
theorem ctrXcryptBuffer_eq (ctx : AesCtx) (buf : List Byte) :
    ctx.ctrXcryptBuffer buf buf.length =
      .ok ({ ctx with iv := ctx.iv.add (blocksOf buf.length) },
        Counter.mask (· ^^^ ·) (keyByte ctx) buf) := by
  have hstart : CtrInv ctx buf 0 { buf := buf, iv := ctx.iv, buffer := none, bi := aesBlocklen } :=
    ⟨rfl, (State.add_zero _).symm, rfl, fun h ↦ absurd h (Nat.lt_irrefl 0)⟩
  obtain ⟨s, hrun, hs⟩ := forLoop_spec (CtrInv ctx buf) hstart fun i s hi h ↦ ctrStep_spec hi h
  rw [AesCtx.ctrXcryptBuffer, hrun, Run.ok_bind, hs.buf_eq, hs.iv_eq, List.take_length,
    List.drop_length, List.append_nil]
  rfl

/-! ## Which calls return -/

theorem length_of_readBlock {buf : List Byte} {pos : ℕ} {s : State}
    (h : readBlock buf pos = .ok s) : pos + aesBlocklen ≤ buf.length := by
  rw [readBlock] at h
  split at h
  · rename_i hdrop
    have hlen := congrArg List.length hdrop
    rw [List.length_drop] at hlen
    simp only [List.length_cons] at hlen
    rw [aesBlocklen]
    omega
  · cases h

/-- A round keeps the length of the buffer, and its block lies inside. -/
theorem cbcStep_eq_ok {out next : State → State → State} {i : ℕ} {s s' : CbcState}
    (h : cbcStep out next i s = .ok s') :
    s'.buf.length = s.buf.length ∧ aesBlocklen * i + aesBlocklen ≤ s.buf.length := by
  obtain ⟨block, hread, h⟩ := Run.bind_eq_ok.mp h
  obtain ⟨buf, hwrite, h⟩ := Run.bind_eq_ok.mp h
  cases h
  have hlen := length_of_readBlock hread
  rw [writeBlock, if_pos hlen] at hwrite
  cases hwrite
  refine ⟨?_, hlen⟩
  simp only [List.length_append, List.length_take, List.length_drop, State.length_bytes]
  omega

/-- The last round over a buffer reaches a whole block. -/
theorem dvd_of_cbcBuffer {out next : State → State → State} {s s' : CbcState}
    (h : cbcBuffer out next s.buf.length s = .ok s') : aesBlocklen ∣ s.buf.length := by
  rw [cbcBuffer] at h
  rcases hn : (s.buf.length + (aesBlocklen - 1)) / aesBlocklen with _ | n
  · rw [aesBlocklen] at hn ⊢
    omega
  · rw [hn, forLoop] at h
    obtain ⟨s₁, h₁, h⟩ := Run.bind_eq_ok.mp h
    have hlen : s₁.buf.length = s.buf.length :=
      forLoop_invariant (fun t : CbcState ↦ t.buf.length = s.buf.length)
        (fun i t t' hI ht ↦ (cbcStep_eq_ok ht).1.trans hI) h₁ rfl
    have hlast := (cbcStep_eq_ok h).2
    rw [hlen] at hlast
    rw [aesBlocklen] at hn hlast ⊢
    omega

end PgKmcb.Crypto
