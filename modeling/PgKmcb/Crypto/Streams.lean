import PgKmcb.Crypto.Requests

/-!
# Data cut into calls (`aes.c`)

The chaining modes and the counter mode may be given their data in pieces.  As long as
every piece but the last is made of whole blocks the cuts do not show
(`session_stream`), so that the other end may cut what it gets elsewhere
(`session_recut`).  A piece that ends inside of a block costs the rest of a block of the
keystream: the next call begins with the next counter (`session_ctrXcrypt`).
-/

namespace PgKmcb.Crypto

open PgKmcb.Lib

/-- The modes that leave something for the next call in the context. -/
def Op.Streams : Op → Prop
  | .cbcEncrypt | .cbcDecrypt | .ctrXcrypt => True
  | _ => False

theorem Op.Streams.mirror {op : Op} (h : op.Streams) : op.mirror.Streams := by
  cases op <;> first | exact h.elim | trivial

/-! ## Two pieces -/

/-- A call that returns, and one for the data behind its data. -/
theorem serve_two {ctx ctx' : AesCtx} {op : Op} {xs ys : List Byte}
    (h : serve ctx ⟨op, xs⟩ = .ok (ctx', ys)) (xs' : List Byte) :
    (serve ctx ⟨op, xs⟩ >>= fun r ↦ serve r.1 ⟨op, xs'⟩ >>= fun t ↦ .ok (t.1, r.2 ++ t.2)) =
      (serve ctx' ⟨op, xs'⟩).map fun t ↦ (t.1, ys ++ t.2) := by
  rw [h, Run.ok_bind]
  cases serve ctx' ⟨op, xs'⟩ <;> rfl

theorem serve_cbcEncrypt_append (ctx : AesCtx) (bs cs : List State) :
    serve ctx ⟨.cbcEncrypt, blockBytes bs ++ blockBytes cs⟩ =
      serve ctx ⟨.cbcEncrypt, blockBytes bs⟩ >>= fun r ↦
        serve r.1 ⟨.cbcEncrypt, blockBytes cs⟩ >>= fun t ↦ .ok (t.1, r.2 ++ t.2) := by
  rw [serve_two (serve_cbcEncrypt ctx bs), serve_cbcEncrypt, ← blockBytes_append,
    serve_cbcEncrypt, BlockChain.encrypt_append, BlockChain.last_append, blockBytes_append]
  rfl

theorem serve_cbcDecrypt_append (ctx : AesCtx) (bs cs : List State) :
    serve ctx ⟨.cbcDecrypt, blockBytes bs ++ blockBytes cs⟩ =
      serve ctx ⟨.cbcDecrypt, blockBytes bs⟩ >>= fun r ↦
        serve r.1 ⟨.cbcDecrypt, blockBytes cs⟩ >>= fun t ↦ .ok (t.1, r.2 ++ t.2) := by
  rw [serve_two (serve_cbcDecrypt ctx bs), serve_cbcDecrypt, ← blockBytes_append,
    serve_cbcDecrypt, BlockChain.decrypt_append, BlockChain.last_append, blockBytes_append]
  rfl

theorem blocksOf_mul_add (n m : ℕ) : blocksOf (aesBlocklen * n + m) = n + blocksOf m := by
  rw [blocksOf, blocksOf, Nat.add_assoc, Nat.mul_add_div (by decide)]

/-- The keystream from a later block on. -/
theorem keyByte_add (ctx : AesCtx) (i n : ℕ) :
    keyByte ctx (i + aesBlocklen * n) = keyByte { ctx with iv := ctx.iv.add n } i := by
  rw [keyByte, keyByte, Nat.add_mul_div_left _ _ (by decide), Nat.add_mul_mod_self_left,
    State.add_add, Nat.add_comm n]

theorem serve_ctrXcrypt_append (ctx : AesCtx) {xs : List Byte} (h : aesBlocklen ∣ xs.length)
    (xs' : List Byte) : serve ctx ⟨.ctrXcrypt, xs ++ xs'⟩ =
      serve ctx ⟨.ctrXcrypt, xs⟩ >>= fun r ↦
        serve r.1 ⟨.ctrXcrypt, xs'⟩ >>= fun t ↦ .ok (t.1, r.2 ++ t.2) := by
  obtain ⟨n, hn⟩ := h
  have hblocks : blocksOf (aesBlocklen * n) = n := blocksOf_mul_add n 0
  rw [serve_two (serve_ctrXcrypt ctx xs), serve_ctrXcrypt, serve_ctrXcrypt, Counter.mask_append,
    List.length_append, hn, hblocks, blocksOf_mul_add, ← State.add_add]
  simp only [keyByte_add]
  rfl

/-- Two pieces of data, the first one of whole blocks. -/
theorem serve_append {op : Op} (hop : op.Streams) (ctx : AesCtx) {xs xs' : List Byte}
    (hxs : aesBlocklen ∣ xs.length) (hxs' : Request.Valid ⟨op, xs'⟩) :
    serve ctx ⟨op, xs ++ xs'⟩ =
      serve ctx ⟨op, xs⟩ >>= fun r ↦
        serve r.1 ⟨op, xs'⟩ >>= fun t ↦ .ok (t.1, r.2 ++ t.2) := by
  obtain ⟨n, hn⟩ := hxs
  obtain ⟨bs, -, rfl⟩ := exists_blocks hn
  cases op with
  | cbcEncrypt =>
      obtain ⟨m, hm⟩ := hxs'
      obtain ⟨cs, -, rfl⟩ := exists_blocks hm
      exact serve_cbcEncrypt_append ctx bs cs
  | cbcDecrypt =>
      obtain ⟨m, hm⟩ := hxs'
      obtain ⟨cs, -, rfl⟩ := exists_blocks hm
      exact serve_cbcDecrypt_append ctx bs cs
  | ctrXcrypt => exact serve_ctrXcrypt_append ctx ⟨n, hn⟩ xs'
  | _ => exact hop.elim

theorem valid_append {op : Op} (hop : op.Streams) {xs xs' : List Byte}
    (hxs : aesBlocklen ∣ xs.length) :
    Request.Valid ⟨op, xs ++ xs'⟩ ↔ Request.Valid ⟨op, xs'⟩ := by
  have hdvd : aesBlocklen ∣ (xs ++ xs').length ↔ aesBlocklen ∣ xs'.length := by
    rw [List.length_append]
    exact (Nat.dvd_add_iff_right hxs).symm
  cases op with
  | cbcEncrypt | cbcDecrypt => exact hdvd
  | ctrXcrypt => exact Iff.rfl
  | _ => exact hop.elim

/-! ## Any number of pieces -/

/-- The requests for data in pieces. -/
def inPieces (op : Op) (pieces : List (List Byte)) (rest : List Byte) : List Request :=
  (pieces ++ [rest]).map (Request.mk op)

/-- A session of pieces returns if their call as a whole would, and with the same. -/
theorem session_inPieces (ctx : AesCtx) {op : Op} (hop : op.Streams) {pieces : List (List Byte)}
    {rest : List Byte} (hpieces : ∀ xs ∈ pieces, aesBlocklen ∣ xs.length)
    (hrest : Request.Valid ⟨op, rest⟩) :
    ∃ ctx' sent, session serve ctx (inPieces op pieces rest) = .ok (ctx', sent) ∧
      serve ctx ⟨op, pieces.flatten ++ rest⟩ = .ok (ctx', sent.flatten) := by
  obtain ⟨hstream, hvalid⟩ := session_flatten (f := fun s xs ↦ serve s (Request.mk op xs))
    (Q := fun xs ↦ Request.Valid ⟨op, xs⟩)
    (fun _ _ hxs hxs' ↦ (valid_append hop hxs).mpr hxs')
    (fun s _ _ hxs hxs' ↦ serve_append hop s hxs hxs') hpieces hrest ctx
  rw [← session_map, ← inPieces] at hstream
  obtain ⟨ctx', out, hall⟩ := served_of_valid ctx hvalid
  cases hrun : session serve ctx (inPieces op pieces rest) with
  | error e =>
      rw [hrun, hall.call] at hstream
      cases hstream
  | ok r =>
      rw [hrun] at hstream
      exact ⟨r.1, r.2, rfl, hstream.symm⟩

/-- The answers to data in pieces, one behind the other, are the answer to all of the
data, and the context is the same afterwards. -/
theorem session_stream (ctx : AesCtx) (op : Op) (hop : op.Streams) (pieces : List (List Byte))
    (rest : List Byte) (hpieces : ∀ xs ∈ pieces, aesBlocklen ∣ xs.length)
    (hrest : Request.Valid ⟨op, rest⟩) :
    (session serve ctx (inPieces op pieces rest)).map (fun r ↦ (r.1, r.2.flatten)) =
      serve ctx ⟨op, pieces.flatten ++ rest⟩ := by
  obtain ⟨ctx', sent, hrun, hcall⟩ := session_inPieces ctx hop hpieces hrest
  rw [hrun, hcall]
  rfl

/-- Two blocks and three bytes in counter mode. -/
theorem session_stream_ctr :
    (session serve ⟨keyExpansion .zero, .zero⟩ (inPieces .ctrXcrypt [List.replicate 16 1,
      List.replicate 16 2] [3, 4, 5])).map (fun r ↦ (r.1, r.2.flatten)) =
    serve ⟨keyExpansion .zero, .zero⟩ ⟨.ctrXcrypt,
      [List.replicate 16 1, List.replicate 16 2].flatten ++ [3, 4, 5]⟩ :=
  session_stream _ .ctrXcrypt trivial _ _ (by decide) (by decide)

theorem valid_flatten {op : Op} (hop : op.Streams) {pieces : List (List Byte)} {rest : List Byte}
    (h : ∀ xs ∈ pieces, aesBlocklen ∣ xs.length) :
    Request.Valid ⟨op, pieces.flatten ++ rest⟩ ↔ Request.Valid ⟨op, rest⟩ := by
  induction pieces with
  | nil => exact Iff.rfl
  | cons xs pieces ih =>
      rw [List.flatten_cons, List.append_assoc, valid_append hop (h xs List.mem_cons_self)]
      exact ih fun xs hxs ↦ h xs (List.mem_cons_of_mem _ hxs)

/-- The other end may cut what it gets into other pieces: it gets the data all the same,
and the contexts of the two ends are equal afterwards. -/
theorem session_recut (ctx : AesCtx) (op : Op) (hop : op.Streams) (pieces : List (List Byte))
    (rest : List Byte) (hpieces : ∀ xs ∈ pieces, aesBlocklen ∣ xs.length)
    (hrest : Request.Valid ⟨op, rest⟩) :
    ∃ ctx' sent, session serve ctx (inPieces op pieces rest) = .ok (ctx', sent) ∧
      ∀ (pieces' : List (List Byte)) (rest' : List Byte),
        (∀ xs ∈ pieces', aesBlocklen ∣ xs.length) → pieces'.flatten ++ rest' = sent.flatten →
        ∃ got, session serve ctx (inPieces op.mirror pieces' rest') = .ok (ctx', got) ∧
          got.flatten = pieces.flatten ++ rest := by
  obtain ⟨ctx', sent, hrun, hcall⟩ := session_inPieces ctx hop hpieces hrest
  refine ⟨ctx', sent, hrun, fun pieces' rest' hpieces' hcut ↦ ?_⟩
  -- the other end's call as a whole
  obtain ⟨ctx₁, out, hall⟩ := served_of_valid ctx (valid_of_serve hcall)
  cases hall.call.symm.trans hcall
  have hmirror : serve ctx ⟨op.mirror, pieces'.flatten ++ rest'⟩ = _ := hcut ▸ hall.mirror
  have hrest' := (valid_flatten hop.mirror hpieces').mp (valid_of_serve hmirror)
  obtain ⟨ctx₂, got, hgot, hwhole⟩ := session_inPieces ctx hop.mirror hpieces' hrest'
  rw [hmirror] at hwhole
  obtain ⟨rfl, hdata⟩ := Prod.mk.inj (Except.ok.inj hwhole)
  exact ⟨got, hgot, hdata.symm⟩

/-- A block and then two blocks in a chain. -/
theorem session_recut_cbc : ∃ ctx' sent,
    session serve ⟨keyExpansion .zero, .zero⟩ (inPieces .cbcEncrypt [List.replicate 16 1]
      (List.replicate 32 2)) = .ok (ctx', sent) ∧
    ∀ (pieces' : List (List Byte)) (rest' : List Byte),
      (∀ xs ∈ pieces', aesBlocklen ∣ xs.length) → pieces'.flatten ++ rest' = sent.flatten →
      ∃ got, session serve ⟨keyExpansion .zero, .zero⟩ (inPieces .cbcDecrypt pieces' rest') =
          .ok (ctx', got) ∧
        got.flatten = [List.replicate 16 1].flatten ++ List.replicate 32 2 :=
  session_recut _ .cbcEncrypt trivial _ _ (by decide) (by decide)

/-! ## The keystream of a session -/

/-- The keystream from a counter on. -/
def keystream (ctx : AesCtx) (n : ℕ) : List State :=
  (List.range n).map fun i ↦ cipher ctx.roundKey (ctx.iv.add i)

theorem getElem?_blockBytes (bs : List State) (i : ℕ) : (blockBytes bs)[i]? =
    bs[i / aesBlocklen]?.bind fun b ↦ b.bytes[i % aesBlocklen]? := by
  induction bs generalizing i with
  | nil => rfl
  | cons b bs ih =>
      rw [blockBytes_cons, List.getElem?_append, State.length_bytes]
      split
      · rename_i hi
        rw [Nat.div_eq_of_lt hi, Nat.mod_eq_of_lt hi]
        rfl
      · rename_i hi
        obtain ⟨j, rfl⟩ := Nat.exists_eq_add_of_le (Nat.le_of_not_lt hi)
        rw [Nat.add_sub_cancel_left, ih, Nat.add_div_left _ (by decide), Nat.add_mod_left,
          List.getElem?_cons_succ]

/-- A mask is the first bytes of the keystream. -/
theorem mask_keyByte (ctx : AesCtx) (buf : List Byte) :
    Counter.mask (· ^^^ ·) (keyByte ctx) buf =
      List.zipWith (· ^^^ ·) buf (blockBytes (keystream ctx (blocksOf buf.length))) := by
  refine List.ext_getElem? fun i ↦ ?_
  rw [Counter.mask, List.getElem?_mapIdx, List.getElem?_zipWith, getElem?_blockBytes]
  cases hi : buf[i]? with
  | none => rfl
  | some x =>
      have hlt : i / aesBlocklen < blocksOf buf.length := by
        have hlen := (List.getElem?_eq_some_iff.mp hi).1
        rw [blocksOf]
        rw [aesBlocklen]
        omega
      have hmod : ∀ b : State, b.bytes[i % aesBlocklen]? =
          some (b.bytes.getD (i % aesBlocklen) 0) := by
        intro b
        have hlt : i % aesBlocklen < b.bytes.length := Nat.mod_lt i (by decide)
        simp [List.getElem?_eq_getElem hlt]
      simp only [keystream, List.getElem?_map, List.getElem?_range hlt, Option.map_some,
        Option.bind_some, hmod]
      rfl

/-- Keystreams that follow each other. -/
theorem keystream_add (ctx : AesCtx) (m n : ℕ) : keystream ctx (m + n) =
    keystream ctx m ++ keystream { ctx with iv := ctx.iv.add m } n := by
  simp only [keystream, List.range_add, List.map_append, List.map_map, State.add_add]
  rfl

/-- The blocks of a keystream are different as long as the counters are. -/
theorem nodup_keystream_iff (ctx : AesCtx) (n : ℕ) :
    (keystream ctx n).Nodup ↔ n ≤ 2 ^ 128 := by
  have hinj : ∀ i j, cipher ctx.roundKey (ctx.iv.add i) = cipher ctx.roundKey (ctx.iv.add j) ↔
      i ≡ j [MOD 2 ^ 128] := fun i j ↦
    ((Function.LeftInverse.injective (invCipher_cipher ctx.roundKey)).eq_iff).trans
      State.add_eq_iff
  constructor
  · intro h
    by_contra hn
    have hpair := List.inj_on_of_nodup_map h (x := 0) (by simp; omega)
      (y := 2 ^ 128) (by simp; omega) ((hinj _ _).mpr (by decide))
    omega
  · intro hn
    refine List.Nodup.map_on (fun i hi j hj hij ↦ ?_) List.nodup_range
    rw [List.mem_range] at hi hj
    exact Nat.ModEq.eq_of_lt_of_lt ((hinj i j).mp hij) (by omega) (by omega)

/-- The blocks that the calls of a session begin. -/
def totalBlocks (bufs : List (List Byte)) : ℕ := (bufs.map fun buf ↦ blocksOf buf.length).sum

/-- A session of `AES_CTR_xcrypt_buffer`, whatever the lengths: the keystreams of the calls
are cut from one keystream, a block belongs to one call only, and no block is used twice
unless all counters have been used. -/
theorem session_ctrXcrypt (ctx : AesCtx) (bufs : List (List Byte)) :
    ∃ keys : List (List State),
      session serve ctx (bufs.map (Request.mk .ctrXcrypt)) =
        .ok ({ ctx with iv := ctx.iv.add (totalBlocks bufs) },
          List.zipWith (fun buf key ↦ List.zipWith (· ^^^ ·) buf (blockBytes key)) bufs keys) ∧
      List.Forall₂ (fun buf key ↦ key.length = blocksOf buf.length) bufs keys ∧
      keys.flatten = keystream ctx (totalBlocks bufs) ∧
      (keys.flatten.Nodup ↔ totalBlocks bufs ≤ 2 ^ 128) := by
  suffices h : ∃ keys : List (List State),
      session serve ctx (bufs.map (Request.mk .ctrXcrypt)) =
        .ok ({ ctx with iv := ctx.iv.add (totalBlocks bufs) },
          List.zipWith (fun buf key ↦ List.zipWith (· ^^^ ·) buf (blockBytes key)) bufs keys) ∧
      List.Forall₂ (fun buf key ↦ key.length = blocksOf buf.length) bufs keys ∧
      keys.flatten = keystream ctx (totalBlocks bufs) by
    obtain ⟨keys, hrun, hlen, hkeys⟩ := h
    exact ⟨keys, hrun, hlen, hkeys, by rw [hkeys]; exact nodup_keystream_iff ctx _⟩
  induction bufs generalizing ctx with
  | nil => exact ⟨[], by simp [totalBlocks], .nil, rfl⟩
  | cons buf bufs ih =>
      obtain ⟨keys, hrun, hlen, hkeys⟩ :=
        ih { ctx with iv := ctx.iv.add (blocksOf buf.length) }
      refine ⟨keystream ctx (blocksOf buf.length) :: keys, ?_, .cons (by simp [keystream]) hlen, ?_⟩
      · rw [List.map_cons, session_cons_of_ok (serve_ctrXcrypt ctx buf), hrun, Run.ok_bind,
          List.zipWith_cons_cons, mask_keyByte, State.add_add]
        rfl
      · rw [List.flatten_cons, hkeys, ← keystream_add]
        rfl

end PgKmcb.Crypto
