import PgKmcb.Postgres
import PgKmcb.Lib.LookupTable
import PgKmcb.Lib.ReflectedCrc

/-!
# The checksum (`generate_crc32`, `generate_crc32_v1`)

The table of `se_std.c` is compared with the bitwise definition entry by entry
(`crc32BaseTables_get`); everything else follows from the algebra of
`PgKmcb.Lib.ReflectedCrc`.

The C function measures its argument with `strlen`.  The SQL function hands it the
payload of a `text`, which is not zero-terminated, so what is summed reaches up to
the first zero byte of the memory behind the value (`generateCrc32V1_run`).
-/

namespace PgKmcb.Text

open PgKmcb.Lib

set_option maxRecDepth 4000 in
/-- `CRC32_BASE_TABLES`. -/
def crc32BaseTables : Vector UInt32 256 := #v[
  0x00000000, 0x77073096, 0xee0e612c, 0x990951ba, 0x076dc419, 0x706af48f,
  0xe963a535, 0x9e6495a3, 0x0edb8832, 0x79dcb8a4, 0xe0d5e91e, 0x97d2d988,
  0x09b64c2b, 0x7eb17cbd, 0xe7b82d07, 0x90bf1d91, 0x1db71064, 0x6ab020f2,
  0xf3b97148, 0x84be41de, 0x1adad47d, 0x6ddde4eb, 0xf4d4b551, 0x83d385c7,
  0x136c9856, 0x646ba8c0, 0xfd62f97a, 0x8a65c9ec, 0x14015c4f, 0x63066cd9,
  0xfa0f3d63, 0x8d080df5, 0x3b6e20c8, 0x4c69105e, 0xd56041e4, 0xa2677172,
  0x3c03e4d1, 0x4b04d447, 0xd20d85fd, 0xa50ab56b, 0x35b5a8fa, 0x42b2986c,
  0xdbbbc9d6, 0xacbcf940, 0x32d86ce3, 0x45df5c75, 0xdcd60dcf, 0xabd13d59,
  0x26d930ac, 0x51de003a, 0xc8d75180, 0xbfd06116, 0x21b4f4b5, 0x56b3c423,
  0xcfba9599, 0xb8bda50f, 0x2802b89e, 0x5f058808, 0xc60cd9b2, 0xb10be924,
  0x2f6f7c87, 0x58684c11, 0xc1611dab, 0xb6662d3d, 0x76dc4190, 0x01db7106,
  0x98d220bc, 0xefd5102a, 0x71b18589, 0x06b6b51f, 0x9fbfe4a5, 0xe8b8d433,
  0x7807c9a2, 0x0f00f934, 0x9609a88e, 0xe10e9818, 0x7f6a0dbb, 0x086d3d2d,
  0x91646c97, 0xe6635c01, 0x6b6b51f4, 0x1c6c6162, 0x856530d8, 0xf262004e,
  0x6c0695ed, 0x1b01a57b, 0x8208f4c1, 0xf50fc457, 0x65b0d9c6, 0x12b7e950,
  0x8bbeb8ea, 0xfcb9887c, 0x62dd1ddf, 0x15da2d49, 0x8cd37cf3, 0xfbd44c65,
  0x4db26158, 0x3ab551ce, 0xa3bc0074, 0xd4bb30e2, 0x4adfa541, 0x3dd895d7,
  0xa4d1c46d, 0xd3d6f4fb, 0x4369e96a, 0x346ed9fc, 0xad678846, 0xda60b8d0,
  0x44042d73, 0x33031de5, 0xaa0a4c5f, 0xdd0d7cc9, 0x5005713c, 0x270241aa,
  0xbe0b1010, 0xc90c2086, 0x5768b525, 0x206f85b3, 0xb966d409, 0xce61e49f,
  0x5edef90e, 0x29d9c998, 0xb0d09822, 0xc7d7a8b4, 0x59b33d17, 0x2eb40d81,
  0xb7bd5c3b, 0xc0ba6cad, 0xedb88320, 0x9abfb3b6, 0x03b6e20c, 0x74b1d29a,
  0xead54739, 0x9dd277af, 0x04db2615, 0x73dc1683, 0xe3630b12, 0x94643b84,
  0x0d6d6a3e, 0x7a6a5aa8, 0xe40ecf0b, 0x9309ff9d, 0x0a00ae27, 0x7d079eb1,
  0xf00f9344, 0x8708a3d2, 0x1e01f268, 0x6906c2fe, 0xf762575d, 0x806567cb,
  0x196c3671, 0x6e6b06e7, 0xfed41b76, 0x89d32be0, 0x10da7a5a, 0x67dd4acc,
  0xf9b9df6f, 0x8ebeeff9, 0x17b7be43, 0x60b08ed5, 0xd6d6a3e8, 0xa1d1937e,
  0x38d8c2c4, 0x4fdff252, 0xd1bb67f1, 0xa6bc5767, 0x3fb506dd, 0x48b2364b,
  0xd80d2bda, 0xaf0a1b4c, 0x36034af6, 0x41047a60, 0xdf60efc3, 0xa867df55,
  0x316e8eef, 0x4669be79, 0xcb61b38c, 0xbc66831a, 0x256fd2a0, 0x5268e236,
  0xcc0c7795, 0xbb0b4703, 0x220216b9, 0x5505262f, 0xc5ba3bbe, 0xb2bd0b28,
  0x2bb45a92, 0x5cb36a04, 0xc2d7ffa7, 0xb5d0cf31, 0x2cd99e8b, 0x5bdeae1d,
  0x9b64c2b0, 0xec63f226, 0x756aa39c, 0x026d930a, 0x9c0906a9, 0xeb0e363f,
  0x72076785, 0x05005713, 0x95bf4a82, 0xe2b87a14, 0x7bb12bae, 0x0cb61b38,
  0x92d28e9b, 0xe5d5be0d, 0x7cdcefb7, 0x0bdbdf21, 0x86d3d2d4, 0xf1d4e242,
  0x68ddb3f8, 0x1fda836e, 0x81be16cd, 0xf6b9265b, 0x6fb077e1, 0x18b74777,
  0x88085ae6, 0xff0f6a70, 0x66063bca, 0x11010b5c, 0x8f659eff, 0xf862ae69,
  0x616bffd3, 0x166ccf45, 0xa00ae278, 0xd70dd2ee, 0x4e048354, 0x3903b3c2,
  0xa7672661, 0xd06016f7, 0x4969474d, 0x3e6e77db, 0xaed16a4a, 0xd9d65adc,
  0x40df0b66, 0x37d83bf0, 0xa9bcae53, 0xdebb9ec5, 0x47b2cf7f, 0x30b5ffe9,
  0xbdbdf21c, 0xcabac28a, 0x53b39330, 0x24b4a3a6, 0xbad03605, 0xcdd70693,
  0x54de5729, 0x23d967bf, 0xb3667a2e, 0xc4614ab8, 0x5d681b02, 0x2a6f2b94,
  0xb40bbe37, 0xc30c8ea1, 0x5a05df1b, 0x2d02ef8d]

/-- Whether the type `char` of the compiler is signed. -/
inductive CharSign where
  | signed
  | unsigned
deriving DecidableEq, Repr

/-- The promotion of a `char` to the type of the register. -/
def CharSign.promote : CharSign → Byte → UInt32
  | .signed, b => b.toInt8.toInt32.toUInt32
  | .unsigned, b => b.toUInt32

theorem and_0xFF_lt (x : UInt32) : (x &&& 0xFF).toNat < 256 := by
  rw [UInt32.toNat_and]
  exact Nat.lt_succ_of_le Nat.and_le_right

/-- The body of the loop of `generate_crc32`. -/
def crc32Step (sign : CharSign) (crc : UInt32) (b : Byte) : UInt32 :=
  (crc >>> 8) ^^^ crc32BaseTables.get ⟨((crc ^^^ sign.promote b) &&& 0xFF).toNat, and_0xFF_lt _⟩

/-- `generate_crc32`; the argument is the memory the pointer leads to, `none` for a
null pointer. -/
def generateCrc32 (sign : CharSign) : Option (List Byte) → Call UInt32
  | none => .ok 0
  | some input => do
      let len ← strlen input
      return (input.take len).foldl (crc32Step sign) 0xFFFFFFFF ^^^ 0xFFFFFFFF

/-- `generate_crc32_v1`. -/
def generateCrc32V1 (sign : CharSign) (inTxt : TextImage) : Call (SqlResult ℤ) := do
  let utf8Str := inTxt.vardata
  let first ← readAt utf8Str 0
  if first = 0 then
    return .null
  let crc32Val ← generateCrc32 sign (some utf8Str)
  return .datum crc32Val.toNat

/-! ## The table -/

/-- `0xEDB88320`, the reflected polynomial of CRC-32. -/
def crc32Poly : BitVec 32 := 0xEDB88320#32

/-- The bit-by-bit CRC-32 of a byte string. -/
def crc32Spec (s : List Byte) : BitVec 32 :=
  Crc.checksum crc32Poly 0xFFFFFFFF#32 0xFFFFFFFF#32 (s.map UInt8.toBitVec)

/-- Every entry of the table is right. -/
theorem crc32BaseTables_get (i : Fin 256) :
    (crc32BaseTables.get i).toBitVec = Crc.tableEntry crc32Poly (BitVec.ofFin i) := by
  have htable : crc32BaseTables.toList = (List.range 256).map fun n ↦
      UInt32.ofBitVec (Crc.tableEntry crc32Poly (BitVec.ofNat 8 n)) := by decide +kernel
  have hindex : BitVec.ofNat 8 i = BitVec.ofFin i :=
    BitVec.eq_of_toNat_eq (Nat.mod_eq_of_lt i.isLt)
  rw [LookupTable.get_of_toList htable i, hindex]

/-- The low byte of a promoted `char` is the byte, on every compiler. -/
theorem CharSign.promote_low (sign : CharSign) (b : Byte) :
    (sign.promote b).toBitVec.setWidth 8 = b.toBitVec := by
  cases sign with
  | unsigned => simp [CharSign.promote]
  | signed =>
      rw [CharSign.promote, Int32.toBitVec_toUInt32, Int8.toBitVec_toInt32,
        UInt8.toBitVec_toInt8]
      apply BitVec.eq_of_getLsbD_eq
      intro i hi
      simp only [BitVec.getLsbD_setWidth, BitVec.getLsbD_signExtend]
      simp [hi, show i < 32 by omega]

/-- Masking with `0xFF` is cutting to eight bits. -/
theorem ofFin_and_0xFF (x : UInt32) :
    BitVec.ofFin ⟨(x &&& 0xFF).toNat, and_0xFF_lt x⟩ = x.toBitVec.setWidth 8 := by
  apply BitVec.eq_of_toNat_eq
  rw [BitVec.toNat_setWidth, UInt32.toNat_toBitVec]
  change (x &&& 0xFF).toNat = _
  rw [UInt32.toNat_and]
  exact Nat.and_two_pow_sub_one_eq_mod _ 8

/-- One round of the loop is one bitwise step. -/
theorem crc32Step_toBitVec (sign : CharSign) (crc : UInt32) (b : Byte) :
    (crc32Step sign crc b).toBitVec = Crc.byteStep crc32Poly crc.toBitVec b.toBitVec := by
  have hlow : (crc.toBitVec ^^^ b.toBitVec.setWidth 32).setWidth 8 =
      (crc ^^^ sign.promote b).toBitVec.setWidth 8 := by
    rw [UInt32.toBitVec_xor, BitVec.setWidth_xor, BitVec.setWidth_xor, sign.promote_low b,
      BitVec.setWidth_setWidth_of_le _ (by decide), BitVec.setWidth_eq]
  rw [Crc.byteStep_eq_table, hlow, ← ofFin_and_0xFF, ← crc32BaseTables_get]
  simp [crc32Step]

theorem foldl_crc32Step_toBitVec (sign : CharSign) (s : List Byte) (crc : UInt32) :
    (s.foldl (crc32Step sign) crc).toBitVec =
      Crc.register crc32Poly crc.toBitVec (s.map UInt8.toBitVec) := by
  induction s generalizing crc with
  | nil => rfl
  | cons b s ih =>
      rw [List.foldl_cons, ih, crc32Step_toBitVec]
      rfl

/-- `generate_crc32` sums the bytes before the terminator, whatever lies behind it. -/
theorem generateCrc32_terminated (sign : CharSign) {s : List Byte} (h : 0 ∉ s)
    (m : List Byte) : generateCrc32 sign (some (s ++ 0 :: m)) =
      .ok (s.foldl (crc32Step sign) 0xFFFFFFFF ^^^ 0xFFFFFFFF) := by
  have hlen : (strlen (s ++ 0 :: m) : Call ℕ) = .ok s.length := strlen_append_zero h m
  rw [generateCrc32, hlen, Run.ok_bind, List.take_left]
  rfl

theorem crc32_toBitVec (sign : CharSign) (s : List Byte) :
    (s.foldl (crc32Step sign) 0xFFFFFFFF ^^^ 0xFFFFFFFF).toBitVec = crc32Spec s := by
  rw [UInt32.toBitVec_xor, foldl_crc32Step_toBitVec]
  rfl

/-- The table-driven checksum of a zero-terminated string is the bitwise one,
whatever the sign of `char`. -/
theorem generateCrc32_eq_spec (sign : CharSign) (s m : List Byte) (h : 0 ∉ s) :
    generateCrc32 sign (some (s ++ 0 :: m)) = .ok (UInt32.ofBitVec (crc32Spec s)) := by
  rw [generateCrc32_terminated sign h, ← crc32_toBitVec sign]

/-- A string with bytes from the upper half, where `char` may be negative. -/
theorem generateCrc32_eq_spec_upper : generateCrc32 .signed (some [0xE4, 0xB8, 0x80, 0]) =
    .ok (UInt32.ofBitVec (crc32Spec [0xE4, 0xB8, 0x80])) :=
  generateCrc32_eq_spec .signed [0xE4, 0xB8, 0x80] [] (by decide)

/-! ## Errors that are found -/

theorem crc32Spec_toNat_inj {s t : List Byte} (h : (crc32Spec s).toNat = (crc32Spec t).toNat) :
    Crc.register crc32Poly 0xFFFFFFFF#32 (s.map UInt8.toBitVec) =
      Crc.register crc32Poly 0xFFFFFFFF#32 (t.map UInt8.toBitVec) := by
  have := congrArg (· ^^^ 0xFFFFFFFF#32) (BitVec.eq_of_toNat_eq h)
  simpa [crc32Spec, Crc.checksum, BitVec.xor_assoc] using this

/-- Strings that differ in up to four consecutive bytes only have different checksums. -/
theorem crc32Spec_burst_ne (s r : List Byte) {u v : List Byte} (hlen : u.length = v.length)
    (h4 : u.length ≤ 4) (huv : u ≠ v) :
    (crc32Spec (s ++ u ++ r)).toNat ≠ (crc32Spec (s ++ v ++ r)).toNat := by
  intro h
  have hreg := crc32Spec_toNat_inj h
  rw [List.map_append, List.map_append, List.map_append, List.map_append, Crc.register_append,
    Crc.register_append, Crc.register_append, Crc.register_append] at hreg
  have hburst := Crc.register_injective (by decide) _ hreg
  have hmap : u.map UInt8.toBitVec = v.map UInt8.toBitVec :=
    Crc.register_injective_burst (by decide) _ (by simpa using hlen)
      (by rw [List.length_map]; omega) hburst
  exact huv (List.map_injective_iff.mpr (fun _ _ ↦ UInt8.toBitVec_inj.mp) hmap)

/-- Two strings without zero bytes that differ only in a window of up to four consecutive
bytes have different checksums. -/
theorem generateCrc32_burst (sign : CharSign) (s u v r m m' : List Byte)
    (hlen : u.length = v.length) (h4 : u.length ≤ 4) (huv : u ≠ v) (hu : 0 ∉ s ++ u ++ r)
    (hv : 0 ∉ s ++ v ++ r) : ∃ crc crc',
    generateCrc32 sign (some (s ++ u ++ r ++ 0 :: m)) = .ok crc ∧
    generateCrc32 sign (some (s ++ v ++ r ++ 0 :: m')) = .ok crc' ∧ crc ≠ crc' := by
  have hcrc : ∀ {t : List Byte}, 0 ∉ t → ∀ m, generateCrc32 sign (some (t ++ 0 :: m)) =
      .ok (UInt32.ofBitVec (crc32Spec t)) := by
    intro t ht m
    rw [generateCrc32_terminated sign ht, ← crc32_toBitVec sign]
  refine ⟨_, _, hcrc hu m, hcrc hv m', ?_⟩
  intro h
  exact crc32Spec_burst_ne s r hlen h4 huv (congrArg (·.toBitVec.toNat) h)

/-- The strings `abcd` and `axyd`. -/
theorem generateCrc32_burst_abcd : ∃ crc crc',
    generateCrc32 .signed (some ([97] ++ [98, 99] ++ [100] ++ 0 :: [])) = .ok crc ∧
    generateCrc32 .signed (some ([97] ++ [120, 121] ++ [100] ++ 0 :: [])) = .ok crc' ∧
    crc ≠ crc' :=
  generateCrc32_burst .signed [97] [98, 99] [120, 121] [100] [] [] rfl (by decide) (by decide)
    (by decide) (by decide)

/-! ## The payload of a `text` -/

/-- What the SQL function computes: the checksum of the payload *and* of the bytes
behind it, up to the first zero byte. -/
theorem generateCrc32V1_run (sign : CharSign) {t j : List Byte} (ht : t ≠ []) (h : 0 ∉ t)
    (hj : 0 ∉ j) (m : List Byte) :
    generateCrc32V1 sign ⟨t, j ++ 0 :: m⟩ = .ok (.datum ((crc32Spec (t ++ j)).toNat : ℤ)) := by
  have hs : 0 ∉ t ++ j := by simp [h, hj]
  obtain ⟨b, t, rfl⟩ := List.exists_cons_of_ne_nil ht
  have hb : b ≠ 0 := fun hb ↦ h (by simp [hb])
  have hcrc := generateCrc32_terminated sign hs m
  rw [List.append_assoc, List.cons_append] at hcrc
  rw [← crc32_toBitVec sign, generateCrc32V1]
  simp only [TextImage.vardata, List.cons_append, readAt_zero_cons, Run.ok_bind, if_neg hb, hcrc]
  rfl

/-- Strings that differ in their last byte only have different checksums. -/
theorem crc32Spec_concat_ne (s : List Byte) {b c : Byte} (hbc : b ≠ c) :
    (crc32Spec (s ++ [b])).toNat ≠ (crc32Spec (s ++ [c])).toNat := by
  intro h
  have hreg := crc32Spec_toNat_inj h
  rw [List.map_append, List.map_append, Crc.register_append, Crc.register_append] at hreg
  have hbyte := Crc.byteStep_injective_byte (by decide) (by decide) _ hreg
  exact hbc (UInt8.toBitVec_inj.mp hbyte)

/-- The value of `generate_crc32_v1` depends on the text alone, and is the checksum
of its payload, exactly when the byte behind the payload is a zero byte: any other
byte there is summed, and so are those after it. -/
theorem generateCrc32V1_agrees_iff (sign : CharSign) (t : List Byte) (ht : t ≠ [])
    (h : 0 ∉ t) (b : Byte) :
    (∀ m m' : List Byte, 0 ∈ b :: m → 0 ∈ b :: m' →
      generateCrc32V1 sign ⟨t, b :: m⟩ = generateCrc32V1 sign ⟨t, b :: m'⟩ ∧
      generateCrc32V1 sign ⟨t, b :: m⟩ = .ok (.datum ((crc32Spec t).toNat : ℤ))) ↔ b = 0 := by
  constructor
  · intro hall
    by_contra hb
    -- Two images that go on after `b` with one byte, a different one each.
    have hrun : ∀ c : Byte, c ≠ 0 → generateCrc32V1 sign ⟨t, b :: c :: [0]⟩ =
        .ok (.datum ((crc32Spec ((t ++ [b]) ++ [c])).toNat : ℤ)) := by
      intro c hc
      have := generateCrc32V1_run sign (j := [b, c]) ht h (by simp [Ne.symm hb, Ne.symm hc]) []
      simpa using this
    have heq := (hall [1, 0] [2, 0] (by simp) (by simp)).1
    rw [hrun 1 (by decide), hrun 2 (by decide)] at heq
    exact crc32Spec_concat_ne (t ++ [b]) (b := 1) (c := 2) (by decide)
      (Int.ofNat_inj.mp (SqlResult.datum.inj (Except.ok.inj heq)))
  · rintro rfl m m' - -
    have hrun : ∀ m, generateCrc32V1 sign ⟨t, 0 :: m⟩ =
        .ok (.datum ((crc32Spec t).toNat : ℤ)) := by
      intro m
      simpa using generateCrc32V1_run sign (j := []) ht h (by simp) m
    exact ⟨(hrun m).trans (hrun m').symm, hrun m⟩

/-- With a zero byte behind the one-letter text `a`, a `b` further on is not summed. -/
theorem generateCrc32V1_agrees_a :
    generateCrc32V1 .signed ⟨[0x61], [0, 0x62, 0]⟩ = generateCrc32V1 .signed ⟨[0x61], [0]⟩ ∧
    generateCrc32V1 .signed ⟨[0x61], [0, 0x62, 0]⟩ =
      .ok (.datum ((crc32Spec [0x61]).toNat : ℤ)) :=
  (generateCrc32V1_agrees_iff .signed [0x61] (by decide) (by decide) 0).mpr rfl
    [0x62, 0] [] (by decide) (by decide)

/-- The text `a` has two checksums: its own, and that of `ab` when a `b` happens to
lie behind it. -/
theorem generateCrc32V1_image_dependent :
    ¬ ∀ t m m' : List Byte, t ≠ [] → 0 ∉ t →
      generateCrc32V1 .signed ⟨t, m⟩ = generateCrc32V1 .signed ⟨t, m'⟩ := by
  intro h
  have := h [0x61] [0] [0x62, 0] (by decide) (by decide)
  revert this
  decide +kernel

end PgKmcb.Text
