import PgKmcb.Text.Codes
import PgKmcb.Text.Crc32
import PgKmcb.Text.RandAnis

/-!
# Texts with characters of two bytes (`se_std.c`)

`anis_memory_size` and `anis_character_count` go over a text in GB 18030: a byte that is
negative as a `char` is the first of two.  There is no table, the second byte is not looked
at, and where `char` is unsigned there are no such bytes at all.

Both are walks (`PgKmcb.Lib.Walk`), by other sizes than those of UTF-8.  A last character of
which only the first byte is there is counted, and counted with two bytes (`anis_items`).
-/

namespace PgKmcb.Text

open PgKmcb.Lib

/-! ## The functions -/

/-- `str[i] < 0`, for a byte that is read from the string. -/
def isNegative (sign : CharSign) (b : Byte) : Bool := decide ((sign.promote b).toInt32 < 0)

/-- One round of the sum; the index goes on in the branch and in the head of the loop. -/
def anisSizeStep (sign : CharSign) (str : List Byte) (s : SizeState) : Call SizeState := do
  let b ← readAt str s.i.toNat
  if isNegative sign b then
    return { i := s.i + 1 + 1, size := s.size + 2 }
  else
    return { i := s.i + 1, size := s.size + 1 }

/-- `anis_memory_size`; `none` is the null pointer. -/
def anisMemorySize (sign : CharSign) (str : Option (List Byte)) (strMemLen : UInt32) :
    Call UInt64 :=
  match str with
  | none => return 0
  | some str => do
      let s ← whileLoop (fun s ↦ decide (s.i < strMemLen)) (anisSizeStep sign str) (2 ^ 32)
        { i := 0, size := 0 }
      return s.size

/-- One round of the count. -/
def anisCountStep (sign : CharSign) (str : List Byte) (s : CountState) : Call CountState := do
  let b ← readAt str s.i.toNat
  let i := if isNegative sign b then s.i + 1 else s.i
  let count ← checked 32 (s.count + 1)
  return { i := i + 1, count := count }

/-- `anis_character_count`; `none` is the null pointer. -/
def anisCharacterCount (sign : CharSign) (str : Option (List Byte)) (strMemLen : UInt32) :
    Call ℤ :=
  match str with
  | none => return 0
  | some str => do
      let s ← whileLoop (fun s ↦ decide (s.i < strMemLen)) (anisCountStep sign str) (2 ^ 32)
        { i := 0, count := 0 }
      return s.count

/-! ## The walk -/

/-- The size that a first byte announces. -/
def anisLen (sign : CharSign) (b : Byte) : ℕ := if isNegative sign b then 2 else 1

theorem anisLen_pos (sign : CharSign) (b : Byte) : 0 < anisLen sign b := by
  rw [anisLen]
  split_ifs <;> decide

theorem anisLen_le (sign : CharSign) (b : Byte) : anisLen sign b ≤ 2 := by
  rw [anisLen]
  split_ifs <;> decide

theorem anisLen_signed (b : Byte) : anisLen .signed b = if 0x80 ≤ b then 2 else 1 := by
  have hbytes : ∀ i : Fin 256, anisLen .signed (UInt8.ofFin i) =
      if 0x80 ≤ UInt8.ofFin i then 2 else 1 := by decide +kernel
  exact hbytes b.toFin

theorem anisLen_unsigned (b : Byte) : anisLen .unsigned b = 1 := by
  have hbytes : ∀ i : Fin 256, anisLen .unsigned (UInt8.ofFin i) = 1 := by decide +kernel
  exact hbytes b.toFin

theorem anisSizeStep_eq (sign : CharSign) (str : List Byte) :
    anisSizeStep sign str = itemSizeStep (anisLen sign) str := by
  funext s
  rw [anisSizeStep, itemSizeStep]
  refine congrArg (_ >>= ·) (funext fun b ↦ ?_)
  rw [anisLen]
  split_ifs
  · rw [UInt32.add_assoc]
    rfl
  · rfl

theorem anisCountStep_eq (sign : CharSign) (str : List Byte) :
    anisCountStep sign str = itemStep (anisLen sign) str := by
  funext s
  rw [anisCountStep, itemStep]
  refine congrArg (_ >>= ·) (funext fun b ↦ ?_)
  have htwo : s.i + 1 + 1 = s.i + UInt32.ofNat 2 := UInt32.add_assoc _ _ _
  rw [anisLen]
  split_ifs
  · rw [← htwo]
  · rfl

variable {sign : CharSign}

/-- What is behind the last character is a byte at most. -/
theorem length_le_of_isCut {rest : List Byte} (h : Walk.IsCut (anisLen sign) rest) :
    rest.length ≤ 1 := by
  cases rest with
  | nil => exact Nat.zero_le 1
  | cons b rest => exact Nat.le_of_lt_succ ((h b rfl).trans_le (anisLen_le sign b))

/-- It is the first byte of a character. -/
theorem pos_of_isCut {rest : List Byte} (h : Walk.IsCut (anisLen sign) rest) :
    Walk.pos (anisLen sign) rest (min 1 rest.length) = 2 * rest.length := by
  have hlen := length_le_of_isCut h
  cases rest with
  | nil => rfl
  | cons b rest =>
      obtain rfl : rest = [] :=
        List.length_eq_zero_iff.mp (Nat.le_zero.mp (Nat.le_of_succ_le_succ hlen))
      have htwo : anisLen sign b = 2 := le_antisymm (anisLen_le sign b) (h b rfl)
      simp [Walk.pos, htwo]

/-- The two functions on a list of characters with or without half a one behind it. -/
theorem anis_walk {items : List (List Byte)} {rest : List Byte}
    (hitems : ∀ item ∈ items, Walk.IsItem (anisLen sign) item)
    (hrest : Walk.IsCut (anisLen sign) rest) (m : List Byte)
    (hlen : (items.flatten ++ rest).length < 2 ^ 32 - 1) :
    anisCharacterCount sign (some (items.flatten ++ rest ++ m))
        (UInt32.ofNat (items.flatten ++ rest).length) =
      (if items.length + rest.length < 2 ^ 31 then .ok ↑(items.length + rest.length)
        else .error (.undefined .overflow)) ∧
    anisMemorySize sign (some (items.flatten ++ rest ++ m))
        (UInt32.ofNat (items.flatten ++ rest).length) =
      .ok (UInt64.ofNat (items.flatten.length + 2 * rest.length)) := by
  have hone := length_le_of_isCut hrest
  obtain ⟨hsteps, hpos⟩ := Walk.steps_flatten hitems hrest
  have hmin : min 1 rest.length = rest.length := Nat.min_eq_right hone
  rw [pos_of_isCut hrest] at hpos
  have hend : Walk.pos (anisLen sign) (items.flatten ++ rest) (items.length + min 1 rest.length) <
      2 ^ 32 := by
    rw [List.length_append] at hlen
    omega
  constructor
  · rw [anisCharacterCount, anisCountStep_eq, ← hmin]
    exact count_items hsteps (anisLen_pos sign) hend
  · rw [anisMemorySize, anisSizeStep_eq, ← hpos]
    exact size_items hsteps (anisLen_pos sign) hend

/-- The two functions on a list of characters. -/
theorem anis_whole (payload : List Byte) {items : List (List Byte)}
    (hitems : ∀ item ∈ items, Walk.IsItem (anisLen sign) item) (heq : items.flatten = payload)
    (m : List Byte) (hlen : payload.length < 2 ^ 32 - 1) (hcount : items.length < 2 ^ 31) :
    anisCharacterCount sign (some (payload ++ m)) (UInt32.ofNat payload.length) =
      .ok items.length ∧
    anisMemorySize sign (some (payload ++ m)) (UInt32.ofNat payload.length) =
      .ok (UInt64.ofNat payload.length) := by
  have hnil : Walk.IsCut (anisLen sign) ([] : List Byte) := fun _ h ↦ by cases h
  have hwalk := anis_walk hitems hnil m
  rw [List.append_nil, heq] at hwalk
  have hrun := hwalk hlen
  rwa [List.length_nil, Nat.add_zero, Nat.mul_zero, Nat.add_zero, if_pos hcount] at hrun

/-- Every byte string is a list of characters with or without half a one behind it.  The
half is counted as a character and as two bytes; nothing behind the string is read. -/
theorem anis_items (sign : CharSign) (payload : List Byte) (hlen : payload.length < 2 ^ 32 - 1) :
    ∃ (items : List (List Byte)) (rest : List Byte),
      (∀ item ∈ items, Walk.IsItem (anisLen sign) item) ∧ Walk.IsCut (anisLen sign) rest ∧
      payload = items.flatten ++ rest ∧ rest.length ≤ 1 ∧ ∀ m : List Byte,
      anisCharacterCount sign (some (payload ++ m)) (UInt32.ofNat payload.length) =
        (if items.length + rest.length < 2 ^ 31 then .ok ↑(items.length + rest.length)
          else .error (.undefined .overflow)) ∧
      anisMemorySize sign (some (payload ++ m)) (UInt32.ofNat payload.length) =
        .ok (UInt64.ofNat (payload.length + rest.length)) := by
  obtain ⟨items, rest, hitems, hrest, rfl⟩ := Walk.exists_items (anisLen_pos sign) payload
  refine ⟨items, rest, hitems, hrest, rfl, length_le_of_isCut hrest, fun m ↦ ?_⟩
  rw [List.length_append, Nat.add_assoc, ← Nat.two_mul, ← List.length_append]
  exact anis_walk hitems hrest m hlen

/-- An `a`, a character of two bytes, and the first byte of another one. -/
theorem anis_items_cut : ∃ (items : List (List Byte)) (rest : List Byte),
    (∀ item ∈ items, Walk.IsItem (anisLen .signed) item) ∧
    Walk.IsCut (anisLen .signed) rest ∧
    [0x61, 0xB0, 0xA1, 0xB0] = items.flatten ++ rest ∧ rest.length ≤ 1 ∧ ∀ m : List Byte,
    anisCharacterCount .signed (some ([0x61, 0xB0, 0xA1, 0xB0] ++ m)) 4 =
      (if items.length + rest.length < 2 ^ 31 then .ok ↑(items.length + rest.length)
        else .error (.undefined .overflow)) ∧
    anisMemorySize .signed (some ([0x61, 0xB0, 0xA1, 0xB0] ++ m)) 4 =
      .ok (UInt64.ofNat (4 + rest.length)) :=
  anis_items .signed [0x61, 0xB0, 0xA1, 0xB0] (by decide)

/-! ## What the generator writes -/

theorem isItem_anisBytes {zn : ℤ × ℤ} (h : zn ∈ anisZns) :
    Walk.IsItem (anisLen .signed) (anisBytes zn) := by
  refine ⟨UInt8.ofInt zn.1, [UInt8.ofInt zn.2], rfl, ?_⟩
  have hhigh : 0x81 ≤ zn.1 ∧ zn.1 ≤ 0xFE := by
    obtain ⟨highZn, lowZn⟩ := zn
    simp only [anisZns, anisRegion, Set.mem_union, Set.mem_prod, Set.mem_Icc] at h
    omega
  have hle : 0x80 ≤ UInt8.ofInt zn.1 := by
    rw [UInt8.le_iff_toNat_le, UInt8.ofInt, UInt8.toNat_ofNat']
    change 128 ≤ _
    omega
  rw [anisLen_signed, if_pos hle, length_anisBytes]

theorem isItem_unsigned (b : Byte) : Walk.IsItem (anisLen .unsigned) [b] :=
  ⟨b, [], rfl, anisLen_unsigned b⟩

/-- However the characters of `zh_random_anis` are drawn, and although the first of them is
lost, the bytes are counted as so many characters; where `char` is unsigned every byte is
one. -/
theorem zhRandomAnis_counted (characterCount : ℕ) (buffer : List Byte) (draws : Stream' ℕ)
    (hcount : characterCount ≤ 32768) (hbuffer : 2 * characterCount ≤ buffer.length) :
    ∃ out rest, zhRandomAnis (some buffer) characterCount draws =
        .ok (.ok (out, 2 * characterCount), rest) ∧
      (∀ sign, anisMemorySize sign (some out) (UInt32.ofNat (2 * characterCount)) =
        .ok (UInt64.ofNat (2 * characterCount))) ∧
      anisCharacterCount .signed (some out) (UInt32.ofNat (2 * characterCount)) =
        .ok characterCount ∧
      anisCharacterCount .unsigned (some out) (UInt32.ofNat (2 * characterCount)) =
        .ok ↑(2 * characterCount) := by
  obtain ⟨zns, rest, -, hlen, hzns, hrun⟩ := zhRandomAnis_run hcount hbuffer draws
  -- the characters that are in the buffer in the end
  obtain ⟨final, hfinal⟩ : ∃ final, final = zns.getLast?.toList ++ zns.tail := ⟨_, rfl⟩
  have hfinallen : final.length = characterCount := by
    rw [hfinal, ← hlen]
    cases zns with
    | nil => rfl
    | cons zn zns => simp [List.getLast?_cons]
  have hmem : ∀ zn ∈ final, zn ∈ anisZns := by
    intro zn hzn
    rw [hfinal, List.mem_append, Option.mem_toList] at hzn
    rcases hzn with hzn | hzn
    · exact hzns zn (List.mem_of_getLast? hzn)
    · exact hzns zn (List.mem_of_mem_tail hzn)
  have hbytes : (final.flatMap anisBytes).length = 2 * characterCount := by
    rw [length_flatMap_anisBytes, hfinallen]
  have hsigned := anis_whole (final.flatMap anisBytes)
    (List.forall_mem_map.mpr fun zn hzn ↦ isItem_anisBytes (hmem zn hzn))
    List.flatMap_def.symm (buffer.drop (2 * characterCount))
  have hunsigned := anis_whole (final.flatMap anisBytes)
    (List.forall_mem_map.mpr fun b _ ↦ isItem_unsigned b)
    (List.flatMap_def.symm.trans (List.flatMap_singleton' _))
    (buffer.drop (2 * characterCount))
  rw [List.length_map, hfinallen, hbytes] at hsigned
  rw [List.length_map, hbytes] at hunsigned
  have hsigned := hsigned (by omega) (by omega)
  have hunsigned := hunsigned (by omega) (by omega)
  refine ⟨_, rest, hfinal ▸ hrun, ?_, hfinal ▸ hsigned.1, hfinal ▸ hunsigned.1⟩
  rintro (_ | _)
  · exact hfinal ▸ hsigned.2
  · exact hfinal ▸ hunsigned.2

/-- One character. -/
theorem zhRandomAnis_counted_one : ∃ out rest,
    zhRandomAnis (some [0, 0]) (1 : ℕ) (Stream'.const 0) = .ok (.ok (out, 2 * 1), rest) ∧
      (∀ sign, anisMemorySize sign (some out) (UInt32.ofNat (2 * 1)) =
        .ok (UInt64.ofNat (2 * 1))) ∧
      anisCharacterCount .signed (some out) (UInt32.ofNat (2 * 1)) = .ok (1 : ℕ) ∧
      anisCharacterCount .unsigned (some out) (UInt32.ofNat (2 * 1)) = .ok ↑(2 * 1) :=
  zhRandomAnis_counted 1 [0, 0] (Stream'.const 0) (by decide) (by decide)

end PgKmcb.Text
