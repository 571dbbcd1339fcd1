import PgKmcb.Text.RandString
import PgKmcb.Text.Split

/-!
# The encoder and the table of sizes (`se_rand.c`, `se_std.c`)

`random_utf8_zh` finds the size of a character from its code, by ranges.  The functions
that go over a text find it again from the first byte, in the table of `se_std.c`.  Both
mean the same size: the encoder writes `codeBytes` and nothing else (`randomUtf8Zh_eq`), and
on the bytes of any codes that are accepted the walk by the table ends where they end.

The sizes are added up in a `size_t` and the characters counted in an `int`: a text of
`2 ^ 31` characters or more is walked over to its end for the sum, but not for the count.
-/

namespace PgKmcb.Text

open PgKmcb.Lib

/-! ## The memory size -/

/-- The state of the sum. -/
structure SizeState where
  i : UInt32
  size : UInt64

/-- One round of the sum. -/
def sizeStep (str : List Byte) (s : SizeState) : Call SizeState := do
  let b ← readAt str s.i.toNat
  return { i := s.i + UInt32.ofNat (utf8Len b), size := s.size + UInt64.ofNat (utf8Len b) }

/-- `utf8_memory_size`; `none` is the null pointer.  The fuel is the number of values the
index has. -/
def utf8MemorySize (str : Option (List Byte)) (strMemLen : UInt32) : Call UInt64 :=
  match str with
  | none => return 0
  | some str => do
      let s ← whileLoop (fun s ↦ decide (s.i < strMemLen)) (sizeStep str) (2 ^ 32)
        { i := 0, size := 0 }
      return s.size

variable {payload : List Byte} {m : List Byte}

/-- The state of the sum after the first `j` items. -/
structure SizedTo (size : Byte → ℕ) (payload : List Byte) (j : ℕ) (s : SizeState) : Prop where
  i : s.i.toNat = Walk.pos size payload j
  size : s.size.toNat = Walk.pos size payload j

/-- One round of a sum of the sizes of items of any kind. -/
def itemSizeStep (size : Byte → ℕ) (str : List Byte) (s : SizeState) : Call SizeState := do
  let b ← readAt str s.i.toNat
  return { i := s.i + UInt32.ofNat (size b), size := s.size + UInt64.ofNat (size b) }

theorem itemSizeStep_spec {size : Byte → ℕ} {n : ℕ} (hn : Walk.Steps size payload n)
    (hend : Walk.pos size payload n < 2 ^ 32) {j : ℕ} {s : SizeState} (hj : j < n)
    (hs : SizedTo size payload j s) :
    ∃ s', itemSizeStep size (payload ++ m) s = .ok s' ∧ SizedTo size payload (j + 1) s' := by
  obtain ⟨hi, hsize⟩ := hs
  obtain ⟨b, hb, hnext⟩ := readAt_pos (m := m) (hn.lt j hj)
  have hle : Walk.pos size payload (j + 1) ≤ Walk.pos size payload n := Walk.pos_mono _ _ hj
  refine ⟨⟨s.i + UInt32.ofNat (size b), s.size + UInt64.ofNat (size b)⟩, ?_, ?_, ?_⟩
  · rw [itemSizeStep, hi, hb, Run.ok_bind]
    rfl
  · exact toNat_add_size hi hnext (hle.trans_lt hend)
  · rw [UInt64.toNat_add, UInt64.toNat_ofNat', hsize]
    omega

/-- The sum of the sizes is where the walk leaves the byte string. -/
theorem size_items {size : Byte → ℕ} {n : ℕ} (hn : Walk.Steps size payload n)
    (hsize : ∀ b, 0 < size b) (hend : Walk.pos size payload n < 2 ^ 32) :
    (do
      let s ← whileLoop (fun s : SizeState ↦ decide (s.i < UInt32.ofNat payload.length))
        (itemSizeStep size (payload ++ m)) (2 ^ 32) { i := 0, size := 0 }
      return s.size : Call UInt64) = .ok (UInt64.ofNat (Walk.pos size payload n)) := by
  have hlen : payload.length < 2 ^ 32 := hn.le.trans_lt hend
  have hfuel : n ≤ 2 ^ 32 := (hn.le_length hsize).trans hlen.le
  obtain ⟨s, hs, hrun⟩ := whileLoop_walk_all SizeState.i hn hlen hfuel (SizedTo size payload)
    (fun _ _ hs ↦ hs.i) (fun _ _ hj hs ↦ itemSizeStep_spec (m := m) hn hend hj hs)
    (s := { i := 0, size := 0 }) ⟨rfl, rfl⟩
  rw [hrun, ← hs.size, UInt64.ofNat_toNat]
  rfl

/-- The memory size of a byte string is where the walk leaves it. -/
theorem utf8MemorySize_walk {n : ℕ} (hn : Walk.Steps utf8Len payload n)
    (hend : walk payload n < 2 ^ 32) :
    ∃ size, utf8MemorySize (some (payload ++ m)) (UInt32.ofNat payload.length) = .ok size ∧
      size.toNat = walk payload n :=
  ⟨_, size_items hn utf8Len_pos hend,
    UInt64.toNat_ofNat_of_lt' (hend.trans (by decide))⟩

/-! ## The codes -/

/-- The codes that no character has: the surrogates, and those behind the last character. -/
def NoCharacter (code : ℕ) : Prop := (0xD800 ≤ code ∧ code ≤ 0xDFFF) ∨ 0x10FFFF < code

instance (code : ℕ) : Decidable (NoCharacter code) :=
  inferInstanceAs (Decidable ((0xD800 ≤ code ∧ code ≤ 0xDFFF) ∨ 0x10FFFF < code))

/-- The standard encoding of a code, and nothing if no character has it. -/
def codeBytes (code : ℕ) : List Byte :=
  if NoCharacter code then [] else Utf8.encodeChar (Char.ofNat code)

theorem toNat_ofNat_of_not {code : ℕ} (h : ¬ NoCharacter code) :
    (Char.ofNat code).toNat = code := by
  refine Utf8.toNat_ofNat ?_
  rw [NoCharacter] at h
  rw [Nat.isValidChar]
  omega

theorem codeBytes_eq_nil_iff {code : ℕ} : codeBytes code = [] ↔ NoCharacter code := by
  rw [codeBytes]
  split_ifs with h
  · exact iff_of_true rfl h
  · refine iff_of_false (fun hnil ↦ ?_) h
    obtain ⟨b, rest, hc, -⟩ := exists_lead (Char.ofNat code)
    cases hc.symm.trans hnil

/-- The encoder tests for a surrogate behind the codes of one and two bytes, which are all
below them, and writes nothing then. -/
theorem randomUtf8Zh_of_noCharacter {code : ℕ} (h : NoCharacter code) (buffer : List Byte)
    (ptr : ℕ) : randomUtf8Zh code buffer ptr = .ok (buffer, 0) := by
  rw [randomUtf8Zh, Int.toNat_natCast]
  rcases h with ⟨hlo, hhi⟩ | hmax
  · rw [if_neg (by omega), if_neg (by omega), if_pos ⟨hlo, hhi⟩]
    rfl
  · rw [if_neg (by omega), if_neg (by omega), if_neg (by omega), if_neg (by omega),
      if_neg (by omega)]
    rfl

/-- The encoder, on any code that is not negative. -/
theorem randomUtf8Zh_eq (code : ℕ) (buffer : List Byte) (ptr : ℕ) :
    randomUtf8Zh code buffer ptr = (writeRange buffer ptr (codeBytes code) >>=
      fun buffer ↦ .ok (buffer, (codeBytes code).length)) := by
  by_cases h : NoCharacter code
  · rw [randomUtf8Zh_of_noCharacter h, codeBytes, if_pos h]
    rfl
  · have hchar := randomUtf8Zh_char (Char.ofNat code) buffer ptr
    rw [toNat_ofNat_of_not h] at hchar
    rw [hchar, codeBytes, if_neg h]

/-- The size 0 is returned for the codes that no character has, and only for them. -/
theorem randomUtf8Zh_eq_zero_iff {code : ℕ} {buffer : List Byte} {ptr : ℕ} :
    (∃ buffer', randomUtf8Zh code buffer ptr = .ok (buffer', 0)) ↔ NoCharacter code := by
  constructor
  · rintro ⟨buffer', hrun⟩
    rw [randomUtf8Zh_eq, Run.bind_eq_ok] at hrun
    obtain ⟨written, -, heq⟩ := hrun
    have hsize : (codeBytes code).length = 0 := congrArg Prod.snd (Except.ok.inj heq)
    exact codeBytes_eq_nil_iff.mp (List.eq_nil_of_length_eq_zero hsize)
  · intro h
    exact ⟨buffer, randomUtf8Zh_of_noCharacter h buffer ptr⟩

/-- The bytes of codes are those of the characters that have them. -/
theorem flatMap_codeBytes {codes : List ℕ} (hcodes : ∀ code ∈ codes, ¬ NoCharacter code) :
    codes.flatMap codeBytes = Utf8.encode (codes.map Char.ofNat) := by
  induction codes with
  | nil => rfl
  | cons code codes ih =>
      obtain ⟨hcode, hcodes⟩ := List.forall_mem_cons.mp hcodes
      rw [List.flatMap_cons, List.map_cons, Utf8.encode_cons, ih hcodes, codeBytes, if_neg hcode]

/-- The walk over the bytes of codes: a step for each code, to the end of the bytes. -/
theorem steps_codeBytes {codes : List ℕ} (hcodes : ∀ code ∈ codes, ¬ NoCharacter code) :
    Walk.Steps utf8Len (codes.flatMap codeBytes) codes.length ∧
      walk (codes.flatMap codeBytes) codes.length = (codes.flatMap codeBytes).length := by
  have hsteps := steps_encode (codes.map Char.ofNat)
  have hend := Utf8.offset_length (codes.map Char.ofNat)
  rw [List.length_map] at hsteps hend
  rw [flatMap_codeBytes hcodes]
  exact ⟨hsteps, by rw [walk_encode, hend]⟩

/-- The encoder refuses the codes that no character has and writes the standard encoding of
the others.  On the encodings of any list of accepted codes the table finds the number of
bytes, and the number of codes if the `int` that is returned can hold it. -/
theorem randomUtf8Zh_agrees :
    (∀ (code : ℕ) (buffer : List Byte) (ptr : ℕ),
      ((∃ buffer', randomUtf8Zh code buffer ptr = .ok (buffer', 0)) ↔ NoCharacter code) ∧
      (¬ NoCharacter code → ptr + (codeBytes code).length ≤ buffer.length →
        randomUtf8Zh code buffer ptr =
          .ok (overwrite buffer ptr (codeBytes code), (codeBytes code).length))) ∧
    ∀ (codes : List ℕ) (m : List Byte), (∀ code ∈ codes, ¬ NoCharacter code) →
      (codes.flatMap codeBytes).length < 2 ^ 32 - 6 →
      utf8CharacterCount (some (codes.flatMap codeBytes ++ m))
          (UInt32.ofNat (codes.flatMap codeBytes).length) =
        (if codes.length < 2 ^ 31 then .ok codes.length else .error (.undefined .overflow)) ∧
      ∃ size, utf8MemorySize (some (codes.flatMap codeBytes ++ m))
          (UInt32.ofNat (codes.flatMap codeBytes).length) = .ok size ∧
        size.toNat = (codes.flatMap codeBytes).length := by
  refine ⟨fun code buffer ptr ↦ ⟨randomUtf8Zh_eq_zero_iff, fun _ hroom ↦ ?_⟩, ?_⟩
  · rw [randomUtf8Zh_eq, writeRange_of_le hroom, Run.ok_bind]
  · intro codes m hcodes hlen
    obtain ⟨hsteps, hend⟩ := steps_codeBytes hcodes
    have hend32 : walk (codes.flatMap codeBytes) codes.length < 2 ^ 32 := by omega
    obtain ⟨size, hrun, hsize⟩ := utf8MemorySize_walk (m := m) hsteps hend32
    exact ⟨utf8CharacterCount_eq hsteps hend32, size, hrun, hsize.trans hend⟩

/-- The code of `😀` is written in four bytes; then the codes of `aé漢😀`. -/
theorem randomUtf8Zh_agrees_four :
    randomUtf8Zh 0x1F600 [0, 0, 0, 0] 0 = .ok ([0xF0, 0x9F, 0x98, 0x80], 4) ∧
    utf8CharacterCount (some ([0x61, 0xE9, 0x6F22, 0x1F600].flatMap codeBytes ++ [])) 10 =
      .ok 4 ∧
    ∃ size, utf8MemorySize
        (some ([0x61, 0xE9, 0x6F22, 0x1F600].flatMap codeBytes ++ [])) 10 = .ok size ∧
      size.toNat = 10 :=
  ⟨(randomUtf8Zh_agrees.1 0x1F600 [0, 0, 0, 0] 0).2 (by decide) (by decide),
    randomUtf8Zh_agrees.2 [0x61, 0xE9, 0x6F22, 0x1F600] [] (by decide) (by decide)⟩

theorem length_flatMap_replicate (n : ℕ) :
    ((List.replicate n 97).flatMap codeBytes).length = n := by
  induction n with
  | zero => rfl
  | succ n ih =>
      rw [List.replicate_succ, List.flatMap_cons, List.length_append, ih, Nat.add_comm]
      rfl

/-- The letter `a`, `2 ^ 31` times. -/
theorem utf8CharacterCount_overflows : ¬ ∀ (codes : List ℕ) (m : List Byte),
    (∀ code ∈ codes, ¬ NoCharacter code) →
    (codes.flatMap codeBytes).length < 2 ^ 32 - 6 →
    utf8CharacterCount (some (codes.flatMap codeBytes ++ m))
      (UInt32.ofNat (codes.flatMap codeBytes).length) = .ok codes.length := by
  intro h
  obtain ⟨codes, hcodes, hn, hlen⟩ : ∃ codes : List ℕ, (∀ code ∈ codes, ¬ NoCharacter code) ∧
      codes.length = 2 ^ 31 ∧ (codes.flatMap codeBytes).length = 2 ^ 31 := by
    refine ⟨List.replicate (2 ^ 31) 97, fun code hcode ↦ ?_, List.length_replicate,
      length_flatMap_replicate _⟩
    rw [List.eq_of_mem_replicate hcode]
    decide
  obtain ⟨hsteps, hend⟩ := steps_codeBytes hcodes
  have hrun := h codes [] hcodes (by omega)
  rw [utf8CharacterCount_eq hsteps (by omega), if_neg (by omega)] at hrun
  cases hrun

end PgKmcb.Text
