import Mathlib.Data.List.Basic
import Mathlib.Tactic.Common

/-!
# UTF-8 by its lead bytes

The encoding itself is Lean's, `String.utf8EncodeChar`; `encode` is its extension
to lists of characters, and a byte string is `Valid` when it is in the image.
What a program that walks a text byte by byte relies on is collected in
`lead_encodeChar`: the first byte of a character announces its size, and no later
byte of a character looks like a first byte.
-/

namespace PgKmcb.Lib.Utf8

/-- The encoding of one character. -/
abbrev encodeChar (c : Char) : List UInt8 := String.utf8EncodeChar c

/-- The encoding of a list of characters. -/
def encode (cs : List Char) : List UInt8 := (cs.map encodeChar).flatten

/-- A valid byte string is a concatenation of complete characters. -/
def Valid (bs : List UInt8) : Prop := ∃ cs, encode cs = bs

/-- A continuation byte. -/
def IsCont (b : UInt8) : Prop := 0x80 ≤ b.toNat ∧ b.toNat < 0xC0

/-- The size a first byte announces; no character begins with a continuation byte. -/
def leadSize (b : UInt8) : ℕ :=
  if b.toNat < 0x80 then 1
  else if b.toNat < 0xC0 then 0
  else if b.toNat < 0xE0 then 2
  else if b.toNat < 0xF0 then 3
  else 4

@[simp] theorem encode_nil : encode [] = [] := rfl

@[simp] theorem encode_cons (c : Char) (cs : List Char) :
    encode (c :: cs) = encodeChar c ++ encode cs := rfl

theorem encode_append (cs ds : List Char) : encode (cs ++ ds) = encode cs ++ encode ds := by
  simp [encode]

theorem valid_encode (cs : List Char) : Valid (encode cs) := ⟨cs, rfl⟩

theorem length_encodeChar (c : Char) : (encodeChar c).length = c.utf8Size :=
  String.length_utf8EncodeChar c

/-- The character of a valid code has that code. -/
theorem toNat_ofNat {n : ℕ} (h : n.isValidChar) : (Char.ofNat n).toNat = n := by
  rw [Char.ofNat, dif_pos h]
  rfl

/-- Different characters have different encodings. -/
theorem encodeChar_injective : Function.Injective encodeChar := by
  intro c d h
  have hc := ByteArray.utf8DecodeChar?_utf8EncodeChar_append (b := .empty) (c := c)
  have hd := ByteArray.utf8DecodeChar?_utf8EncodeChar_append (b := .empty) (c := d)
  rw [show String.utf8EncodeChar c = String.utf8EncodeChar d from h, hd] at hc
  exact (Option.some.inj hc).symm

theorem leadSize_of_isCont {b : UInt8} (h : IsCont b) : leadSize b = 0 := by
  obtain ⟨h₁, h₂⟩ := h
  simp [leadSize, Nat.not_lt.mpr h₁, h₂]

/-- The shape of a character: its first byte announces its size, and the others
are continuation bytes. -/
theorem lead_encodeChar (c : Char) : ∃ b rest, encodeChar c = b :: rest ∧
    leadSize b = c.utf8Size ∧ b.toNat < 0xF8 ∧ ∀ x ∈ rest, IsCont x := by
  have hmax : c.val.toNat < 0x110000 := by
    have := c.valid
    simp only [UInt32.isValidChar, Nat.isValidChar] at this
    omega
  rw [← length_encodeChar]
  unfold encodeChar String.utf8EncodeChar
  generalize c.val.toNat = v at hmax
  dsimp only
  have hcont : ∀ n, IsCont (UInt8.ofNat (n % 64 + 128)) := by
    intro n
    rw [IsCont, UInt8.toNat_ofNat']
    omega
  split_ifs with h₁ h₂ h₃
  · refine ⟨_, [], rfl, ?_, ?_, by simp⟩ <;>
      simp only [leadSize, UInt8.toNat_ofNat'] <;> grind
  · refine ⟨_, _, rfl, ?_, ?_, List.forall_mem_singleton.mpr (hcont v)⟩ <;>
      simp only [leadSize, UInt8.toNat_ofNat'] <;> grind
  · refine ⟨_, _, rfl, ?_, ?_, List.forall_mem_cons.mpr ⟨hcont _,
      List.forall_mem_singleton.mpr (hcont v)⟩⟩ <;>
      simp only [leadSize, UInt8.toNat_ofNat'] <;> grind
  · refine ⟨_, _, rfl, ?_, ?_, List.forall_mem_cons.mpr ⟨hcont _,
      List.forall_mem_cons.mpr ⟨hcont _, List.forall_mem_singleton.mpr (hcont v)⟩⟩⟩ <;>
      simp only [leadSize, UInt8.toNat_ofNat'] <;> grind

/-- A text is decoded in one way only: the first byte tells where the next character begins. -/
theorem encode_injective : Function.Injective encode := by
  intro cs ds h
  induction cs generalizing ds with
  | nil =>
      cases ds with
      | nil => rfl
      | cons d ds =>
          obtain ⟨b, rest, hd, -⟩ := lead_encodeChar d
          rw [encode_cons, hd] at h
          cases h
  | cons c cs ih =>
      obtain ⟨b, rest, hc, hsize, -⟩ := lead_encodeChar c
      cases ds with
      | nil =>
          rw [encode_cons, hc] at h
          cases h
      | cons d ds =>
          obtain ⟨b', rest', hd, hsize', -⟩ := lead_encodeChar d
          rw [encode_cons, encode_cons] at h
          have hb : b = b' := by
            rw [hc, hd] at h
            exact (List.cons.inj h).1
          have hlen : (encodeChar c).length = (encodeChar d).length := by
            rw [length_encodeChar, length_encodeChar, ← hsize, ← hsize', hb]
          obtain ⟨hchar, hrest⟩ := List.append_inj h hlen
          rw [encodeChar_injective hchar, ih hrest]

/-- Only the zero character has a zero byte. -/
theorem eq_zero_of_mem_encodeChar {c : Char} (h : 0 ∈ encodeChar c) : c = '\x00' := by
  obtain ⟨b, rest, hc, hsize, -, hrest⟩ := lead_encodeChar c
  rw [hc] at h
  rcases List.mem_cons.mp h with rfl | h
  · have hlen := length_encodeChar c
    rw [← hsize, hc, List.length_cons] at hlen
    have hnil : rest = [] := List.eq_nil_of_length_eq_zero (Nat.succ.inj hlen)
    exact encodeChar_injective (hc.trans (by rw [hnil]; rfl))
  · exact absurd (hrest 0 h).1 (by decide)

theorem zero_not_mem_encode {cs : List Char} (h : '\x00' ∉ cs) : 0 ∉ encode cs := by
  induction cs with
  | nil => exact List.not_mem_nil
  | cons c cs ih =>
      obtain ⟨hc, hcs⟩ := List.ne_and_not_mem_of_not_mem_cons h
      rw [encode_cons, List.mem_append, not_or]
      exact ⟨fun h0 ↦ hc (eq_zero_of_mem_encodeChar h0).symm, ih hcs⟩

theorem encode_ne_nil {cs : List Char} (h : cs ≠ []) : encode cs ≠ [] := by
  obtain ⟨c, cs, rfl⟩ := List.exists_cons_of_ne_nil h
  simp

/-! ## Positions of characters -/

/-- The position of the `i`-th character of a text. -/
def offset (cs : List Char) (i : ℕ) : ℕ := (encode (cs.take i)).length

@[simp] theorem offset_zero (cs : List Char) : offset cs 0 = 0 := by simp [offset]

theorem offset_length (cs : List Char) : offset cs cs.length = (encode cs).length := by
  rw [offset, List.take_length]

/-- The characters from the `i`-th on begin where those before it end. -/
theorem offset_add (cs : List Char) (i w : ℕ) :
    offset cs (i + w) = offset cs i + (encode ((cs.drop i).take w)).length := by
  rw [offset, List.take_add, encode_append, List.length_append, offset]

theorem offset_succ {cs : List Char} {i : ℕ} (h : i < cs.length) :
    offset cs (i + 1) = offset cs i + (cs[i]).utf8Size := by
  rw [offset_add, List.drop_eq_getElem_cons h, List.take_succ_cons, List.take_zero,
    encode_cons, encode_nil, List.append_nil, length_encodeChar]

theorem offset_le (cs : List Char) (i : ℕ) : offset cs i ≤ (encode cs).length := by
  conv_rhs => rw [← List.take_append_drop i cs, encode_append, List.length_append]
  exact Nat.le_add_right _ _

theorem offset_lt {cs : List Char} {i : ℕ} (h : i < cs.length) :
    offset cs i < (encode cs).length := by
  have hsucc := offset_succ h
  have hle := offset_le cs (i + 1)
  have hpos := (cs[i]).utf8Size_pos
  omega

/-- A character takes at most four bytes. -/
theorem length_encode_le (cs : List Char) : (encode cs).length ≤ 4 * cs.length := by
  induction cs with
  | nil => exact Nat.le_refl _
  | cons c cs ih =>
      rw [encode_cons, List.length_append, length_encodeChar, List.length_cons]
      have hc := c.utf8Size_le_four
      omega

/-- A character takes at least one byte. -/
theorem length_le_length_encode (cs : List Char) : cs.length ≤ (encode cs).length := by
  induction cs with
  | nil => exact Nat.le_refl _
  | cons c cs ih =>
      rw [encode_cons, List.length_append, length_encodeChar, List.length_cons]
      have hc := c.utf8Size_pos
      omega

/-- A text, cut before and behind `w` characters. -/
theorem encode_split (cs : List Char) (i w : ℕ) : encode cs =
    encode (cs.take i) ++ encode ((cs.drop i).take w) ++ encode (cs.drop (i + w)) := by
  rw [← encode_append, ← encode_append, ← List.take_add, List.take_append_drop]

/-! ## Valid byte strings -/

/-- A non-empty valid byte string begins with a first byte, and is at least as
long as that byte announces. -/
theorem Valid.lead {b : UInt8} {bs : List UInt8} (h : Valid (b :: bs)) :
    0 < leadSize b ∧ leadSize b ≤ (b :: bs).length := by
  obtain ⟨cs, hcs⟩ := h
  cases cs with
  | nil => simp at hcs
  | cons c cs =>
      obtain ⟨b', rest, hc, hsize, -, -⟩ := lead_encodeChar c
      have hlen := congrArg List.length hcs
      rw [encode_cons, List.length_append, length_encodeChar] at hlen
      rw [encode_cons, hc, List.cons_append] at hcs
      obtain rfl : b' = b := (List.cons.inj hcs).1
      rw [hsize]
      exact ⟨c.utf8Size_pos, by omega⟩

/-- The only valid subsequences of one character are the empty one and itself. -/
theorem Valid.eq_of_sublist_encodeChar {w : List UInt8} (h : Valid w) (hne : w ≠ [])
    {c : Char} (hw : w.Sublist (encodeChar c)) : w = encodeChar c := by
  obtain ⟨b, rest, hc, hsize, -, hrest⟩ := lead_encodeChar c
  cases w with
  | nil => exact absurd rfl hne
  | cons x w =>
      obtain ⟨hpos, hlen⟩ := h.lead
      have hxb : x = b := by
        rw [hc] at hw
        cases hw with
        | cons _ hw' =>
            have := leadSize_of_isCont (hrest x (hw'.subset List.mem_cons_self))
            omega
        | cons_cons _ _ => rfl
      refine hw.eq_of_length_le ?_
      rw [length_encodeChar, ← hsize, ← hxb]
      exact hlen

end PgKmcb.Lib.Utf8
