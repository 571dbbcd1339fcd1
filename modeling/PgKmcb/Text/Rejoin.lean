import PgKmcb.Lib.Sliding
import PgKmcb.Text.Codes
import PgKmcb.Text.RandTexts
import PgKmcb.Text.SplitString

/-!
# What is made of an array of runs (`split_string`)

The arrays that `split_string` returns are chains of overlapping runs, and any such chain is
what the text is split into that it can be joined to.  So nothing of a text is lost in the
array, and two texts do not have the same one (`splitString_join`).

The texts of `generate_rand_string` are among those that can be split.
-/

namespace PgKmcb.Text

open PgKmcb.Lib

variable {cs : List Char} {m : List Byte}

theorem windows_eq_slide (k : ℕ) (cs : List Char) : windows k cs = slide k cs := rfl

/-- The size of the block that is asked for. -/
def windowsRequest (k : ℕ) (cs : List Char) : ℕ :=
  windowCount cs.length k * pointerSize + windowCount cs.length k * (4 + 6 * k)

/-- The texts that are split: there is something in them, the sizes do not wrap around, and
the allocator grants the request. -/
structure CanSplit (grants : ℕ → Bool) (k : ℕ) (cs : List Char) : Prop where
  ne_nil : cs ≠ []
  head : cs.head? ≠ some '\x00'
  wrap : windowCount cs.length k * (4 + 6 * k) < 2 ^ 32
  granted : grants (windowsRequest k cs) = true

/-- The array is that of the windows. -/
theorem splitString_eq {grants : ℕ → Bool} {splitSize : ℤ} (h1 : 1 ≤ splitSize)
    (h6 : splitSize ≤ 6) (h : CanSplit grants splitSize.toNat cs) :
    splitString grants ⟨Utf8.encode cs, m⟩ splitSize =
      .ok (.datum ((windows splitSize.toNat cs).map element)) := by
  obtain ⟨k, rfl⟩ := Int.eq_ofNat_of_zero_le (show 0 ≤ splitSize by omega)
  obtain ⟨hcs, h0, hwrap, hgranted⟩ := h
  rw [Int.toNat_natCast] at hwrap hgranted ⊢
  have hk : (UInt32.ofInt k).toNat = k := toNat_ofInt_natCast (by omega)
  have hrun : splitStringV0 grants ⟨Utf8.encode cs, m⟩ (UInt32.ofInt k) = _ :=
    splitStringV0_eq grants hcs h0 (by omega) (by omega) (by rw [hk]; exact hwrap)
  rw [hk, allocate, ← windowsRequest, if_pos hgranted, Run.ok_bind] at hrun
  have hcount : (UInt32.ofNat (windowCount cs.length k)).toNat =
      ((windows k cs).map element).length := by
    rw [windows, List.length_map, List.length_map, List.length_range, UInt32.toNat_ofNat',
      Nat.mod_eq_of_lt ((Nat.le_mul_of_pos_right _ (by omega)).trans_lt hwrap)]
  have harray : constructArray ((windows k cs).map element)
      (UInt32.ofNat (windowCount cs.length k)) = .ok ((windows k cs).map element) := by
    rw [constructArray, hcount, readRange, if_pos (by omega), List.drop_zero, List.take_length]
  rw [splitString, if_neg (by omega), hrun, Run.ok_bind]
  dsimp only
  rw [harray]
  rfl

theorem element_injective : Function.Injective element := fun _ _ h ↦
  Utf8.encode_injective (Varlena.mk.inj h).2

/-- Splitting and joining are inverse to each other, between the texts that can be split and
the chains of overlapping runs. -/
structure Rejoins (grants : ℕ → Bool) (splitSize : ℤ) : Prop where
  /-- The array of a text is a chain of overlapping runs that are joined to the text. -/
  join_split : ∀ cs m, CanSplit grants splitSize.toNat cs → ∃ ws : List (List Char),
    splitString grants ⟨Utf8.encode cs, m⟩ splitSize = .ok (.datum (ws.map element)) ∧
    Overlapping splitSize.toNat ws ∧ join ws = cs
  /-- Such a chain is the array of what it is joined to. -/
  split_join : ∀ ws m, Overlapping splitSize.toNat ws →
    CanSplit grants splitSize.toNat (join ws) →
    splitString grants ⟨Utf8.encode (join ws), m⟩ splitSize = .ok (.datum (ws.map element))
  /-- No two texts have the same array. -/
  injective : ∀ cs cs' m m', CanSplit grants splitSize.toNat cs →
    CanSplit grants splitSize.toNat cs' →
    splitString grants ⟨Utf8.encode cs, m⟩ splitSize =
      splitString grants ⟨Utf8.encode cs', m'⟩ splitSize → cs = cs'

theorem splitString_join (grants : ℕ → Bool) (splitSize : ℤ) (h1 : 1 ≤ splitSize)
    (h6 : splitSize ≤ 6) : Rejoins grants splitSize := by
  have hk : 0 < splitSize.toNat := by omega
  constructor
  · intro cs m h
    exact ⟨_, splitString_eq h1 h6 h, overlapping_slide hk cs⟩
  · intro ws m hws h
    rw [splitString_eq h1 h6 h, windows_eq_slide, slide_join hk hws]
  · intro cs cs' m m' h h' heq
    rw [splitString_eq h1 h6 h, splitString_eq h1 h6 h'] at heq
    have hwindows := List.map_injective_iff.mpr element_injective
      (SqlResult.datum.inj (Except.ok.inj heq))
    rw [windows_eq_slide, windows_eq_slide] at hwindows
    rw [← join_slide hk cs, hwindows, join_slide hk]

/-- Runs of two characters. -/
theorem splitString_join_two : Rejoins (fun _ ↦ true) 2 :=
  splitString_join (fun _ ↦ true) 2 (by decide) (by decide)

/-! ## Random texts -/

/-- No flag has the zero character. -/
theorem zero_not_mem_flagChars (flag : ℤ) : '\x00' ∉ flagChars flag := by
  have hrange : ∀ {lo hi : ℕ}, 0 < lo → '\x00' ∉ charRange lo hi :=
    fun hlo h ↦ absurd h.1 (Nat.not_le_of_lt hlo)
  have hdigits : '\x00' ∉ digits := hrange (by decide)
  have huppers : '\x00' ∉ uppers := hrange (by decide)
  have hlowers : '\x00' ∉ lowers := hrange (by decide)
  have hhanzi : '\x00' ∉ hanzi := hrange (by decide)
  unfold flagChars
  split <;> simp [hdigits, huppers, hlowers, hhanzi]

/-- What is generated, with anything behind it in memory: its characters are counted, its
bytes are summed up, and it is split into runs of one to six characters. -/
theorem generateRandString_split (garbage : ℕ → Byte) (fuel : ℕ) (minLen maxLen flag : ℤ)
    (hmin : 1 ≤ minLen ∧ minLen ≤ 32768) (hmax : 1 ≤ maxLen ∧ maxLen ≤ 32768)
    (grants : ℕ → Bool) (hgrants : ∀ r ≤ 0x3fffffff, grants r = true) (draws : Stream' ℕ) :
    ∃ cs v rest, IsRandText minLen maxLen flag cs ∧
      generateRandString garbage (fuel + 1) minLen maxLen flag draws = .ok (.datum v, rest) ∧
      v.payload = Utf8.encode cs ∧ ∀ m : List Byte,
      utf8CharacterCount (some (v.payload ++ m)) (UInt32.ofNat v.payload.length) =
        .ok cs.length ∧
      utf8MemorySize (some (v.payload ++ m)) (UInt32.ofNat v.payload.length) =
        .ok (UInt64.ofNat v.payload.length) ∧
      ∀ splitSize : ℤ, 1 ≤ splitSize → splitSize ≤ 6 →
        splitString grants ⟨v.payload, m⟩ splitSize =
          .ok (.datum ((windows splitSize.toNat cs).map element)) := by
  obtain ⟨result, rest, hrun, cs, hcs, rfl⟩ :=
    (generateRandString_yields garbage fuel flag hmin hmax).sound draws
  have hpayload := randVarlena_payload garbage cs
  refine ⟨cs, _, rest, hcs, hrun, hpayload, fun m ↦ ?_⟩
  obtain ⟨hlo, hhi, hchars⟩ := hcs
  have hpos : 0 < cs.length := by omega
  have hle : cs.length ≤ 32768 := by omega
  have hbytes := Utf8.length_encode_le cs
  rw [hpayload]
  refine ⟨utf8CharacterCount_encode (by omega) (by omega), ?_, fun splitSize h1 h6 ↦ ?_⟩
  · have hend : walk (Utf8.encode cs) cs.length = (Utf8.encode cs).length := by
      rw [walk_encode, Utf8.offset_length]
    have hsize := size_items (m := m) (steps_encode cs) utf8Len_pos (by rw [← walk, hend]; omega)
    rw [← walk, hend] at hsize
    exact hsize
  · have hcount : windowCount cs.length splitSize.toNat ≤ 32768 := by
      rw [windowCount]
      omega
    have hshare : windowCount cs.length splitSize.toNat * (4 + 6 * splitSize.toNat) ≤
        32768 * 40 := Nat.mul_le_mul hcount (by omega)
    refine splitString_eq h1 h6 ⟨List.ne_nil_of_length_pos hpos, fun hhead ↦ ?_, ?_, ?_⟩
    · exact zero_not_mem_flagChars flag (hchars _ (List.mem_of_head? hhead))
    · exact hshare.trans_lt (by decide)
    · refine hgrants _ ?_
      rw [windowsRequest, pointerSize]
      omega

/-- The defaults of the SQL function, with the limit of the server's allocator. -/
theorem generateRandString_split_default : ∃ cs v rest, IsRandText 8 32 0 cs ∧
    generateRandString (fun _ ↦ 0) (0 + 1) 8 32 0 (Stream'.const 0) = .ok (.datum v, rest) ∧
    v.payload = Utf8.encode cs ∧ ∀ m : List Byte,
    utf8CharacterCount (some (v.payload ++ m)) (UInt32.ofNat v.payload.length) =
      .ok cs.length ∧
    utf8MemorySize (some (v.payload ++ m)) (UInt32.ofNat v.payload.length) =
      .ok (UInt64.ofNat v.payload.length) ∧
    ∀ splitSize : ℤ, 1 ≤ splitSize → splitSize ≤ 6 →
      splitString (fun r ↦ decide (r ≤ 0x3fffffff)) ⟨v.payload, m⟩ splitSize =
        .ok (.datum ((windows splitSize.toNat cs).map element)) :=
  generateRandString_split (fun _ ↦ 0) 0 8 32 0 (by decide) (by decide)
    (fun r ↦ decide (r ≤ 0x3fffffff)) (fun _ h ↦ decide_eq_true h) (Stream'.const 0)

end PgKmcb.Text
