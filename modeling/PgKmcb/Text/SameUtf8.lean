import PgKmcb.Text.Same
import PgKmcb.Lib.Utf8

/-!
# `string_same` and character boundaries

`same` aligns bytes, not characters.  Two different characters that share a byte can
therefore leave that byte alone in the result, which is not valid UTF-8.  As long as
the different characters of the two texts share no byte, a longest common subsequence
of the bytes is one of the characters, because it does not cut blocks
(`PgKmcb.Lib.IsLcs.exists_blocks`).
-/

namespace PgKmcb.Text

open PgKmcb.Lib

/-- `string_same` on texts without zero bytes: the strings it compares are the
payloads. -/
theorem stringSame_isLcs (garbage : ℕ → Byte) {a b : List Byte} (ha : a ≠ []) (hb : b ≠ [])
    (h0a : 0 ∉ a) (h0b : 0 ∉ b) {fuel : ℕ} (hfuel : a.length + b.length ≤ fuel)
    (m m' : List Byte) : ∃ w, stringSame garbage fuel ⟨a, m⟩ ⟨b, m'⟩ = .ok (.datum (some w)) ∧
      IsLcs w a b := by
  obtain ⟨w, hsame, hw⟩ := same_isLcs garbage [0] [0] ha hb h0a hfuel
  have hlena : (strlen (a ++ [0]) : Call ℕ) = .ok a.length := strlen_append_zero h0a []
  have hlenb : (strlen (b ++ [0]) : Call ℕ) = .ok b.length := strlen_append_zero h0b []
  refine ⟨w, ?_, hw⟩
  simp only [stringSame, hlena, hlenb, Run.ok_bind, hsame]
  rfl

/-- Different characters of the two texts share no byte. -/
def CharsApart (as bs : List Char) : Prop :=
  ∀ c ∈ as, ∀ d ∈ bs, c ≠ d → (Utf8.encodeChar c).Disjoint (Utf8.encodeChar d)

/-- A longest common subsequence of such texts consists of complete characters. -/
theorem CharsApart.valid {as bs : List Char} (h : CharsApart as bs) {w : List Byte}
    (hw : IsLcs w (Utf8.encode as) (Utf8.encode bs)) : Utf8.Valid w := by
  have hblocks : BlocksApart (as.map Utf8.encodeChar) (bs.map Utf8.encodeChar) := by
    intro c' hc' d' hd'
    obtain ⟨c, hc, rfl⟩ := List.mem_map.mp hc'
    obtain ⟨d, hd, rfl⟩ := List.mem_map.mp hd'
    by_cases hcd : c = d
    · exact .inl (congrArg _ hcd)
    · exact .inr (h c hc d hd hcd)
  obtain ⟨cs, hcs, rfl⟩ := hw.exists_blocks hblocks
  obtain ⟨cs', -, rfl⟩ := List.sublist_map_iff.mp hcs.1
  exact Utf8.valid_encode cs'

/-- Two single characters of which a longest common subsequence is valid are equal or
share no byte. -/
theorem disjoint_of_valid {c d : Char} (hcd : c ≠ d) {w : List Byte}
    (hw : IsLcs w (Utf8.encodeChar c) (Utf8.encodeChar d)) (hvalid : Utf8.Valid w) :
    (Utf8.encodeChar c).Disjoint (Utf8.encodeChar d) := by
  intro z hzc hzd
  have hz : IsCommon [z] (Utf8.encodeChar c) (Utf8.encodeChar d) :=
    ⟨List.singleton_sublist.mpr hzc, List.singleton_sublist.mpr hzd⟩
  have hne : w ≠ [] := List.ne_nil_of_length_pos (hw.2 _ hz)
  have hwc := hvalid.eq_of_sublist_encodeChar hne hw.1.1
  have hwd := hvalid.eq_of_sublist_encodeChar hne hw.1.2
  exact hcd (Utf8.encodeChar_injective (hwc.symm.trans hwd))

/-- `string_same` keeps to character boundaries on all texts over two sets of
characters exactly when no character of the one shares a byte with a different
character of the other. -/
theorem stringSame_valid_iff (garbage : ℕ → Byte) (A B : Set Char) (hA : '\x00' ∉ A)
    (hB : '\x00' ∉ B) :
    (∀ as bs : List Char, as ≠ [] → bs ≠ [] → (∀ c ∈ as, c ∈ A) → (∀ d ∈ bs, d ∈ B) →
      ∀ (m m' : List Byte) (fuel : ℕ),
        (Utf8.encode as).length + (Utf8.encode bs).length ≤ fuel →
        ∃ w, stringSame garbage fuel ⟨Utf8.encode as, m⟩ ⟨Utf8.encode bs, m'⟩ =
          .ok (.datum (some w)) ∧ Utf8.Valid w) ↔
    ∀ c ∈ A, ∀ d ∈ B, c ≠ d → (Utf8.encodeChar c).Disjoint (Utf8.encodeChar d) := by
  have hrun : ∀ as bs : List Char, as ≠ [] → bs ≠ [] → (∀ c ∈ as, c ∈ A) →
      (∀ d ∈ bs, d ∈ B) → ∀ (m m' : List Byte) (fuel : ℕ),
      (Utf8.encode as).length + (Utf8.encode bs).length ≤ fuel →
      ∃ w, stringSame garbage fuel ⟨Utf8.encode as, m⟩ ⟨Utf8.encode bs, m'⟩ =
        .ok (.datum (some w)) ∧ IsLcs w (Utf8.encode as) (Utf8.encode bs) := by
    intro as bs has hbs hasA hbsB m m' fuel hfuel
    exact stringSame_isLcs garbage (Utf8.encode_ne_nil has) (Utf8.encode_ne_nil hbs)
      (Utf8.zero_not_mem_encode fun h0 ↦ hA (hasA _ h0))
      (Utf8.zero_not_mem_encode fun h0 ↦ hB (hbsB _ h0)) hfuel m m'
  constructor
  · intro h c hc d hd hcd
    have hcA : ∀ c' ∈ [c], c' ∈ A := by simpa using hc
    have hdB : ∀ d' ∈ [d], d' ∈ B := by simpa using hd
    obtain ⟨w, hw, hvalid⟩ := h [c] [d] (by simp) (by simp) hcA hdB [] [] _ le_rfl
    obtain ⟨w', hw', hlcs⟩ := hrun [c] [d] (by simp) (by simp) hcA hdB [] [] _ le_rfl
    rw [hw] at hw'
    obtain rfl : w = w' := Option.some.inj (SqlResult.datum.inj (Except.ok.inj hw'))
    exact disjoint_of_valid hcd (by simpa using hlcs) hvalid
  · intro h as bs has hbs hasA hbsB m m' fuel hfuel
    obtain ⟨w, hw, hlcs⟩ := hrun as bs has hbs hasA hbsB m m' fuel hfuel
    exact ⟨w, hw, CharsApart.valid (fun c hc d hd ↦ h c (hasA c hc) d (hbsB d hd)) hlcs⟩

/-- Texts over the letter `a` and over the letters `a` and `é`. -/
theorem stringSame_valid_letters :
    ∃ w, stringSame (fun _ ↦ 0) 4 ⟨Utf8.encode ['a'], []⟩ ⟨Utf8.encode ['é', 'a'], []⟩ =
      .ok (.datum (some w)) ∧ Utf8.Valid w := by
  refine (stringSame_valid_iff (fun _ ↦ 0) {'a'} {'é', 'a'} (by decide) (by decide)).mpr ?_
    ['a'] ['é', 'a'] (by decide) (by decide) (by simp) (by simp) [] [] 4 (by decide)
  rintro c rfl d (rfl | rfl) hcd
  · exact List.disjoint_left.mpr (by decide +kernel)
  · exact absurd rfl hcd

/-- The characters `é` and `ã` share their first byte, and `string_same` returns it:
`C3` alone, half a character. -/
theorem stringSame_splits_character :
    ¬ ∀ as bs : List Char, as ≠ [] → bs ≠ [] → '\x00' ∉ as → '\x00' ∉ bs →
      ∀ w, stringSame (fun _ ↦ 0) 4 ⟨Utf8.encode as, []⟩ ⟨Utf8.encode bs, []⟩ =
        .ok (.datum (some w)) → Utf8.Valid w := by
  intro h
  have hrun : stringSame (fun _ ↦ 0) 4 ⟨Utf8.encode ['é'], []⟩ ⟨Utf8.encode ['ã'], []⟩ =
      .ok (.datum (some [0xC3])) := by decide +kernel
  have hvalid := h ['é'] ['ã'] (by decide) (by decide) (by decide) (by decide) _ hrun
  exact absurd hvalid.lead.2 (by decide)

end PgKmcb.Text
