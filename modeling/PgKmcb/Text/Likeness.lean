import PgKmcb.Text.SameUtf8
import PgKmcb.Text.Simil

/-!
# The common part and the similarity (`string_same`, `string_simil`)

Two functions with a table each, one kept as a whole and one row by row, along different
strings.  They agree: the similarity is the length of the common part by that of the longer
string, where the quotient is read as exact (`stringSame_stringSimil`).

Which of several longest common subsequences `string_same` returns depends on the order of
its arguments; how long it is does not, and the common part of a string and of its common
part with another string is that part again, unless it is empty.  What both strings begin and
end with is never given up for something else (`stringSame_affixes`).
-/

namespace PgKmcb.Text

open PgKmcb.Lib

variable {garbage : ℕ → Byte} {a b w : List Byte} {fuel : ℕ}

/-- A string and a subsequence of it, in both orders. -/
theorem stringSame_sublist (hw : w ≠ []) (h0 : 0 ∉ a) (hwa : w.Sublist a)
    (hfuel : a.length + w.length ≤ fuel) (m m' : List Byte) :
    stringSame garbage fuel ⟨w, m⟩ ⟨a, m'⟩ = .ok (.datum (some w)) ∧
      stringSame garbage fuel ⟨a, m'⟩ ⟨w, m⟩ = .ok (.datum (some w)) := by
  have ha : a ≠ [] := by
    rintro rfl
    exact hw (List.sublist_nil.mp hwa)
  have h0w : 0 ∉ w := fun h ↦ h0 (hwa.subset h)
  have hfuel' : w.length + a.length ≤ fuel := Nat.add_comm _ _ ▸ hfuel
  obtain ⟨v, hrun, hv⟩ := stringSame_isLcs garbage hw ha h0w h0 hfuel' m m'
  obtain ⟨v', hrun', hv'⟩ := stringSame_isLcs garbage ha hw h0 h0w hfuel m' m
  rw [hrun, hrun', hv.eq_of_sublist hwa, hv'.comm.eq_of_sublist hwa]
  exact ⟨rfl, rfl⟩

/-- The similarity, by the length of a longest common subsequence. -/
theorem stringSimil_of_isLcs (hw : IsLcs w a b) (ha : a ≠ []) (hb : b ≠ []) (m m' : List Byte) :
    stringSimil ⟨a, m⟩ ⟨b, m'⟩ =
      .ok (.datum ((w.length : ℚ) / (max a.length b.length : ℕ))) := by
  have hsimil := simil_eq m m' ha hb
  rw [lcsDist, sub_sub_cancel, ← hw.length_eq] at hsimil
  simp only [stringSimil, TextImage.vardata, TextImage.varsizeExhdr, hsimil, Run.ok_bind]
  rfl

/-- The common part, the similarity, and the common part with either string again if it is
not empty. -/
theorem stringSame_stringSimil (garbage : ℕ → Byte) (a b : List Byte) (ha : a ≠ [])
    (hb : b ≠ []) (h0a : 0 ∉ a) (h0b : 0 ∉ b) (fuel : ℕ) (hfuel : a.length + b.length ≤ fuel)
    (m m' : List Byte) : ∃ w w',
    stringSame garbage fuel ⟨a, m⟩ ⟨b, m'⟩ = .ok (.datum (some w)) ∧
    stringSame garbage fuel ⟨b, m'⟩ ⟨a, m⟩ = .ok (.datum (some w')) ∧
    w'.length = w.length ∧
    stringSimil ⟨a, m⟩ ⟨b, m'⟩ =
      .ok (.datum ((w.length : ℚ) / (max a.length b.length : ℕ))) ∧
    (w ≠ [] → ∀ c ∈ [a, b], ∀ n n' : List Byte,
      stringSame garbage fuel ⟨w, n⟩ ⟨c, n'⟩ = .ok (.datum (some w)) ∧
      stringSame garbage fuel ⟨c, n'⟩ ⟨w, n⟩ = .ok (.datum (some w))) := by
  obtain ⟨w, hrun, hw⟩ := stringSame_isLcs garbage ha hb h0a h0b hfuel m m'
  have hfuel' : b.length + a.length ≤ fuel := Nat.add_comm _ _ ▸ hfuel
  obtain ⟨w', hrun', hw'⟩ := stringSame_isLcs garbage hb ha h0b h0a hfuel' m' m
  refine ⟨w, w', hrun, hrun', ?_, stringSimil_of_isLcs hw ha hb m m', fun hne ↦ ?_⟩
  · rw [hw.length_eq, hw'.length_eq, lcsLength_comm]
  · have hlea := hw.1.1.length_le
    have hleb := hw.1.2.length_le
    rw [List.forall_mem_cons, List.forall_mem_singleton]
    exact ⟨stringSame_sublist hne h0a hw.1.1 (by omega),
      stringSame_sublist hne h0b hw.1.2 (by omega)⟩

/-- The texts `ab` and `ba`: their common part is `b`, and the other way round it is `a`. -/
theorem stringSame_stringSimil_ab : ∃ w w',
    stringSame (fun _ ↦ 0) 4 ⟨[0x61, 0x62], []⟩ ⟨[0x62, 0x61], []⟩ = .ok (.datum (some w)) ∧
    stringSame (fun _ ↦ 0) 4 ⟨[0x62, 0x61], []⟩ ⟨[0x61, 0x62], []⟩ = .ok (.datum (some w')) ∧
    w'.length = w.length ∧
    stringSimil ⟨[0x61, 0x62], []⟩ ⟨[0x62, 0x61], []⟩ =
      .ok (.datum ((w.length : ℚ) / (max 2 2 : ℕ))) ∧
    (w ≠ [] → ∀ c ∈ [[0x61, 0x62], [0x62, 0x61]], ∀ n n' : List Byte,
      stringSame (fun _ ↦ 0) 4 ⟨w, n⟩ ⟨c, n'⟩ = .ok (.datum (some w)) ∧
      stringSame (fun _ ↦ 0) 4 ⟨c, n'⟩ ⟨w, n⟩ = .ok (.datum (some w))) :=
  stringSame_stringSimil (fun _ ↦ 0) [0x61, 0x62] [0x62, 0x61] (by decide) (by decide)
    (by decide) (by decide) 4 (by decide) [] []

/-! ## Common beginnings and ends -/

/-- What two strings begin with and end with is kept as a whole, and the similarity counts
it in full; between them stands a common part of the rest, as long as `string_same` would
find it there if neither rest is empty. -/
theorem stringSame_affixes (garbage : ℕ → Byte) (p a b s : List Byte) (ha : p ++ a ++ s ≠ [])
    (hb : p ++ b ++ s ≠ []) (h0a : 0 ∉ p ++ a ++ s) (h0b : 0 ∉ p ++ b ++ s) (fuel : ℕ)
    (hfuel : (p ++ a ++ s).length + (p ++ b ++ s).length ≤ fuel) (m m' : List Byte) : ∃ w,
    stringSame garbage fuel ⟨p ++ a ++ s, m⟩ ⟨p ++ b ++ s, m'⟩ =
      .ok (.datum (some (p ++ w ++ s))) ∧
    w.Sublist a ∧ w.Sublist b ∧
    (a ≠ [] → b ≠ [] → ∀ n n' : List Byte, ∃ w', w'.length = w.length ∧
      stringSame garbage fuel ⟨a, n⟩ ⟨b, n'⟩ = .ok (.datum (some w'))) ∧
    stringSimil ⟨p ++ a ++ s, m⟩ ⟨p ++ b ++ s, m'⟩ =
      .ok (.datum (((p.length + w.length + s.length : ℕ) : ℚ) /
        (p.length + max a.length b.length + s.length : ℕ))) := by
  obtain ⟨v, hrun, hv⟩ := stringSame_isLcs garbage ha hb h0a h0b hfuel m m'
  have hsimil := stringSimil_of_isLcs hv ha hb m m'
  obtain ⟨u, rfl, hu⟩ := hv.exists_append
  obtain ⟨w, rfl, hw⟩ := hu.exists_append_left
  simp only [List.length_append] at hfuel hsimil
  simp only [List.mem_append, not_or] at h0a h0b
  refine ⟨w, hrun, hw.1.1, hw.1.2, fun ha' hb' n n' ↦ ?_, ?_⟩
  · obtain ⟨w', hrun', hw'⟩ := stringSame_isLcs garbage ha' hb' h0a.1.2 h0b.1.2
      (show a.length + b.length ≤ fuel by omega) n n'
    exact ⟨w', hw'.length_eq.trans hw.length_eq.symm, hrun'⟩
  · rw [hsimil, Nat.add_max_add_right, Nat.add_max_add_left]

/-- The texts `abd` and `acd`. -/
theorem stringSame_affixes_abd : ∃ w,
    stringSame (fun _ ↦ 0) 6 ⟨[0x61] ++ [0x62] ++ [0x64], []⟩ ⟨[0x61] ++ [0x63] ++ [0x64], []⟩ =
      .ok (.datum (some ([0x61] ++ w ++ [0x64]))) ∧
    w.Sublist [0x62] ∧ w.Sublist [0x63] ∧
    (([0x62] : List Byte) ≠ [] → ([0x63] : List Byte) ≠ [] → ∀ n n' : List Byte,
      ∃ w', w'.length = w.length ∧
        stringSame (fun _ ↦ 0) 6 ⟨[0x62], n⟩ ⟨[0x63], n'⟩ = .ok (.datum (some w'))) ∧
    stringSimil ⟨[0x61] ++ [0x62] ++ [0x64], []⟩ ⟨[0x61] ++ [0x63] ++ [0x64], []⟩ =
      .ok (.datum (((1 + w.length + 1 : ℕ) : ℚ) / (1 + max 1 1 + 1 : ℕ))) :=
  stringSame_affixes (fun _ ↦ 0) [0x61] [0x62] [0x63] [0x64] (by decide) (by decide)
    (by decide) (by decide) 6 (by decide) [] []

end PgKmcb.Text
