import PgKmcb.Postgres
import PgKmcb.Lib.LookupTable
import PgKmcb.Lib.Utf8

/-!
# Character sizes (`se_std.c`)

`utf8LookForTable` is the table of `se_std.c` as it stands there, one entry per
byte value.  `utf8Len_of_leadSize` says what it is good for: at the first byte of
a character it is the size of that character.
-/

namespace PgKmcb.Text

open PgKmcb.Lib

set_option maxRecDepth 4000 in
/-- `utf8_look_for_table`. -/
def utf8LookForTable : Vector ℕ 256 := #v[
  1, 1, 1, 1, 1, 1, 1, 1, 1, 1, 1, 1, 1, 1, 1, 1,
  1, 1, 1, 1, 1, 1, 1, 1, 1, 1, 1, 1, 1, 1, 1, 1,
  1, 1, 1, 1, 1, 1, 1, 1, 1, 1, 1, 1, 1, 1, 1, 1,
  1, 1, 1, 1, 1, 1, 1, 1, 1, 1, 1, 1, 1, 1, 1, 1,
  1, 1, 1, 1, 1, 1, 1, 1, 1, 1, 1, 1, 1, 1, 1, 1,
  1, 1, 1, 1, 1, 1, 1, 1, 1, 1, 1, 1, 1, 1, 1, 1,
  1, 1, 1, 1, 1, 1, 1, 1, 1, 1, 1, 1, 1, 1, 1, 1,
  1, 1, 1, 1, 1, 1, 1, 1, 1, 1, 1, 1, 1, 1, 1, 1,
  1, 1, 1, 1, 1, 1, 1, 1, 1, 1, 1, 1, 1, 1, 1, 1,
  1, 1, 1, 1, 1, 1, 1, 1, 1, 1, 1, 1, 1, 1, 1, 1,
  1, 1, 1, 1, 1, 1, 1, 1, 1, 1, 1, 1, 1, 1, 1, 1,
  1, 1, 1, 1, 1, 1, 1, 1, 1, 1, 1, 1, 1, 1, 1, 1,
  2, 2, 2, 2, 2, 2, 2, 2, 2, 2, 2, 2, 2, 2, 2, 2,
  2, 2, 2, 2, 2, 2, 2, 2, 2, 2, 2, 2, 2, 2, 2, 2,
  3, 3, 3, 3, 3, 3, 3, 3, 3, 3, 3, 3, 3, 3, 3, 3,
  4, 4, 4, 4, 4, 4, 4, 4, 5, 5, 5, 5, 6, 6, 1, 1]

/-- `UTF8LEN`. -/
def utf8Len (b : Byte) : ℕ := utf8LookForTable.get b.toFin

/-- The table by ranges of byte values. -/
theorem utf8LookForTable_get (i : Fin 256) : utf8LookForTable.get i =
    if i.val < 0xC0 then 1 else if i.val < 0xE0 then 2 else if i.val < 0xF0 then 3
    else if i.val < 0xF8 then 4 else if i.val < 0xFC then 5 else if i.val < 0xFE then 6
    else 1 := by
  have htable : utf8LookForTable.toList = (List.range 256).map fun n ↦
      if n < 0xC0 then 1 else if n < 0xE0 then 2 else if n < 0xF0 then 3
      else if n < 0xF8 then 4 else if n < 0xFC then 5 else if n < 0xFE then 6
      else 1 := by decide +kernel
  exact LookupTable.get_of_toList htable i

theorem utf8Len_eq (b : Byte) : utf8Len b =
    if b.toNat < 0xC0 then 1 else if b.toNat < 0xE0 then 2 else if b.toNat < 0xF0 then 3
    else if b.toNat < 0xF8 then 4 else if b.toNat < 0xFC then 5 else if b.toNat < 0xFE then 6
    else 1 := utf8LookForTable_get b.toFin

theorem utf8Len_pos (b : Byte) : 0 < utf8Len b := by
  rw [utf8Len_eq]
  split_ifs <;> decide

/-- `UTF8_MAX_SIZE` is the largest entry. -/
theorem utf8Len_le (b : Byte) : utf8Len b ≤ 6 := by
  rw [utf8Len_eq]
  split_ifs <;> decide

/-- At a first byte the table agrees with the size that byte announces. -/
theorem utf8Len_of_leadSize {b : Byte} (h : 0 < Utf8.leadSize b) (hb : b.toNat < 0xF8) :
    utf8Len b = Utf8.leadSize b := by
  rw [utf8Len_eq]
  unfold Utf8.leadSize at h ⊢
  grind

/-- The first byte of a character, by which the table finds its size. -/
theorem exists_lead (c : Char) : ∃ b rest, Utf8.encodeChar c = b :: rest ∧
    utf8Len b = c.utf8Size := by
  obtain ⟨b, rest, hc, hsize, hb, -⟩ := Utf8.lead_encodeChar c
  refine ⟨b, rest, hc, ?_⟩
  rw [utf8Len_of_leadSize (hsize ▸ c.utf8Size_pos) hb, hsize]

end PgKmcb.Text
