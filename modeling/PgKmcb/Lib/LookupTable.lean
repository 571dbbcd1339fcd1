import Mathlib.Data.List.Basic
import Mathlib.Tactic.Common

/-!
# Lookup tables

A table of constants is best checked from front to back, where one walk passes all of its
entries; an access to a single entry walks up to it from the beginning.

That one table undoes another can only be checked with accesses in any order.  A table of
bytes is therefore packed into one number, and an entry of it is found by a shift.
-/

universe u

namespace PgKmcb.Lib.LookupTable

variable {α : Type u} {n : ℕ}

/-- A table that lists the values of a function. -/
theorem get_of_toList {t : Vector α n} {f : ℕ → α} (h : t.toList = (List.range n).map f)
    (i : Fin n) : t.get i = f i := by
  have hi : i.val < t.toList.length := by
    rw [Vector.length_toList]
    exact i.isLt
  have hget : t.toList[i.val] = f i := by
    simp only [h, List.getElem_map, List.getElem_range]
  rw [← hget, Vector.getElem_toList]
  rfl

/-- What one walk has found out about every entry and its place. -/
theorem get_of_zipIdx {t : Vector α n} {P : ℕ → α → Prop}
    (h : ∀ p ∈ t.toList.zipIdx, P p.2 p.1) (i : Fin n) : P i (t.get i) := by
  have hi : i.val < t.toList.length := by
    rw [Vector.length_toList]
    exact i.isLt
  have hget : t.toList[i.val] = t.get i := Vector.getElem_toList hi
  have hmem : (t.get i, i.val) ∈ t.toList.zipIdx := by
    rw [← hget]
    exact List.mem_iff_getElem.mpr ⟨i, by simp, by simp⟩
  exact h _ hmem

/-- A list of bytes as one number, the first byte at its low end. -/
def pack : List UInt8 → ℕ
  | [] => 0
  | b :: bs => 256 * pack bs + b.toNat

theorem pack_shiftRight (bs : List UInt8) (i : ℕ) (hi : i < bs.length) :
    pack bs >>> (8 * i) % 256 = bs[i].toNat := by
  induction bs generalizing i with
  | nil => exact absurd hi (Nat.not_lt_zero i)
  | cons b bs ih =>
      cases i with
      | zero =>
          rw [pack, Nat.mul_zero, Nat.shiftRight_zero, Nat.mul_add_mod, List.getElem_cons_zero]
          exact Nat.mod_eq_of_lt b.toNat_lt
      | succ i =>
          have hdiv : (256 * pack bs + b.toNat) / 256 = pack bs := by
            rw [Nat.mul_add_div (by decide), Nat.div_eq_of_lt b.toNat_lt, Nat.add_zero]
          rw [pack, Nat.mul_add, Nat.mul_one, Nat.add_comm (8 * i), Nat.shiftRight_add,
            Nat.shiftRight_eq_div_pow _ 8, hdiv, ih i (Nat.lt_of_succ_lt_succ hi),
            List.getElem_cons_succ]

/-- A table of bytes that undoes another one. -/
theorem get_get_of_pack {s r : Vector UInt8 256}
    (h : s.toList.map (fun b ↦ pack r.toList >>> (8 * b.toNat) % 256) = List.range 256)
    (i : Fin 256) : r.get (s.get i).toFin = UInt8.ofFin i := by
  have hs : i.val < s.toList.length := by
    rw [Vector.length_toList]
    exact i.isLt
  have hr : (s.get i).toNat < r.toList.length := by
    rw [Vector.length_toList]
    exact (s.get i).toNat_lt
  have hget : s.toList[i.val] = s.get i := Vector.getElem_toList hs
  apply UInt8.toNat_inj.mp
  calc (r.get (s.get i).toFin).toNat
      = r.toList[(s.get i).toNat].toNat := by rw [Vector.getElem_toList]; rfl
    _ = pack r.toList >>> (8 * (s.get i).toNat) % 256 := (pack_shiftRight _ _ hr).symm
    _ = i := by
        have hi := congrArg (·[i.val]?) h
        simpa [List.getElem?_eq_getElem hs, hget] using hi
    _ = (UInt8.ofFin i).toNat := rfl

end PgKmcb.Lib.LookupTable
