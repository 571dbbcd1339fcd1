import Mathlib.Algebra.Order.Group.Nat
import Mathlib.Tactic.Common

/-!
# Base64

Three bytes are written as four characters of an alphabet of 64, and the last one or
two bytes with padding.  `decode_encode` is the round trip, `length_decode_le` the
length a caller reserves memory by.
-/

namespace PgKmcb.Lib.Base64

/-- The character of a number below 64: `A` to `Z`, `a` to `z`, `0` to `9`, `+`, `/`. -/
def charOf (n : ℕ) : UInt8 :=
  if n < 26 then UInt8.ofNat (65 + n)
  else if n < 52 then UInt8.ofNat (97 + (n - 26))
  else if n < 62 then UInt8.ofNat (48 + (n - 52))
  else if n = 62 then 43
  else 47

/-- The number of a character. -/
def sextetOf (b : UInt8) : Option ℕ :=
  if 65 ≤ b.toNat ∧ b.toNat ≤ 90 then some (b.toNat - 65)
  else if 97 ≤ b.toNat ∧ b.toNat ≤ 122 then some (b.toNat - 97 + 26)
  else if 48 ≤ b.toNat ∧ b.toNat ≤ 57 then some (b.toNat - 48 + 52)
  else if b.toNat = 43 then some 62
  else if b.toNat = 47 then some 63
  else none

/-- The padding character `=`. -/
def pad : UInt8 := 61

/-- Three bytes are four numbers of six bits. -/
def encode : List UInt8 → List UInt8
  | [] => []
  | [a] => [charOf (a.toNat / 4), charOf (a.toNat % 4 * 16), pad, pad]
  | [a, b] =>
      [charOf (a.toNat / 4), charOf (a.toNat % 4 * 16 + b.toNat / 16),
        charOf (b.toNat % 16 * 4), pad]
  | a :: b :: c :: bs =>
      charOf (a.toNat / 4) :: charOf (a.toNat % 4 * 16 + b.toNat / 16) ::
        charOf (b.toNat % 16 * 4 + c.toNat / 64) :: charOf (c.toNat % 64) :: encode bs

/-- The bytes of a text, unless one of its characters is not in the alphabet. -/
def decode : List UInt8 → Option (List UInt8)
  | [] => some []
  | w :: x :: y :: z :: cs =>
      if y = pad ∧ z = pad ∧ cs = [] then do
        let p ← sextetOf w
        let q ← sextetOf x
        return [UInt8.ofNat (p * 4 + q / 16)]
      else if z = pad ∧ cs = [] then do
        let p ← sextetOf w
        let q ← sextetOf x
        let r ← sextetOf y
        return [UInt8.ofNat (p * 4 + q / 16), UInt8.ofNat (q % 16 * 16 + r / 4)]
      else do
        let p ← sextetOf w
        let q ← sextetOf x
        let r ← sextetOf y
        let s ← sextetOf z
        let bs ← decode cs
        return UInt8.ofNat (p * 4 + q / 16) :: UInt8.ofNat (q % 16 * 16 + r / 4) ::
          UInt8.ofNat (r % 4 * 64 + s) :: bs
  | _ => none

theorem sextetOf_charOf : ∀ n < 64, sextetOf (charOf n) = some n := by decide

theorem charOf_ne_pad : ∀ n < 64, charOf n ≠ pad := by decide

theorem ofNat_of_toNat {a : UInt8} {n : ℕ} (h : n = a.toNat) : UInt8.ofNat n = a := by
  rw [h, UInt8.ofNat_toNat]

/-- What has been encoded is decoded. -/
theorem decode_encode (bs : List UInt8) : decode (encode bs) = some bs := by
  induction bs using encode.induct with
  | case1 => rfl
  | case2 a =>
      have ha := a.toNat_lt
      rw [encode, decode, if_pos ⟨rfl, rfl, rfl⟩, sextetOf_charOf _ (by omega),
        sextetOf_charOf _ (by omega)]
      show some [UInt8.ofNat _] = _
      rw [ofNat_of_toNat (a := a) (by omega)]
  | case3 a b =>
      have ha := a.toNat_lt
      have hb := b.toNat_lt
      have hpad : ¬ (charOf (b.toNat % 16 * 4) = pad ∧ pad = pad ∧ ([] : List UInt8) = []) :=
        fun h ↦ charOf_ne_pad _ (by omega) h.1
      rw [encode, decode, if_neg hpad, if_pos ⟨rfl, rfl⟩, sextetOf_charOf _ (by omega),
        sextetOf_charOf _ (by omega), sextetOf_charOf _ (by omega)]
      show some [UInt8.ofNat _, UInt8.ofNat _] = _
      rw [ofNat_of_toNat (a := a) (by omega), ofNat_of_toNat (a := b) (by omega)]
  | case4 a b c bs ih =>
      have ha := a.toNat_lt
      have hb := b.toNat_lt
      have hc := c.toNat_lt
      have hpad : charOf (c.toNat % 64) ≠ pad := charOf_ne_pad _ (by omega)
      rw [encode, decode, if_neg fun h ↦ hpad h.2.1, if_neg fun h ↦ hpad h.1,
        sextetOf_charOf _ (by omega), sextetOf_charOf _ (by omega),
        sextetOf_charOf _ (by omega), sextetOf_charOf _ (by omega), ih]
      show some (UInt8.ofNat _ :: UInt8.ofNat _ :: UInt8.ofNat _ :: bs) = _
      rw [ofNat_of_toNat (a := a) (by omega), ofNat_of_toNat (a := b) (by omega),
        ofNat_of_toNat (a := c) (by omega)]

/-- No more than three bytes for each four characters. -/
theorem length_decode_le {cs bs : List UInt8} (h : decode cs = some bs) :
    4 * bs.length ≤ 3 * cs.length := by
  induction cs using decode.induct generalizing bs with
  | case1 =>
      cases h
      exact Nat.zero_le _
  | case2 w x y z cs htwo =>
      rw [decode, if_pos htwo] at h
      obtain ⟨p, -, h⟩ := Option.bind_eq_some_iff.mp h
      obtain ⟨q, -, h⟩ := Option.bind_eq_some_iff.mp h
      cases h
      simp only [List.length_cons, List.length_nil]
      omega
  | case3 w x y z cs htwo hone =>
      rw [decode, if_neg htwo, if_pos hone] at h
      obtain ⟨p, -, h⟩ := Option.bind_eq_some_iff.mp h
      obtain ⟨q, -, h⟩ := Option.bind_eq_some_iff.mp h
      obtain ⟨r, -, h⟩ := Option.bind_eq_some_iff.mp h
      cases h
      simp only [List.length_cons, List.length_nil]
      omega
  | case4 w x y z cs htwo hone ih =>
      rw [decode, if_neg htwo, if_neg hone] at h
      obtain ⟨p, -, h⟩ := Option.bind_eq_some_iff.mp h
      obtain ⟨q, -, h⟩ := Option.bind_eq_some_iff.mp h
      obtain ⟨r, -, h⟩ := Option.bind_eq_some_iff.mp h
      obtain ⟨s, -, h⟩ := Option.bind_eq_some_iff.mp h
      obtain ⟨bs', hbs', h⟩ := Option.bind_eq_some_iff.mp h
      cases h
      have hle := ih hbs'
      simp only [List.length_cons]
      omega
  | case5 cs hnil hfour =>
      rw [decode.eq_3 cs hnil hfour] at h
      cases h

end PgKmcb.Lib.Base64
