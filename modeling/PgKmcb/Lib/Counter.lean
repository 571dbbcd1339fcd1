import Mathlib.Data.List.Basic
import Mathlib.Data.Nat.ModEq
import Mathlib.Tactic.Common
import Mathlib.Tactic.Ring

/-!
# Counters made of bytes

A counter of a fixed number of bytes, the most significant one first.  `number` is what
it stands for and `digits` writes a number, modulo what the counter can hold; the two are
inverse to each other.  An increment that carries from the last byte to the first adds
one (`number_carry`, `number_succ` are its two branches).

A stream cipher in counter mode adds a keystream to the data (`mask`), element by
element, and so undoes itself.
-/

namespace PgKmcb.Lib.Counter

/-- The number that bytes stand for. -/
def number : List UInt8 → ℕ
  | [] => 0
  | b :: bs => b.toNat * 256 ^ bs.length + number bs

/-- The last `w` bytes of a number. -/
def digits : ℕ → ℕ → List UInt8
  | 0, _ => []
  | w + 1, n => UInt8.ofNat (n / 256 ^ w) :: digits w n

@[simp] theorem length_digits (w n : ℕ) : (digits w n).length = w := by
  induction w with
  | zero => rfl
  | succ w ih => rw [digits, List.length_cons, ih]

theorem number_lt (bs : List UInt8) : number bs < 256 ^ bs.length := by
  induction bs with
  | nil => exact Nat.one_pos
  | cons b bs ih =>
      have hb : b.toNat + 1 ≤ 256 := b.toNat_lt
      calc b.toNat * 256 ^ bs.length + number bs
          < b.toNat * 256 ^ bs.length + 256 ^ bs.length := Nat.add_lt_add_left ih _
        _ = (b.toNat + 1) * 256 ^ bs.length := (Nat.succ_mul _ _).symm
        _ ≤ 256 * 256 ^ bs.length := Nat.mul_le_mul_right _ hb
        _ = 256 ^ (b :: bs).length := by rw [List.length_cons, Nat.pow_succ, Nat.mul_comm]

theorem number_append (bs cs : List UInt8) :
    number (bs ++ cs) = number bs * 256 ^ cs.length + number cs := by
  induction bs with
  | nil => rw [List.nil_append, number, Nat.zero_mul, Nat.zero_add]
  | cons b bs ih =>
      rw [List.cons_append, number, ih, number, List.length_append, Nat.pow_add]
      ring

theorem number_concat (bs : List UInt8) (b : UInt8) :
    number (bs ++ [b]) = 256 * number bs + b.toNat := by
  rw [number_append, number, number, List.length_singleton, List.length_nil]
  ring

/-- What is written is read back, as far as it fits. -/
theorem number_digits (w n : ℕ) : number (digits w n) = n % 256 ^ w := by
  induction w with
  | zero => exact (Nat.mod_one n).symm
  | succ w ih =>
      have hbyte : (UInt8.ofNat (n / 256 ^ w)).toNat = n / 256 ^ w % 256 := UInt8.toNat_ofNat'
      rw [digits, number, ih, length_digits, hbyte, Nat.pow_succ, Nat.mod_mul, Nat.mul_comm,
        Nat.add_comm]

/-- Counters of one width that stand for the same number are the same. -/
theorem number_injective {bs cs : List UInt8} (hlen : bs.length = cs.length)
    (h : number bs = number cs) : bs = cs := by
  induction bs generalizing cs with
  | nil => exact (List.eq_nil_of_length_eq_zero hlen.symm).symm
  | cons b bs ih =>
      cases cs with
      | nil => cases hlen
      | cons c cs =>
          have hlen' : bs.length = cs.length := Nat.succ.inj hlen
          have hpos : 0 < 256 ^ cs.length := Nat.pow_pos (by decide)
          have hb := number_lt bs
          rw [number, number, hlen'] at h
          rw [hlen'] at hb
          have hhead : b.toNat = c.toNat := by
            have hdiv := congrArg (· / 256 ^ cs.length) h
            simpa only [Nat.mul_comm _ (256 ^ cs.length), Nat.mul_add_div hpos,
              Nat.div_eq_of_lt hb, Nat.div_eq_of_lt (number_lt cs), Nat.add_zero] using hdiv
          rw [hhead] at h
          rw [UInt8.toNat_inj.mp hhead, ih hlen' (Nat.add_left_cancel h)]

/-- A counter is what is written for its number. -/
theorem digits_number (bs : List UInt8) : digits bs.length (number bs) = bs :=
  number_injective (length_digits _ _)
    ((number_digits _ _).trans (Nat.mod_eq_of_lt (number_lt bs)))

theorem digits_mod (w n : ℕ) : digits w (n % 256 ^ w) = digits w n :=
  number_injective ((length_digits _ _).trans (length_digits _ _).symm) (by
    rw [number_digits, number_digits, Nat.mod_mod])

/-- What is written determines the number, as far as it fits. -/
theorem digits_eq_iff {w m n : ℕ} : digits w m = digits w n ↔ m ≡ n [MOD 256 ^ w] := by
  constructor
  · intro h
    have hnum := congrArg number h
    rwa [number_digits, number_digits] at hnum
  · intro h
    rw [← digits_mod w m, ← digits_mod w n]
    exact congrArg _ h

/-! ## Increments -/

/-- A last byte that can still grow. -/
theorem number_succ {b : UInt8} (hb : b ≠ 255) (bs : List UInt8) :
    number (bs ++ [b + 1]) = number (bs ++ [b]) + 1 := by
  have hlt : b.toNat + 1 < 256 := by
    have hne : b.toNat ≠ 255 := fun h ↦ hb (UInt8.toNat_inj.mp h)
    have := b.toNat_lt
    omega
  have hnat : (b + 1).toNat = b.toNat + 1 := by
    rw [UInt8.toNat_add]
    exact Nat.mod_eq_of_lt hlt
  rw [number_concat, number_concat, hnat, Nat.add_assoc]

/-- A last byte that is full: it starts again, and the bytes before it take the carry. -/
theorem number_carry {bs cs : List UInt8} (h : number cs = (number bs + 1) % 256 ^ bs.length) :
    number (cs ++ [0]) = (number (bs ++ [255]) + 1) % 256 ^ (bs ++ [255]).length := by
  have hfull : number (bs ++ [255]) + 1 = 256 * (number bs + 1) := by
    rw [number_concat]
    exact (Nat.mul_succ 256 (number bs)).symm
  rw [hfull, number_concat, h, List.length_append, List.length_singleton, Nat.pow_succ,
    Nat.mul_comm (256 ^ bs.length), Nat.mul_mod_mul_left]
  rfl

/-! ## Keystreams -/

variable {α β : Type} (add : α → β → α) (ks : ℕ → β)

/-- An element of the keystream is added to each element of the data. -/
def mask (xs : List α) : List α := xs.mapIdx fun i x ↦ add x (ks i)

@[simp] theorem length_mask (xs : List α) : (mask add ks xs).length = xs.length :=
  List.length_mapIdx

theorem mask_concat (xs : List α) (x : α) :
    mask add ks (xs ++ [x]) = mask add ks xs ++ [add x (ks xs.length)] := List.mapIdx_concat

/-- Data that follows other data takes the keystream from there on. -/
theorem mask_append (xs ys : List α) :
    mask add ks (xs ++ ys) = mask add ks xs ++ mask add (fun i ↦ ks (i + xs.length)) ys :=
  List.mapIdx_append

variable {add}

/-- The same keystream takes itself off again. -/
theorem mask_mask (hadd : ∀ x k, add (add x k) k = x) (xs : List α) :
    mask add ks (mask add ks xs) = xs := by
  refine List.ext_getElem ((length_mask add ks _).trans (length_mask add ks xs)) ?_
  intro i _ _
  simp only [mask, List.getElem_mapIdx, hadd]

end PgKmcb.Lib.Counter
