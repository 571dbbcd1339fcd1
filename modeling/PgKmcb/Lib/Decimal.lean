import Mathlib.Data.Nat.Digits.Lemmas
import Mathlib.Data.Rat.Floor
import Mathlib.Algebra.Order.Ring.Abs
import Mathlib.Tactic.Positivity
import Mathlib.Tactic.Linarith
import Mathlib.Tactic.FieldSimp

/-!
# Decimals with a fixed number of places

What `printf` does with a conversion `%.pf`: the number is rounded to `p` places, a
tie to the even digit, and its digits are written with a point before the last `p` of
them.  `FixedDecimal.abs_value_round_sub_le` bounds what the rounding changes, and
`FixedDecimal.read_print_append` reads a printed number back, whatever text without
digits follows it; two texts that are equal therefore show the same number.
-/

namespace PgKmcb.Lib

/-! ## Rounding -/

/-- The nearest integer, and of two nearest ones the even one. -/
def roundTiesEven (x : ℚ) : ℤ :=
  if Int.fract x < 1 / 2 then ⌊x⌋
  else if Int.fract x = 1 / 2 ∧ Even ⌊x⌋ then ⌊x⌋
  else ⌊x⌋ + 1

theorem abs_roundTiesEven_sub_le (x : ℚ) : |(roundTiesEven x : ℚ) - x| ≤ 1 / 2 := by
  have hx := Int.floor_add_fract x
  have hlt := Int.fract_lt_one x
  have hnonneg := Int.fract_nonneg x
  rw [roundTiesEven, abs_le]
  split_ifs with hlow htie
  · constructor <;> linarith
  · obtain ⟨htie, -⟩ := htie
    constructor <;> linarith
  · push_cast
    constructor <;> linarith

@[simp] theorem roundTiesEven_intCast (n : ℤ) : roundTiesEven n = n := by
  simp [roundTiesEven]

theorem roundTiesEven_nonneg {x : ℚ} (h : 0 ≤ x) : 0 ≤ roundTiesEven x := by
  have hfloor : 0 ≤ ⌊x⌋ := Int.floor_nonneg.mpr h
  rw [roundTiesEven]
  split_ifs <;> omega

/-! ## Decimals -/

/-- The decimal `± scaled / 10 ^ places`. -/
structure FixedDecimal where
  negative : Bool
  scaled : ℕ
  places : ℕ
deriving DecidableEq, Repr

namespace FixedDecimal

/-- The number that a decimal stands for. -/
def value (d : FixedDecimal) : ℚ :=
  (if d.negative then -1 else 1) * (d.scaled / 10 ^ d.places)

/-- The decimal with `p` places that is nearest to a number. -/
def round (x : ℚ) (p : ℕ) : FixedDecimal where
  negative := decide (x < 0)
  scaled := (roundTiesEven (|x| * 10 ^ p)).toNat
  places := p

/-- A numerator that is half off makes the fraction half a unit off. -/
theorem abs_div_sub_le {r a s : ℚ} (hs : 0 < s) (h : |r - a * s| ≤ 1 / 2) :
    |r / s - a| ≤ 1 / 2 * (1 / s) := by
  have heq : r / s - a = (r - a * s) * (1 / s) := by
    field_simp
  rw [heq, abs_mul, abs_of_pos (one_div_pos.mpr hs)]
  exact mul_le_mul_of_nonneg_right h (one_div_pos.mpr hs).le

/-- Rounding changes a number by at most half a unit in the last place. -/
theorem abs_value_round_sub_le (x : ℚ) (p : ℕ) :
    |(round x p).value - x| ≤ 1 / 2 * (1 / 10 ^ p) := by
  have hpos : (0 : ℚ) < 10 ^ p := by positivity
  have hnonneg := roundTiesEven_nonneg (mul_nonneg (abs_nonneg x) hpos.le)
  have hcast : ((roundTiesEven (|x| * 10 ^ p)).toNat : ℚ) = roundTiesEven (|x| * 10 ^ p) := by
    exact_mod_cast Int.toNat_of_nonneg hnonneg
  have hdiff := abs_div_sub_le hpos (abs_roundTiesEven_sub_le (|x| * 10 ^ p))
  rw [value, round]
  dsimp only
  rw [hcast]
  rcases lt_or_ge x 0 with hx | hx
  · rw [decide_eq_true hx, if_pos rfl]
    rw [abs_of_neg hx] at hdiff ⊢
    rw [← abs_neg] at hdiff
    convert hdiff using 2
    ring
  · rw [decide_eq_false (not_lt.mpr hx), if_neg Bool.false_ne_true, one_mul]
    rw [abs_of_nonneg hx] at hdiff ⊢
    exact hdiff

theorem value_round_of_nonneg {x : ℚ} (hx : 0 ≤ x) (p : ℕ) :
    (round x p).value = roundTiesEven (x * 10 ^ p) / 10 ^ p := by
  have hnonneg := roundTiesEven_nonneg (mul_nonneg hx (by positivity : (0 : ℚ) ≤ 10 ^ p))
  rw [value, round]
  dsimp only
  rw [decide_eq_false (not_lt.mpr hx), if_neg Bool.false_ne_true, one_mul, abs_of_nonneg hx]
  congr 1
  exact_mod_cast Int.toNat_of_nonneg hnonneg

/-- A number that has no more than `p` places is not changed. -/
theorem value_round_div {n : ℤ} (hn : 0 ≤ n) (p : ℕ) :
    (round (n / 10 ^ p) p).value = n / 10 ^ p := by
  have hpos : (0 : ℚ) < 10 ^ p := by positivity
  have hx : (0 : ℚ) ≤ n / 10 ^ p := div_nonneg (by exact_mod_cast hn) hpos.le
  rw [value_round_of_nonneg hx, div_mul_cancel₀ _ hpos.ne', roundTiesEven_intCast]

/-- The decimal `n / 10 ^ p`. -/
def ofScaled (n : ℤ) (p : ℕ) : FixedDecimal where
  negative := decide (n < 0)
  scaled := n.natAbs
  places := p

theorem value_ofScaled (n : ℤ) (p : ℕ) : (ofScaled n p).value = n / 10 ^ p := by
  rw [value, ofScaled]
  dsimp only
  rcases lt_or_ge n 0 with hn | hn
  · rw [decide_eq_true hn, if_pos rfl, Nat.cast_natAbs, abs_of_neg hn]
    push_cast
    ring
  · rw [decide_eq_false (not_lt.mpr hn), if_neg Bool.false_ne_true, one_mul, Nat.cast_natAbs,
      abs_of_nonneg hn]

/-- A number of either sign that has no more than `p` places is kept as it is. -/
theorem round_div (n : ℤ) (p : ℕ) : round (n / 10 ^ p) p = ofScaled n p := by
  have hpos : (0 : ℚ) < 10 ^ p := by positivity
  have habs : |(n : ℚ) / 10 ^ p| * 10 ^ p = ((n.natAbs : ℤ) : ℚ) := by
    rw [abs_div, abs_of_pos hpos, div_mul_cancel₀ _ hpos.ne', Int.natCast_natAbs, Int.cast_abs]
  rw [round, ofScaled, habs, roundTiesEven_intCast, Int.toNat_natCast]
  simp only [div_neg_iff, hpos, hpos.not_gt, and_true, and_false, false_or, Int.cast_lt_zero]

/-! ## Printing and reading -/

/-- The character of a digit. -/
def digitByte (n : ℕ) : UInt8 := UInt8.ofNat (48 + n)

/-- The characters of digits. -/
def isDigit (b : UInt8) : Bool := decide (48 ≤ b.toNat) && decide (b.toNat ≤ 57)

/-- The digit of a character. -/
def digitOf (b : UInt8) : ℕ := b.toNat - 48

/-- The sign of negative numbers, `-`. -/
def minus : UInt8 := 45

/-- The decimal point, `.`. -/
def point : UInt8 := 46

/-- The digits, the last one first; there is one at least before the point. -/
def digits (d : FixedDecimal) : List ℕ :=
  Nat.digits 10 d.scaled ++
    List.replicate (d.places + 1 - (Nat.digits 10 d.scaled).length) 0

/-- The digits before the point. -/
def intPart (d : FixedDecimal) : List UInt8 := (d.digits.drop d.places).reverse.map digitByte

/-- The digits behind the point. -/
def fracPart (d : FixedDecimal) : List UInt8 := (d.digits.take d.places).reverse.map digitByte

/-- The text of a decimal. -/
def print (d : FixedDecimal) : List UInt8 :=
  (if d.negative then [minus] else []) ++ d.intPart ++
    if d.places = 0 then [] else point :: d.fracPart

/-- The digits behind the point of a text, if a point is where the digits before it
end. -/
def readFrac : List UInt8 → List UInt8
  | [] => []
  | b :: bs => if b = point then bs.takeWhile isDigit else []

/-- The decimal at the beginning of a text. -/
def read (bs : List UInt8) : FixedDecimal :=
  let negative := decide (bs.head? = some minus)
  let body := if negative then bs.tail else bs
  let int := body.takeWhile isDigit
  let frac := readFrac (body.dropWhile isDigit)
  { negative := negative
    scaled := Nat.ofDigits 10 ((int ++ frac).reverse.map digitOf)
    places := frac.length }

theorem digits_lt {d : FixedDecimal} {n : ℕ} (h : n ∈ d.digits) : n < 10 := by
  rcases List.mem_append.mp h with h | h
  · exact Nat.digits_lt_base (by norm_num) h
  · obtain ⟨-, rfl⟩ := List.mem_replicate.mp h
    norm_num

theorem places_lt_length (d : FixedDecimal) : d.places < d.digits.length := by
  rw [digits, List.length_append, List.length_replicate]
  omega

theorem ofDigits_digits (d : FixedDecimal) : Nat.ofDigits 10 d.digits = d.scaled := by
  rw [digits, Nat.ofDigits_append_replicate_zero, Nat.ofDigits_digits]

theorem toNat_digitByte {n : ℕ} (h : n < 10) : (digitByte n).toNat = 48 + n := by
  rw [digitByte, UInt8.toNat_ofNat']
  omega

theorem isDigit_digitByte {n : ℕ} (h : n < 10) : isDigit (digitByte n) = true := by
  rw [isDigit, toNat_digitByte h]
  simp only [Bool.and_eq_true, decide_eq_true_iff]
  omega

theorem digitOf_digitByte {n : ℕ} (h : n < 10) : digitOf (digitByte n) = n := by
  rw [digitOf, toNat_digitByte h]
  omega

/-- The characters of digits are read back. -/
theorem map_digitOf {ns : List ℕ} (h : ∀ n ∈ ns, n < 10) :
    (ns.map digitByte).map digitOf = ns := by
  rw [List.map_map]
  exact (List.map_congr_left fun n hn ↦ digitOf_digitByte (h n hn)).trans (List.map_id ns)

theorem isDigit_intPart {d : FixedDecimal} : ∀ b ∈ d.intPart, isDigit b = true := by
  intro b hb
  obtain ⟨n, hn, rfl⟩ := List.mem_map.mp hb
  exact isDigit_digitByte (digits_lt (List.mem_of_mem_drop (List.mem_reverse.mp hn)))

theorem isDigit_fracPart {d : FixedDecimal} : ∀ b ∈ d.fracPart, isDigit b = true := by
  intro b hb
  obtain ⟨n, hn, rfl⟩ := List.mem_map.mp hb
  exact isDigit_digitByte (digits_lt (List.mem_of_mem_take (List.mem_reverse.mp hn)))

theorem length_fracPart (d : FixedDecimal) : d.fracPart.length = d.places := by
  rw [fracPart, List.length_map, List.length_reverse, List.length_take]
  exact min_eq_left d.places_lt_length.le

/-- Both parts together are the digits of the decimal. -/
theorem ofDigits_parts (d : FixedDecimal) :
    Nat.ofDigits 10 ((d.intPart ++ d.fracPart).reverse.map digitOf) = d.scaled := by
  have hparts : (d.intPart ++ d.fracPart).reverse = d.digits.map digitByte := by
    rw [intPart, fracPart, ← List.map_append, ← List.reverse_append, List.take_append_drop,
      ← List.map_reverse, List.reverse_reverse]
  rw [hparts, map_digitOf fun n hn ↦ digits_lt hn, ofDigits_digits]

/-- The text of a decimal begins with a digit, behind the sign. -/
theorem intPart_ne_nil (d : FixedDecimal) : d.intPart ≠ [] := by
  intro h
  have hlen := congrArg List.length h
  rw [intPart, List.length_map, List.length_reverse, List.length_drop, List.length_nil] at hlen
  have := d.places_lt_length
  omega

theorem takeWhile_append_of_head {p : UInt8 → Bool} {xs ys : List UInt8}
    (hxs : ∀ b ∈ xs, p b = true) (hys : ∀ b ∈ ys.head?, p b = false) :
    (xs ++ ys).takeWhile p = xs ∧ (xs ++ ys).dropWhile p = ys := by
  rw [List.takeWhile_append_of_pos hxs, List.dropWhile_append_of_pos hxs]
  cases ys with
  | nil => simp
  | cons b ys =>
      have hb := hys b rfl
      simp [hb]

/-- A printed decimal is read back, also in front of a text that does not begin with
a digit or a point. -/
theorem read_print_append (d : FixedDecimal) {u : List UInt8}
    (hu : ∀ b ∈ u.head?, isDigit b = false ∧ b ≠ point) : read (d.print ++ u) = d := by
  -- what follows the digits before the point
  have htail : ∀ b ∈ ((if d.places = 0 then [] else point :: d.fracPart) ++ u).head?,
      isDigit b = false := by
    split_ifs
    · exact fun b hb ↦ (hu b hb).1
    · rintro b ⟨⟩
      rfl
  obtain ⟨hint, hrest⟩ := takeWhile_append_of_head isDigit_intPart htail
  have hfrac : readFrac ((if d.places = 0 then [] else point :: d.fracPart) ++ u) =
      d.fracPart := by
    split_ifs with h0
    · have hnil : d.fracPart = [] := List.eq_nil_of_length_eq_zero (by rw [length_fracPart, h0])
      rw [List.nil_append, hnil]
      cases u with
      | nil => rfl
      | cons b u => exact if_neg (hu b rfl).2
    · have hu' : ∀ b ∈ u.head?, isDigit b = false := fun b hb ↦ (hu b hb).1
      rw [List.cons_append, readFrac, if_pos rfl]
      exact (takeWhile_append_of_head isDigit_fracPart hu').1
  obtain ⟨b, int, hcons⟩ := List.exists_cons_of_ne_nil d.intPart_ne_nil
  have hb : b ≠ minus := by
    rintro rfl
    exact absurd (isDigit_intPart minus (hcons ▸ List.mem_cons_self)) (by decide)
  have hsign : decide ((d.print ++ u).head? = some minus) = d.negative := by
    rw [print, hcons]
    cases d.negative with
    | true => rfl
    | false => simpa using hb
  have hbody : (if d.negative then (d.print ++ u).tail else d.print ++ u) =
      d.intPart ++ ((if d.places = 0 then [] else point :: d.fracPart) ++ u) := by
    rw [print]
    cases d.negative with
    | true => simp
    | false => simp
  rw [read, hsign, hbody, hint, hrest, hfrac, ofDigits_parts, length_fracPart]

/-- Equal texts show equal numbers, and what follows them is equal, too. -/
theorem print_append_inj {d d' : FixedDecimal} {u u' : List UInt8}
    (hu : ∀ b ∈ u.head?, isDigit b = false ∧ b ≠ point)
    (hu' : ∀ b ∈ u'.head?, isDigit b = false ∧ b ≠ point)
    (h : d.print ++ u = d'.print ++ u') : d = d' ∧ u = u' := by
  have hd : d = d' := by
    rw [← read_print_append d hu, h, read_print_append d' hu']
  subst hd
  exact ⟨rfl, List.append_cancel_left h⟩

/-- No character of a number is a zero byte. -/
theorem zero_not_mem_print (d : FixedDecimal) : 0 ∉ d.print := by
  have hint : 0 ∉ d.intPart := fun h ↦ absurd (isDigit_intPart 0 h) (by decide)
  have hfrac : 0 ∉ d.fracPart := fun h ↦ absurd (isDigit_fracPart 0 h) (by decide)
  rw [print]
  split_ifs <;> simp [hint, hfrac, minus, point]

/-- The length of the text of a number that is not negative. -/
theorem length_print_le {d : FixedDecimal} (hneg : d.negative = false) {k : ℕ}
    (hk : d.places < k) (hd : d.scaled < 10 ^ k) : d.print.length ≤ k + 1 := by
  have hdigits : d.digits.length ≤ k := by
    have hle := (Nat.digits_length_le_iff (by norm_num : 1 < 10) d.scaled).mpr hd
    rw [digits, List.length_append, List.length_replicate]
    omega
  have hint : d.intPart.length = d.digits.length - d.places := by
    rw [intPart, List.length_map, List.length_reverse, List.length_drop]
  have hlt := d.places_lt_length
  rw [print, hneg, if_neg Bool.false_ne_true, List.nil_append, List.length_append, hint]
  split_ifs with h0
  · rw [List.length_nil]
    omega
  · rw [List.length_cons, length_fracPart]
    omega

/-- The length of the text of a number of either sign. -/
theorem length_print_le_add_two (d : FixedDecimal) {k : ℕ} (hk : d.places < k)
    (hd : d.scaled < 10 ^ k) : d.print.length ≤ k + 2 := by
  have hunsigned : ({ d with negative := false } : FixedDecimal).print.length ≤ k + 1 :=
    length_print_le rfl hk hd
  have hsign : d.print = (if d.negative then [minus] else []) ++
      ({ d with negative := false } : FixedDecimal).print := by
    simp [print, intPart, fracPart, digits]
  rw [hsign, List.length_append]
  split_ifs
  · rw [List.length_singleton]
    omega
  · rw [List.length_nil]
    omega

end FixedDecimal

end PgKmcb.Lib
