import PgKmcb.Postgres

/-!
# Comparing texts (`se_string.c`)

`compare_string` compares the bytes that both strings have, and looks at the lengths only if
these are the same.  What it computes is the sign of a comparison, by the order in which
words stand in a dictionary; as a prefix, the first string is smaller than the second, equal
to it or larger.

The bytes are compared by `memcmp`, of whose result the C standard fixes the sign only; here
it is a parameter.
-/

namespace PgKmcb.Text

open PgKmcb.Lib

/-! ## The functions -/

/-- What `memcmp` does on two blocks of one size: the first bytes that differ decide, and
they are compared without sign. -/
structure IsMemcmp (memcmp : List Byte → List Byte → ℤ) : Prop where
  neg_iff : ∀ {x y : List Byte}, x.length = y.length → (memcmp x y < 0 ↔ x < y)
  eq_zero_iff : ∀ {x y : List Byte}, x.length = y.length → (memcmp x y = 0 ↔ x = y)

/-- `compare_string`; the strings are given by what can be read from their first byte on. -/
def compareString (memcmp : List Byte → List Byte → ℤ) (a : List Byte) (lena : ℤ)
    (b : List Byte) (lenb : ℤ) (isPrefix : Bool) : Call ℤ :=
  if lena = 0 then
    if isPrefix then return 0
    else return if lenb > 0 then -1 else 0
  else if lenb = 0 then
    return if lena > 0 then 1 else 0
  else do
    let x ← readRange a 0 (min lena lenb).toNat
    let y ← readRange b 0 (min lena lenb).toNat
    let cmp := memcmp x y
    if isPrefix then
      return if cmp = 0 ∧ lena > lenb then 1 else cmp
    else
      return if cmp = 0 ∧ lena ≠ lenb then if lena < lenb then -1 else 1 else cmp

/-- `compare_text_lexemes`. -/
def compareTextLexemes (memcmp : List Byte → List Byte → ℤ) (va vb : TextImage) : Call ℤ :=
  compareString memcmp va.vardata va.varsizeExhdr vb.vardata vb.varsizeExhdr false

/-! ## The order -/

/-- Two strings that differ in a part that both of them have. -/
theorem lt_iff_take_lt {a b : List Byte} {n : ℕ} (ha : n ≤ a.length) (hb : n ≤ b.length)
    (hne : a.take n ≠ b.take n) : a < b ↔ a.take n < b.take n := by
  induction n generalizing a b with
  | zero => exact absurd rfl hne
  | succ n ih =>
      cases a with
      | nil => cases ha
      | cons x a =>
          cases b with
          | nil => cases hb
          | cons y b =>
              rw [List.take_succ_cons, List.take_succ_cons, List.cons_lt_cons_iff,
                List.cons_lt_cons_iff]
              refine or_congr_right (and_congr_right fun hxy ↦ ?_)
              refine ih (Nat.le_of_succ_le_succ ha) (Nat.le_of_succ_le_succ hb) fun htake ↦ ?_
              rw [List.take_succ_cons, List.take_succ_cons, hxy, htake] at hne
              exact hne rfl

/-- A string comes before those it is the beginning of. -/
theorem lt_of_isPrefix {a b : List Byte} (h : a <+: b) (hlen : a.length < b.length) : a < b := by
  induction a generalizing b with
  | nil =>
      cases b with
      | nil => cases hlen
      | cons y b => exact List.nil_lt_cons y b
  | cons x a ih =>
      obtain ⟨rest, rfl⟩ := h
      exact List.cons_lt_cons_iff.mpr
        (.inr ⟨rfl, ih (List.prefix_append a rest) (Nat.lt_of_succ_lt_succ hlen)⟩)

/-- The part that both strings have is the shorter one of them. -/
theorem isPrefix_iff_take_eq {a b : List Byte} (hle : a.length ≤ b.length) :
    a <+: b ↔ a.take (min a.length b.length) = b.take (min a.length b.length) := by
  rw [Nat.min_eq_left hle, List.take_length, List.prefix_iff_eq_take]

variable {memcmp : List Byte → List Byte → ℤ}

/-- The bytes decide, and then the lengths, whether or not one of the strings is empty. -/
theorem compareString_eq (hmemcmp : IsMemcmp memcmp) (a b m m' : List Byte) (isPrefix : Bool) :
    compareString memcmp (a ++ m) a.length (b ++ m') b.length isPrefix = .ok (
      if a.take (min a.length b.length) = b.take (min a.length b.length) then
        if b.length < a.length then 1
        else if a.length < b.length ∧ isPrefix = false then -1 else 0
      else memcmp (a.take (min a.length b.length)) (b.take (min a.length b.length))) := by
  have hread : ∀ (c m : List Byte) {n : ℕ}, n ≤ c.length →
      (readRange (c ++ m) 0 n : Call (List Byte)) = .ok (c.take n) := by
    intro c m n hn
    rw [readRange, if_pos (by rw [List.length_append]; omega), List.drop_zero,
      List.take_append_of_le_length hn]
  rw [compareString]
  rcases Nat.eq_zero_or_pos a.length with ha | ha
  · -- the first string is empty
    obtain rfl := List.length_eq_zero_iff.mp ha
    cases isPrefix <;> by_cases hb : 0 < b.length <;> simp [hb] <;> rfl
  · rcases Nat.eq_zero_or_pos b.length with hb | hb
    · obtain rfl := List.length_eq_zero_iff.mp hb
      rw [if_neg (by omega), List.length_nil, if_pos Int.ofNat_zero, if_pos (by omega),
        Nat.min_zero, List.take_zero, List.take_zero, if_pos rfl, if_pos ha]
      rfl
    · have hmin : (min (a.length : ℤ) b.length).toNat = min a.length b.length := by omega
      have hzero := hmemcmp.eq_zero_iff (x := a.take (min a.length b.length))
        (y := b.take (min a.length b.length)) (by rw [List.length_take, List.length_take]; omega)
      rw [if_neg (by omega), if_neg (by omega), hmin, hread a m (Nat.min_le_left _ _),
        hread b m' (Nat.min_le_right _ _), Run.ok_bind, Run.ok_bind]
      by_cases htake : a.take (min a.length b.length) = b.take (min a.length b.length)
      · have hcmp := hzero.mpr htake
        rw [if_pos htake]
        cases isPrefix <;> refine congrArg Except.ok ?_ <;> grind
      · have hcmp := mt hzero.mp htake
        cases isPrefix <;> simp [hcmp, htake] <;> rfl

/-- The part that both strings have, and where it is the same the lengths, decide the order;
if they do not, one of the strings is the beginning of the other. -/
theorem order_cases (a b : List Byte) :
    a.take (min a.length b.length) ≠ b.take (min a.length b.length) ∧
        (a < b ↔ a.take (min a.length b.length) < b.take (min a.length b.length)) ∧
        ¬ a <+: b ∧ a ≠ b ∨
      a.take (min a.length b.length) = b.take (min a.length b.length) ∧
        (a.length < b.length ∧ a < b ∧ a <+: b ∨ a = b ∨
          b.length < a.length ∧ b < a ∧ ¬ a <+: b) := by
  by_cases htake : a.take (min a.length b.length) = b.take (min a.length b.length)
  · refine .inr ⟨htake, ?_⟩
    rcases Nat.lt_trichotomy a.length b.length with hlt | heq | hgt
    · have hpre := (isPrefix_iff_take_eq (Nat.le_of_lt hlt)).mpr htake
      exact .inl ⟨hlt, lt_of_isPrefix hpre hlt, hpre⟩
    · have hpre := (isPrefix_iff_take_eq (Nat.le_of_eq heq)).mpr htake
      exact .inr (.inl (hpre.eq_of_length heq))
    · rw [Nat.min_comm] at htake
      have hpre := (isPrefix_iff_take_eq (Nat.le_of_lt hgt)).mpr htake.symm
      exact .inr (.inr ⟨hgt, lt_of_isPrefix hpre hgt,
        fun h ↦ Nat.not_le_of_lt hgt h.length_le⟩)
  · refine .inl ⟨htake, lt_iff_take_lt (Nat.min_le_left _ _) (Nat.min_le_right _ _) htake, ?_, ?_⟩
    · exact fun h ↦ htake ((isPrefix_iff_take_eq h.length_le).mp h)
    · rintro rfl
      exact htake rfl

/-- The sign of the comparison of two strings, by their bytes without sign; as a prefix, a
string is equal to all that it is the beginning of. -/
theorem compareString_sign (hmemcmp : IsMemcmp memcmp) (a b m m' : List Byte) :
    (∃ cmp, compareTextLexemes memcmp ⟨a, m⟩ ⟨b, m'⟩ = .ok cmp ∧
      (cmp < 0 ↔ a < b) ∧ (cmp = 0 ↔ a = b) ∧ (0 < cmp ↔ b < a)) ∧
    ∃ cmp, compareString memcmp (a ++ m) a.length (b ++ m') b.length true = .ok cmp ∧
      (cmp < 0 ↔ a < b ∧ ¬ a <+: b) ∧ (cmp = 0 ↔ a <+: b) ∧ (0 < cmp ↔ b < a) := by
  have hasymm : a < b → ¬ b < a := List.lt_asymm
  have htotal : ¬ a < b → a ≠ b → b < a := by grind
  have hlexemes : compareTextLexemes memcmp ⟨a, m⟩ ⟨b, m'⟩ =
      compareString memcmp (a ++ m) a.length (b ++ m') b.length false := rfl
  rw [hlexemes, compareString_eq hmemcmp, compareString_eq hmemcmp]
  rcases order_cases a b with ⟨htake, hlt, hpre, hne⟩ | ⟨htake, hcase⟩
  · -- the bytes decide, in both modes
    have hlen : (a.take (min a.length b.length)).length =
        (b.take (min a.length b.length)).length := by
      rw [List.length_take, List.length_take]
      omega
    have hneg := (hmemcmp.neg_iff hlen).trans hlt.symm
    have hzero := mt (hmemcmp.eq_zero_iff hlen).mp htake
    have hpos : 0 < memcmp (a.take (min a.length b.length)) (b.take (min a.length b.length)) ↔
        b < a := by
      constructor
      · exact fun hpos ↦ htotal (fun h ↦ by have := hneg.mpr h; omega) hne
      · intro hba
        have hnot := mt hneg.mp fun h ↦ hasymm h hba
        omega
    rw [if_neg htake, if_neg htake]
    exact ⟨⟨_, rfl, hneg, iff_of_false hzero hne, hpos⟩, _, rfl,
      hneg.trans (and_iff_left hpre).symm, iff_of_false hzero hpre, hpos⟩
  · rw [if_pos htake, if_pos htake]
    rcases hcase with ⟨hlen, hlt, hpre⟩ | rfl | ⟨hlen, hlt, hpre⟩
    · rw [if_neg (Nat.lt_asymm hlen), if_neg (Nat.lt_asymm hlen)]
      have hne : a ≠ b := fun h ↦ Nat.ne_of_lt hlen (congrArg _ h)
      simp [hlen, hlt, hpre, hne, hasymm hlt]
    · simp [List.lt_irrefl]
    · have hne : a ≠ b := fun h ↦ Nat.ne_of_gt hlen (congrArg _ h)
      have hnot : ¬ a < b := fun h ↦ hasymm h hlt
      simp [hlen, hlt, hpre, hne, hnot]

/-- The text `a` and a text that goes on with a byte from the upper half, for a `memcmp`
that returns nothing but a sign. -/
theorem compareString_sign_a :
    (∃ cmp, compareTextLexemes (fun x y ↦ if x < y then -1 else if x = y then 0 else 1)
        ⟨[0x61], [0]⟩ ⟨[0x61, 0xE4], []⟩ = .ok cmp ∧
      (cmp < 0 ↔ [(0x61 : Byte)] < [0x61, 0xE4]) ∧ (cmp = 0 ↔ [(0x61 : Byte)] = [0x61, 0xE4]) ∧
      (0 < cmp ↔ [(0x61 : Byte), 0xE4] < [0x61])) ∧
    ∃ cmp, compareString (fun x y ↦ if x < y then -1 else if x = y then 0 else 1)
        ([0x61] ++ [0]) 1 ([0x61, 0xE4] ++ []) 2 true = .ok cmp ∧
      (cmp < 0 ↔ [(0x61 : Byte)] < [0x61, 0xE4] ∧ ¬ [(0x61 : Byte)] <+: [0x61, 0xE4]) ∧
      (cmp = 0 ↔ [(0x61 : Byte)] <+: [0x61, 0xE4]) ∧
      (0 < cmp ↔ [(0x61 : Byte), 0xE4] < [0x61]) := by
  refine compareString_sign ⟨fun {x y} _ ↦ ?_, fun {x y} _ ↦ ?_⟩ [0x61] [0x61, 0xE4] [0] []
  · split_ifs with hlt heq <;> simp [hlt]
  · split_ifs with hlt heq
    · refine iff_of_false (by decide) fun h ↦ List.lt_irrefl y ?_
      rwa [h] at hlt
    · exact iff_of_true rfl heq
    · exact iff_of_false (by decide) heq

end PgKmcb.Text
