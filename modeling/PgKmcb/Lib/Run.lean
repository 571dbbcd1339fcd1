import Mathlib.Order.Basic
import Mathlib.Data.Int.Order.Basic
import Mathlib.Tactic.Common

/-!
# Runs of a C function

A C function either returns, raises an error of its host, or leaves the defined
part of the language.  `Run ε α` keeps the three apart: `ε` is the type of errors
the host can raise, and `Undefined` lists the ways in which an execution has no
defined meaning.  A model written in `Run` checks every access it makes, so that
"the call returns" already contains "no access was out of bounds".

Loops come with the two rules the proofs use.  `forLoop_spec` is the invariant
rule of a counting loop; `whileLoop_spec` is the rule of a loop with a guard, an
invariant and a measure, where the measure bounds the fuel that is needed, and
`whileLoop_rounds` that of a number of rounds known beforehand.
`Reaches` is the set of states a guarded loop visits, and `Reaches.invariant`
carries an invariant to all of them.
-/

universe u v w

namespace PgKmcb.Lib

/-- The ways in which an execution has no defined meaning. -/
inductive Undefined where
  /-- A read or a write outside of the object. -/
  | outOfBounds
  /-- An integer division by zero. -/
  | divideByZero
  /-- A conversion of a number that the target type cannot hold. -/
  | conversion
  /-- A signed arithmetic operation whose result does not fit. -/
  | overflow
  /-- A read of a variable that was never written. -/
  | uninitialized
deriving DecidableEq, Repr

/-- Why a run stops without returning. -/
inductive Stop (ε : Type u) where
  /-- The execution has no defined meaning from here on. -/
  | undefined (why : Undefined)
  /-- The host raised an error. -/
  | raised (e : ε)
  /-- The fuel of a guarded loop was used up. -/
  | outOfFuel
deriving DecidableEq, Repr

/-- A run that returns an `α` unless it stops. -/
abbrev Run (ε : Type u) (α : Type v) := Except (Stop ε) α

variable {ε : Type u} {α : Type v} {β : Type w}

namespace Run

@[simp] theorem ok_bind {β : Type v} (a : α) (f : α → Run ε β) :
    ((Except.ok a : Run ε α) >>= f) = f a := rfl

@[simp] theorem error_bind {β : Type v} (e : Stop ε) (f : α → Run ε β) :
    ((Except.error e : Run ε α) >>= f) = .error e := rfl

/-- A sequence returns exactly when both of its parts do. -/
theorem bind_eq_ok {β : Type v} {x : Run ε α} {f : α → Run ε β} {b : β} :
    (x >>= f) = .ok b ↔ ∃ a, x = .ok a ∧ f a = .ok b := by
  cases x with
  | error e => simp
  | ok a => simp

/-- The run has a meaning and an end: it returns, or the host raises an error. -/
def Settles (x : Run ε α) : Prop := (∃ a, x = .ok a) ∨ ∃ e, x = .error (.raised e)

theorem settles_ok (a : α) : Settles (.ok a : Run ε α) := .inl ⟨a, rfl⟩

theorem settles_raised (e : ε) : Settles (.error (.raised e) : Run ε α) := .inr ⟨e, rfl⟩

/-- A run that stops settles if it is the host that stops it. -/
theorem settles_error_iff {s : Stop ε} :
    Settles (.error s : Run ε α) ↔ ∃ e, s = .raised e := by
  simp [Settles]

theorem not_settles_undefined (why : Undefined) :
    ¬ Settles (.error (.undefined why) : Run ε α) := by
  rw [settles_error_iff]
  rintro ⟨e, he⟩
  cases he

/-- Whether a run settles does not depend on what is made of its result. -/
theorem settles_map_iff {x : Run ε α} {f : α → β} : Settles (x.map f) ↔ Settles x := by
  cases x with
  | ok a => exact iff_of_true (settles_ok (f a)) (settles_ok a)
  | error s => exact settles_error_iff.trans settles_error_iff.symm

end Run

/-! ## Memory -/

/-- A checked read of the `i`-th element of an array. -/
def readAt (xs : List α) (i : ℕ) : Run ε α :=
  match xs[i]? with
  | some a => .ok a
  | none => .error (.undefined .outOfBounds)

/-- A checked write of the `i`-th element of an array. -/
def writeAt (xs : List α) (i : ℕ) (a : α) : Run ε (List α) :=
  if i < xs.length then .ok (xs.set i a) else .error (.undefined .outOfBounds)

/-- Whether `n` elements from position `i` on lie in an object of the given size. -/
def inObject (size i n : ℕ) : Run ε Unit :=
  if i + n ≤ size then .ok () else .error (.undefined .outOfBounds)

/-- A checked copy of `n` elements from position `i` on. -/
def readRange (xs : List α) (i n : ℕ) : Run ε (List α) :=
  if i + n ≤ xs.length then .ok ((xs.drop i).take n) else .error (.undefined .outOfBounds)

/-- Checked writes of consecutive elements from position `i` on. -/
def writeRange (xs : List α) (i : ℕ) : List α → Run ε (List α)
  | [] => .ok xs
  | y :: ys => writeAt xs i y >>= fun xs ↦ writeRange xs (i + 1) ys

/-- The array with consecutive elements replaced. -/
def overwrite (xs : List α) (i : ℕ) (ys : List α) : List α :=
  xs.take i ++ ys ++ xs.drop (i + ys.length)

theorem readRange_of_append {xs ys zs : List α} {i n : ℕ} (hi : xs.length = i)
    (hn : ys.length = n) : (readRange (xs ++ ys ++ zs) i n : Run ε (List α)) = .ok ys := by
  subst hi hn
  simp [readRange]

theorem readAt_of_getElem? {xs : List α} {i : ℕ} {a : α} (h : xs[i]? = some a) :
    (readAt xs i : Run ε α) = .ok a := by simp [readAt, h]

@[simp] theorem readAt_zero_cons (a : α) (xs : List α) :
    (readAt (a :: xs) 0 : Run ε α) = .ok a := rfl

theorem writeAt_of_lt {xs : List α} {i : ℕ} (h : i < xs.length) (a : α) :
    (writeAt xs i a : Run ε (List α)) = .ok (xs.set i a) := by simp [writeAt, h]

@[simp] theorem overwrite_nil (xs : List α) (i : ℕ) : overwrite xs i [] = xs := by
  rw [overwrite, List.append_nil, List.length_nil, Nat.add_zero, List.take_append_drop]

theorem length_overwrite {xs ys : List α} {i : ℕ} (h : i + ys.length ≤ xs.length) :
    (overwrite xs i ys).length = xs.length := by
  rw [overwrite, List.length_append, List.length_append, List.length_take, List.length_drop]
  omega

/-- The element behind a first part of the array. -/
theorem readAt_append_cons {xs ys : List α} {i : ℕ} (h : xs.length = i) (a : α) :
    (readAt (xs ++ a :: ys) i : Run ε α) = .ok a :=
  readAt_of_getElem? (by simp [← h])

theorem writeAt_append_cons {xs ys : List α} {i : ℕ} (h : xs.length = i) (a b : α) :
    (writeAt (xs ++ a :: ys) i b : Run ε (List α)) = .ok (xs ++ b :: ys) := by
  subst h
  rw [writeAt_of_lt (by simp)]
  simp

theorem overwrite_zero (xs ys : List α) : overwrite xs 0 ys = ys ++ xs.drop ys.length := by
  rw [overwrite, List.take_zero, List.nil_append, Nat.zero_add]

/-- What is written where a first part of the array ends. -/
theorem overwrite_of_append {xs ys zs : List α} {i : ℕ} (hi : xs.length = i) :
    overwrite (xs ++ zs) i ys = xs ++ ys ++ zs.drop ys.length := by
  rw [overwrite, List.take_left' hi, ← List.drop_drop, List.drop_left' hi]

/-- What is written behind a block extends the block. -/
theorem overwrite_append {xs ys zs : List α} {i : ℕ} (h : i + ys.length ≤ xs.length) :
    overwrite (overwrite xs i ys) (i + ys.length) zs = overwrite xs i (ys ++ zs) := by
  have hlen : (xs.take i ++ ys).length = i + ys.length := by
    rw [List.length_append, List.length_take]
    omega
  have hdrop : (xs.take i ++ ys ++ xs.drop (i + ys.length)).drop (i + ys.length + zs.length) =
      xs.drop (i + ys.length + zs.length) := by
    rw [← List.drop_drop, List.drop_left' hlen, List.drop_drop]
  rw [overwrite, overwrite, overwrite, List.take_left' hlen, hdrop, List.length_append,
    List.append_assoc (xs.take i), Nat.add_assoc]

/-- Writes that stay inside of the array replace a block of it. -/
theorem writeRange_of_le {xs ys : List α} {i : ℕ} (h : i + ys.length ≤ xs.length) :
    (writeRange xs i ys : Run ε (List α)) = .ok (overwrite xs i ys) := by
  induction ys generalizing xs i with
  | nil => rw [writeRange, overwrite_nil]
  | cons y ys ih =>
      rw [List.length_cons] at h
      have hset : xs.set i y = overwrite xs i [y] := by
        rw [overwrite, List.set_eq_take_append_cons_drop, if_pos (by omega), List.append_assoc]
        rfl
      have hone : i + [y].length ≤ xs.length := by
        rw [List.length_singleton]
        omega
      rw [writeRange, writeAt_of_lt (by omega), Run.ok_bind, hset,
        ih (by rw [length_overwrite hone]; omega)]
      exact congrArg _ (overwrite_append hone)

/-- The length of the string that begins at a pointer: the distance to the first
zero byte.  The argument is all of the memory that can be read from there on. -/
def strlen : List UInt8 → Run ε ℕ
  | [] => .error (.undefined .outOfBounds)
  | b :: m => if b = 0 then .ok 0 else strlen m >>= fun n ↦ .ok (n + 1)

/-- The search passes over bytes that are not zero. -/
theorem strlen_append {s : List UInt8} (h : 0 ∉ s) (m : List UInt8) :
    (strlen (s ++ m) : Run ε ℕ) = (strlen m).map (s.length + ·) := by
  induction s with
  | nil => cases h' : (strlen m : Run ε ℕ) <;> simp [Except.map, h']
  | cons b s ih =>
      obtain ⟨hb, hs⟩ := List.ne_and_not_mem_of_not_mem_cons h
      rw [List.cons_append, strlen, if_neg (Ne.symm hb), ih hs]
      cases (strlen m : Run ε ℕ) with
      | error e => rfl
      | ok n =>
          show Except.ok (s.length + n + 1) = Except.ok (s.length + 1 + n)
          rw [Nat.add_right_comm]

/-- A zero byte ends the string, whatever lies behind it. -/
theorem strlen_append_zero {s : List UInt8} (h : 0 ∉ s) (m : List UInt8) :
    (strlen (s ++ 0 :: m) : Run ε ℕ) = .ok s.length := strlen_append h (0 :: m)

/-- A string that holds a zero byte ends before its memory does. -/
theorem strlen_of_mem {s : List UInt8} (h : 0 ∈ s) (m : List UInt8) :
    ∃ n < s.length, (strlen (s ++ m) : Run ε ℕ) = .ok n := by
  obtain ⟨s₁, s₂, rfl, h₁⟩ := List.eq_append_cons_of_mem h
  refine ⟨s₁.length, ?_, ?_⟩
  · rw [List.length_append, List.length_cons]
    exact Nat.lt_add_of_pos_right (Nat.succ_pos _)
  · rw [List.append_assoc, List.cons_append]
    exact strlen_append_zero h₁ _

/-- A table of cells with a set of valid indices: an array of arrays, for one. -/
structure Table (ι : Type v) (α : Type w) where
  /-- Whether an index is inside of the table. -/
  dom : ι → Bool
  /-- What the cells hold. -/
  cell : ι → α

namespace Table

variable {ι : Type v} {γ : Type w}

/-- A checked read of a cell. -/
def read (t : Table ι γ) (i : ι) : Run ε γ :=
  if t.dom i then .ok (t.cell i) else .error (.undefined .outOfBounds)

/-- The table with one cell changed. -/
def set [DecidableEq ι] (t : Table ι γ) (i : ι) (a : γ) : Table ι γ where
  dom := t.dom
  cell := Function.update t.cell i a

/-- A checked write of a cell. -/
def write [DecidableEq ι] (t : Table ι γ) (i : ι) (a : γ) : Run ε (Table ι γ) :=
  if t.dom i then .ok (t.set i a) else .error (.undefined .outOfBounds)

@[simp] theorem set_dom [DecidableEq ι] (t : Table ι γ) (i : ι) (a : γ) :
    (t.set i a).dom = t.dom := rfl

@[simp] theorem set_cell_self [DecidableEq ι] (t : Table ι γ) (i : ι) (a : γ) :
    (t.set i a).cell i = a := by simp [set]

theorem set_cell_of_ne [DecidableEq ι] (t : Table ι γ) {i j : ι} (h : j ≠ i) (a : γ) :
    (t.set i a).cell j = t.cell j := by simp [set, Function.update_of_ne h]

theorem read_of_dom {t : Table ι γ} {i : ι} (h : t.dom i = true) :
    (t.read i : Run ε γ) = .ok (t.cell i) := by simp [read, h]

theorem write_of_dom [DecidableEq ι] {t : Table ι γ} {i : ι} (h : t.dom i = true) (a : γ) :
    (t.write i a : Run ε (Table ι γ)) = .ok (t.set i a) := by simp [write, h]

end Table

/-! ## Counting loops -/

/-- `for (i = 0; i < n; ++i) body`, the state threaded through. -/
def forLoop (body : ℕ → α → Run ε α) : ℕ → α → Run ε α
  | 0, s => .ok s
  | n + 1, s => forLoop body n s >>= body n

/-- The invariant rule of a counting loop. -/
theorem forLoop_spec {body : ℕ → α → Run ε α} {n : ℕ} {s : α} (I : ℕ → α → Prop)
    (h0 : I 0 s)
    (hstep : ∀ i s, i < n → I i s → ∃ s', body i s = .ok s' ∧ I (i + 1) s') :
    ∃ s', forLoop body n s = .ok s' ∧ I n s' := by
  induction n with
  | zero => exact ⟨s, rfl, h0⟩
  | succ n ih =>
      obtain ⟨s₁, h₁, hI₁⟩ := ih fun i s hi ↦ hstep i s (Nat.lt_succ_of_lt hi)
      obtain ⟨s₂, h₂, hI₂⟩ := hstep n s₁ (Nat.lt_succ_self n) hI₁
      exact ⟨s₂, by rw [forLoop, h₁, Run.ok_bind, h₂], hI₂⟩

/-- What every round keeps, a loop that has returned has kept. -/
theorem forLoop_invariant {body : ℕ → α → Run ε α} (I : α → Prop)
    (hstep : ∀ i s s', I s → body i s = .ok s' → I s') {n : ℕ} {s s' : α}
    (h : forLoop body n s = .ok s') (hI : I s) : I s' := by
  induction n generalizing s' with
  | zero =>
      cases h
      exact hI
  | succ n ih =>
      obtain ⟨s₁, h₁, h₂⟩ := Run.bind_eq_ok.mp h
      exact hstep n s₁ s' (ih h₁) h₂

/-- The rule for a loop that may also fail, always in the same way. -/
theorem forLoop_spec_or {body : ℕ → α → Run ε α} {n : ℕ} {s : α} (e : Stop ε)
    (I : ℕ → α → Prop) (h0 : I 0 s)
    (hstep : ∀ i s, i < n → I i s →
      body i s = .error e ∨ ∃ s', body i s = .ok s' ∧ I (i + 1) s') :
    forLoop body n s = .error e ∨ ∃ s', forLoop body n s = .ok s' ∧ I n s' := by
  induction n with
  | zero => exact .inr ⟨s, rfl, h0⟩
  | succ n ih =>
      rcases ih fun i s hi ↦ hstep i s (Nat.lt_succ_of_lt hi) with h | ⟨s₁, h₁, hI₁⟩
      · exact .inl (by rw [forLoop, h, Run.error_bind])
      · rw [forLoop, h₁, Run.ok_bind]
        exact hstep n s₁ (Nat.lt_succ_self n) hI₁

/-! ## Guarded loops -/

/-- `while (guard) body`, for at most `fuel` rounds. -/
def whileLoop (guard : α → Bool) (body : α → Run ε α) : ℕ → α → Run ε α
  | 0, s => if guard s then .error .outOfFuel else .ok s
  | fuel + 1, s => if guard s then body s >>= whileLoop guard body fuel else .ok s

/-- A loop whose guard fails has ended. -/
theorem whileLoop_of_not {guard : α → Bool} {body : α → Run ε α} {s : α}
    (h : guard s = false) (fuel : ℕ) : whileLoop guard body fuel s = .ok s := by
  cases fuel <;> simp [whileLoop, h]

/-- The invariant rule of a guarded loop: a measure that every round decreases
bounds the number of rounds. -/
theorem whileLoop_spec {guard : α → Bool} {body : α → Run ε α} (I : α → Prop) (m : α → ℕ)
    (hstep : ∀ s, I s → guard s = true → ∃ s', body s = .ok s' ∧ I s' ∧ m s' < m s)
    {fuel : ℕ} {s : α} (hI : I s) (hm : m s ≤ fuel) :
    ∃ s', whileLoop guard body fuel s = .ok s' ∧ I s' ∧ guard s' = false := by
  induction fuel generalizing s with
  | zero =>
      cases hg : guard s with
      | false => exact ⟨s, whileLoop_of_not hg 0, hI, hg⟩
      | true =>
          obtain ⟨s', -, -, hlt⟩ := hstep s hI hg
          omega
  | succ fuel ih =>
      cases hg : guard s with
      | false => exact ⟨s, whileLoop_of_not hg _, hI, hg⟩
      | true =>
          obtain ⟨s', hs', hI', hlt⟩ := hstep s hI hg
          obtain ⟨s'', hs'', h⟩ := ih hI' (by omega)
          exact ⟨s'', by simp only [whileLoop, hg, if_true, hs', Run.ok_bind, hs''], h⟩

/-- The rule for a number of rounds that is known beforehand: the loop goes on from the
state after them, with the fuel that is left. -/
theorem whileLoop_rounds {guard : α → Bool} {body : α → Run ε α} {n : ℕ} (I : ℕ → α → Prop)
    (hstep : ∀ i s, i < n → I i s → guard s = true ∧ ∃ s', body s = .ok s' ∧ I (i + 1) s')
    {s : α} (h0 : I 0 s) (fuel : ℕ) :
    ∃ s', I n s' ∧ whileLoop guard body (n + fuel) s = whileLoop guard body fuel s' := by
  induction n generalizing fuel with
  | zero => exact ⟨s, h0, by rw [Nat.zero_add]⟩
  | succ n ih =>
      obtain ⟨s₁, hI₁, h₁⟩ := ih (fun i s hi ↦ hstep i s (Nat.lt_succ_of_lt hi)) (fuel + 1)
      obtain ⟨hg, s₂, h₂, hI₂⟩ := hstep n s₁ (Nat.lt_succ_self n) hI₁
      refine ⟨s₂, hI₂, ?_⟩
      rw [Nat.add_right_comm, Nat.add_assoc, h₁, whileLoop, if_pos hg, h₂, Run.ok_bind]

/-- The states that a guarded loop visits from a given one. -/
inductive Reaches (guard : α → Bool) (body : α → Run ε α) : α → α → Prop
  /-- The loop starts in its first state. -/
  | refl (s : α) : Reaches guard body s s
  /-- A round that returns leads to the next state. -/
  | step {s t t' : α} : Reaches guard body s t → guard t = true → body t = .ok t' →
      Reaches guard body s t'

/-- What holds at first and is kept by every round holds in every state visited. -/
theorem Reaches.invariant {guard : α → Bool} {body : α → Run ε α} {I : α → Prop}
    (hstep : ∀ s s', I s → guard s = true → body s = .ok s' → I s')
    {s t : α} (h : Reaches guard body s t) (hI : I s) : I t := by
  induction h with
  | refl => exact hI
  | step _ hg hb ih => exact hstep _ _ ih hg hb

end PgKmcb.Lib
