import Mathlib.Data.Set.Lattice.Image
import Mathlib.Data.Stream.Init
import PgKmcb.Lib.Run

/-!
# Programs that draw values

A program that draws from a source runs on the stream of the values that it is going to
be given, and leaves the rest of that stream.  `Yields R x S` describes such a program
from both sides: on every stream it returns an element of `S`, and every element of `S`
is returned for some stream of values from `R`.

The second half asks for more than that: whatever the program is to leave behind, there
is a stream for it.  This is what lets two programs be run one after the other
(`Yields.bind`).
-/

universe u v

namespace PgKmcb.Lib

/-- A program that draws values of type `ρ`. -/
abbrev Draws (ρ : Type u) (ε : Type v) (α : Type u) := StateT (Stream' ρ) (Run ε) α

variable {ρ α β : Type u} {ε : Type v}

/-- The next value of the source. -/
def draw : Draws ρ ε ρ := fun s ↦ .ok (s.head, s.tail)

namespace Draws

/-- A program that returns hands its result and the rest of the stream to the next one. -/
theorem bind_run {x : Draws ρ ε α} {s s' : Stream' ρ} {a : α} (h : x s = .ok (a, s'))
    (f : α → Draws ρ ε β) : (x >>= f) s = f a s' := by
  show (x s >>= fun p ↦ f p.1 p.2) = _
  rw [h, Run.ok_bind]

theorem lift_bind_run {y : Run ε α} {a : α} (h : y = .ok a) (f : α → Draws ρ ε β)
    (s : Stream' ρ) : (StateT.lift y >>= f) s = f a s := by
  subst h
  rfl

end Draws

/-- The program always returns, what it returns is in `S`, and values from `R` are enough
to make it return any element of `S`. -/
structure Yields (R : Set ρ) (x : Draws ρ ε α) (S : Set α) : Prop where
  sound : ∀ s, ∃ a s', x s = .ok (a, s') ∧ a ∈ S
  complete : ∀ a ∈ S, ∀ s', s'.All (· ∈ R) → ∃ s, s.All (· ∈ R) ∧ x s = .ok (a, s')

namespace Yields

variable {R : Set ρ} {x : Draws ρ ε α} {S : Set α}

theorem pure (a : α) : Yields R (Pure.pure a : Draws ρ ε α) {a} where
  sound s := ⟨a, s, rfl, rfl⟩
  complete := by
    rintro b rfl s' hs'
    exact ⟨s', hs', rfl⟩

theorem congr {T : Set α} (hx : Yields R x S) (h : S = T) : Yields R x T := h ▸ hx

/-- A step that draws nothing comes before a program. -/
theorem lift_bind {y : Run ε α} {a : α} (h : y = .ok a) {f : α → Draws ρ ε β} {T : Set β}
    (hf : Yields R (f a) T) : Yields R (StateT.lift y >>= f) T := by
  subst h
  exact hf

/-- One program after the other, where the results of the first are made from `A`. -/
theorem bind_of_image {ι : Type*} {A : Set ι} {g : ι → α} {f : α → Draws ρ ε β} {T : ι → Set β}
    (hx : Yields R x (g '' A)) (hf : ∀ i ∈ A, Yields R (f (g i)) (T i)) :
    Yields R (x >>= f) (⋃ i ∈ A, T i) where
  sound s := by
    obtain ⟨_, s₁, hs₁, i, hi, rfl⟩ := hx.sound s
    obtain ⟨b, s₂, hs₂, hb⟩ := (hf i hi).sound s₁
    exact ⟨b, s₂, (Draws.bind_run hs₁ f).trans hs₂, Set.mem_biUnion hi hb⟩
  complete := by
    intro b hb s₂ hs₂
    obtain ⟨i, hi, hb⟩ := Set.mem_iUnion₂.mp hb
    obtain ⟨s₁, hs₁, hf₁⟩ := (hf i hi).complete b hb s₂ hs₂
    obtain ⟨s, hs, hx₁⟩ := hx.complete (g i) ⟨i, hi, rfl⟩ s₁ hs₁
    exact ⟨s, hs, (Draws.bind_run hx₁ f).trans hf₁⟩

/-- One program after the other. -/
theorem bind {f : α → Draws ρ ε β} {T : α → Set β} (hx : Yields R x S)
    (hf : ∀ a ∈ S, Yields R (f a) (T a)) : Yields R (x >>= f) (⋃ a ∈ S, T a) :=
  (hx.congr (Set.image_id S).symm).bind_of_image hf

/-- A program whose results have a form that the rest of the program takes apart. -/
theorem bind_image {ι : Type*} {A : Set ι} {g : ι → α} {h : ι → β} {f : α → Draws ρ ε β}
    (hx : Yields R x (g '' A)) (hf : ∀ i ∈ A, f (g i) = Pure.pure (h i)) :
    Yields R (x >>= f) (h '' A) := by
  have hpure : ∀ i ∈ A, Yields R (f (g i)) {h i} := by
    intro i hi
    rw [hf i hi]
    exact pure (h i)
  exact (hx.bind_of_image hpure).congr (Set.image_eq_iUnion h A).symm

/-- A program whose results are made into others. -/
theorem bind_pure (hx : Yields R x S) (f : α → β) :
    Yields R (x >>= fun a ↦ Pure.pure (f a)) (f '' S) :=
  (hx.congr (Set.image_id S).symm).bind_image fun _ _ ↦ rfl

/-- Two programs whose results are returned together. -/
theorem prod {y : Draws ρ ε β} {T : Set β} (hx : Yields R x S) (hy : Yields R y T) :
    Yields R (x >>= fun a ↦ y >>= fun b ↦ Pure.pure (a, b)) (S ×ˢ T) :=
  (hx.bind fun a _ ↦ hy.bind_pure (Prod.mk a)).congr Set.prod_eq_biUnion_left.symm

/-- A value that is drawn and put into another form: every form it can take is yielded if
the values from `R` can take it. -/
theorem draw_map {f : ρ → α} (hf : ∀ v, ∃ w ∈ R, f w = f v) :
    Yields R (draw >>= fun v ↦ Pure.pure (f v) : Draws ρ ε α) (Set.range f) where
  sound s := ⟨f s.head, s.tail, rfl, s.head, rfl⟩
  complete := by
    rintro a ⟨v, rfl⟩ s' hs'
    obtain ⟨w, hw, hwv⟩ := hf v
    refine ⟨Stream'.cons w s', ?_, ?_⟩
    · intro n
      cases n with
      | zero => exact hw
      | succ n => exact hs' n
    · rw [← hwv]
      rfl

/-- A loop that draws an item in every round and goes on to the next state: it yields what
is made of the lists of so many items.  What one round yields is to be shown for any sets
that the rest of the loop yields. -/
theorem loop {σ ι : Type*} {A : Set ι} (run : ℕ → σ → Draws ρ ε β) (next : σ → ι → σ)
    (out : σ → List ι → β) (P : ℕ → σ → Prop) (hzero : ∀ s, P 0 s → Yields R (run 0 s) {out s []})
    (hround : ∀ n s, P (n + 1) s → ∀ T : ι → Set β,
      (∀ a ∈ A, Yields R (run n (next s a)) (T a)) → Yields R (run (n + 1) s) (⋃ a ∈ A, T a))
    (hnext : ∀ n s a, P (n + 1) s → P n (next s a))
    (hout : ∀ n s a as, P (n + 1) s → out (next s a) as = out s (a :: as)) {n : ℕ} {s : σ}
    (h : P n s) : Yields R (run n s) (out s '' {as | as.length = n ∧ ∀ a ∈ as, a ∈ A}) := by
  induction n generalizing s with
  | zero =>
      refine (hzero s h).congr ?_
      ext b
      constructor
      · rintro rfl
        exact ⟨[], ⟨rfl, List.forall_mem_nil _⟩, rfl⟩
      · rintro ⟨as, ⟨has, -⟩, rfl⟩
        rw [List.length_eq_zero_iff.mp has]
        rfl
  | succ n ih =>
      refine (hround n s h _ fun a _ ↦ ih (hnext n s a h)).congr ?_
      ext b
      constructor
      · intro hb
        obtain ⟨a, ha, as, ⟨hlen, has⟩, rfl⟩ := Set.mem_iUnion₂.mp hb
        exact ⟨a :: as, ⟨congrArg (· + 1) hlen, List.forall_mem_cons.mpr ⟨ha, has⟩⟩,
          (hout n s a as h).symm⟩
      · rintro ⟨as, ⟨hlen, has⟩, rfl⟩
        cases as with
        | nil => cases hlen
        | cons a as =>
            obtain ⟨ha, has⟩ := List.forall_mem_cons.mp has
            exact Set.mem_biUnion ha ⟨as, ⟨Nat.succ.inj hlen, has⟩, hout n s a as h⟩

/-- The results for all streams of values, where more values than those of `R` make no
difference. -/
theorem setOf_results {R' : Set ρ} (hx : Yields R x S) (hR : R.Nonempty) (hsub : R ⊆ R') :
    {a | ∃ s s', s.All (· ∈ R') ∧ x s = .ok (a, s')} = S := by
  ext a
  constructor
  · rintro ⟨s, s', -, hs⟩
    obtain ⟨b, s'', hb, hmem⟩ := hx.sound s
    rw [hs] at hb
    cases hb
    exact hmem
  · intro ha
    obtain ⟨r, hr⟩ := hR
    obtain ⟨s, hs, hrun⟩ := hx.complete a ha (Stream'.const r) fun _ ↦ hr
    exact ⟨s, _, fun n ↦ hsub (hs n), hrun⟩

end Yields

end PgKmcb.Lib
