import Mathlib.Data.Int.CardIntervalMod
import Mathlib.Data.Set.Card
import PgKmcb.Lib.Draws

/-!
# Counting draws

A program that draws a fixed number of values `Consumes` them.  If every value is as likely
as any other, what a result weighs is the number of the lists of values that lead to it.
For values that are turned into items one by one, that number is a product
(`ncard_map_eq`); for items that are remainders, each factor is known (`ncard_mod_eq`).
-/

universe u v

namespace PgKmcb.Lib

variable {ρ α β : Type u} {ε : Type v} {n : ℕ}

/-- The program draws so many values and makes `f` of them. -/
def Consumes (n : ℕ) (x : Draws ρ ε α) (f : List ρ → α) : Prop :=
  ∀ vs : List ρ, vs.length = n → ∀ s, x (vs ++ₛ s) = .ok (f vs, s)

namespace Consumes

variable {f : List ρ → α}

theorem pure (a : α) : Consumes 0 (Pure.pure a : Draws ρ ε α) fun _ ↦ a := by
  intro vs hvs s
  obtain rfl := List.length_eq_zero_iff.mp hvs
  rfl

theorem congr {x : Draws ρ ε α} {g : List ρ → α} (hx : Consumes n x f)
    (h : ∀ vs, vs.length = n → f vs = g vs) : Consumes n x g := by
  intro vs hvs s
  rw [hx vs hvs s, h vs hvs]

/-- A value is drawn before a program that depends on it. -/
theorem draw_bind {g : ρ → Draws ρ ε α} (h : ∀ v, Consumes n (g v) fun vs ↦ f (v :: vs)) :
    Consumes (n + 1) (draw >>= g) f := by
  intro vs hvs s
  obtain ⟨v, vs, rfl⟩ := List.exists_cons_of_length_eq_add_one hvs
  exact h v vs (Nat.succ.inj hvs) s

/-- A step that draws nothing comes before a program. -/
theorem lift_bind {y : Run ε β} {b : β} (h : y = .ok b) {g : β → Draws ρ ε α}
    (hg : Consumes n (g b) f) : Consumes n (StateT.lift y >>= g) f :=
  fun vs hvs s ↦ (Draws.lift_bind_run h g _).trans (hg vs hvs s)

/-- What a program makes of its values goes to a program that draws nothing. -/
theorem bind_run {x : Draws ρ ε α} (hx : Consumes n x f) (g : α → Draws ρ ε β) {vs : List ρ}
    (hvs : vs.length = n) (s : Stream' ρ) : (x >>= g) (vs ++ₛ s) = g (f vs) s :=
  Draws.bind_run (hx vs hvs s) g

end Consumes

/-- The lists of values that are turned into a list of items. -/
theorem ncard_map_eq {ι κ : Type*} (R : Set ι) (g : ι → κ) (bs : List κ) :
    {vs : List ι | (∀ v ∈ vs, v ∈ R) ∧ vs.map g = bs}.ncard =
      (bs.map fun b ↦ {v | v ∈ R ∧ g v = b}.ncard).prod := by
  induction bs with
  | nil =>
      have hnil : {vs : List ι | (∀ v ∈ vs, v ∈ R) ∧ vs.map g = []} = {[]} := by
        ext vs
        rw [Set.mem_ofPred_eq, List.map_eq_nil_iff, Set.mem_singleton_iff]
        exact and_iff_right_of_imp fun h ↦ h ▸ List.forall_mem_nil _
      rw [hnil, Set.ncard_singleton]
      rfl
  | cons b bs ih =>
      have hcons : {vs : List ι | (∀ v ∈ vs, v ∈ R) ∧ vs.map g = b :: bs} =
          (fun p : ι × List ι ↦ p.1 :: p.2) ''
            ({v | v ∈ R ∧ g v = b} ×ˢ {vs | (∀ v ∈ vs, v ∈ R) ∧ vs.map g = bs}) := by
        ext vs
        constructor
        · rintro ⟨hR, hmap⟩
          obtain ⟨v, vs, rfl, hv, hvs⟩ := List.map_eq_cons_iff.mp hmap
          obtain ⟨hvR, hvsR⟩ := List.forall_mem_cons.mp hR
          exact ⟨(v, vs), ⟨⟨hvR, hv⟩, hvsR, hvs⟩, rfl⟩
        · rintro ⟨⟨v, vs⟩, ⟨⟨hvR, hv⟩, hvsR, hvs⟩, rfl⟩
          exact ⟨List.forall_mem_cons.mpr ⟨hvR, hvsR⟩,
            List.map_eq_cons_iff.mpr ⟨v, vs, rfl, hv, hvs⟩⟩
      have hinj : Function.Injective fun p : ι × List ι ↦ p.1 :: p.2 := by
        rintro ⟨v, vs⟩ ⟨w, ws⟩ h
        obtain ⟨rfl, rfl⟩ := List.cons.inj h
        rfl
      rw [hcons, Set.ncard_image_of_injective _ hinj, Set.ncard_prod, ih, List.map_cons,
        List.prod_cons]

/-- The numbers below `N` that leave a remainder. -/
theorem ncard_mod_eq (N : ℕ) {m r : ℕ} (hr : r < m) :
    {v | v < N ∧ v % m = r}.ncard = N / m + if r < N % m then 1 else 0 := by
  have hset : {v | v < N ∧ v % m = r} = ↑((Finset.range N).filter (· ≡ r [MOD m])) := by
    ext v
    simp [Nat.ModEq, Nat.mod_eq_of_lt hr]
  rw [hset, Set.ncard_coe_finset, ← Nat.count_eq_card_filter_range,
    Nat.count_modEq_card _ (Nat.zero_lt_of_lt hr), Nat.mod_eq_of_lt hr]

end PgKmcb.Lib
