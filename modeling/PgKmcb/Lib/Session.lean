import PgKmcb.Lib.Run
import Mathlib.Data.List.Forall2

/-!
# Sessions

Calls on one object, one after the other, where each call may change the object.
`session_spec` is the rule for a session that returns: an invariant of the object, and
what relates the answer of a call to its request.  `session_invariant` is the rule for a
session of which nothing else is known.

`session_mirror` is about two parties.  One makes the calls of a session; the other one
starts with an equal object and answers each answer with a call of its own.  If such a
call undoes one call, the second party ends with the requests of the first one and with
an equal object.
-/

universe u v

namespace PgKmcb.Lib

variable {ε : Type v} {σ X Y : Type u}

/-- The calls of a session. -/
def session (call : σ → X → Run ε (σ × Y)) : σ → List X → Run ε (σ × List Y)
  | s, [] => .ok (s, [])
  | s, x :: xs => do
      let (s, y) ← call s x
      let (s, ys) ← session call s xs
      return (s, y :: ys)

variable {f : σ → X → Run ε (σ × Y)}

@[simp] theorem session_nil (s : σ) : session f s [] = .ok (s, []) := rfl

theorem session_cons (s : σ) (x : X) (xs : List X) : session f s (x :: xs) =
    f s x >>= fun r ↦ session f r.1 xs >>= fun t ↦ .ok (t.1, r.2 :: t.2) := rfl

theorem session_cons_of_ok {s s' : σ} {x : X} {y : Y} (h : f s x = .ok (s', y))
    (xs : List X) : session f s (x :: xs) =
      session f s' xs >>= fun t ↦ .ok (t.1, y :: t.2) := by
  rw [session_cons, h, Run.ok_bind]

/-- A session of one call and more returns when both parts do. -/
theorem session_cons_eq_ok {s s'' : σ} {x : X} {xs : List X} {zs : List Y} :
    session f s (x :: xs) = .ok (s'', zs) ↔
      ∃ s' y ys, f s x = .ok (s', y) ∧ session f s' xs = .ok (s'', ys) ∧
        y :: ys = zs := by
  rw [session_cons]
  constructor
  · intro h
    obtain ⟨r, hr, h⟩ := Run.bind_eq_ok.mp h
    obtain ⟨t, ht, h⟩ := Run.bind_eq_ok.mp h
    cases h
    exact ⟨r.1, r.2, t.2, hr, ht, rfl⟩
  · rintro ⟨s', y, ys, hcall, hrest, rfl⟩
    rw [hcall, Run.ok_bind, hrest, Run.ok_bind]

/-- The rule for sessions that return. -/
theorem session_spec (I : σ → Prop) (R : X → Y → Prop) {xs : List X}
    (hcall : ∀ s, ∀ x ∈ xs, I s → ∃ s' y, f s x = .ok (s', y) ∧ I s' ∧ R x y)
    {s : σ} (hI : I s) :
    ∃ s' ys, session f s xs = .ok (s', ys) ∧ I s' ∧ List.Forall₂ R xs ys := by
  induction xs generalizing s with
  | nil => exact ⟨s, [], rfl, hI, .nil⟩
  | cons x xs ih =>
      obtain ⟨s', y, hy, hI', hR⟩ := hcall s x List.mem_cons_self hI
      obtain ⟨s'', ys, hys, hI'', hRs⟩ :=
        ih (fun s x hx ↦ hcall s x (List.mem_cons_of_mem _ hx)) hI'
      exact ⟨s'', y :: ys, session_cons_eq_ok.mpr ⟨s', y, ys, hy, hys, rfl⟩, hI'',
        .cons hR hRs⟩

/-- The rule for a session of which it is known only that it has returned. -/
theorem session_invariant (I : σ → Prop) (R : X → Y → Prop)
    (hcall : ∀ s x s' y, I s → f s x = .ok (s', y) → I s' ∧ R x y) {s s' : σ}
    {xs : List X} {ys : List Y} (h : session f s xs = .ok (s', ys)) (hI : I s) :
    I s' ∧ List.Forall₂ R xs ys := by
  induction xs generalizing s ys with
  | nil =>
      cases h
      exact ⟨hI, .nil⟩
  | cons x xs ih =>
      obtain ⟨s₁, y, ys, hy, hys, rfl⟩ := session_cons_eq_ok.mp h
      obtain ⟨hI₁, hR⟩ := hcall s x s₁ y hI hy
      obtain ⟨hI', hRs⟩ := ih hys hI₁
      exact ⟨hI', .cons hR hRs⟩

/-- A session that returns has made each of its calls, and each has returned. -/
theorem session_requests (I : σ → Prop) (V : X → Prop)
    (hcall : ∀ s x s' y, I s → f s x = .ok (s', y) → I s' ∧ V x) {s s' : σ}
    {xs : List X} {ys : List Y} (h : session f s xs = .ok (s', ys)) (hI : I s) :
    ∀ x ∈ xs, V x := by
  have hall := (session_invariant I (fun x (_ : Y) ↦ V x ∧ True)
    (fun s x s' y hI h ↦ ⟨(hcall s x s' y hI h).1, (hcall s x s' y hI h).2, trivial⟩) h hI).2
  exact ((List.forall₂_and_left xs ys).mp hall).1

/-- The other party answers each answer `y` to a request `x` with the request
`mirror x y`, and the call that it makes gives `back x`. -/
theorem session_mirror {mirror : X → Y → X} {back : X → Y}
    (hcall : ∀ s x s' y, f s x = .ok (s', y) →
      f s (mirror x y) = .ok (s', back x))
    {s s' : σ} {xs : List X} {ys : List Y} (h : session f s xs = .ok (s', ys)) :
    session f s (List.zipWith mirror xs ys) = .ok (s', xs.map back) := by
  induction xs generalizing s ys with
  | nil =>
      cases h
      rfl
  | cons x xs ih =>
      obtain ⟨s₁, y, ys, hy, hys, rfl⟩ := session_cons_eq_ok.mp h
      rw [List.zipWith_cons_cons, List.map_cons, session_cons_of_ok (hcall s x s₁ y hy), ih hys,
        Run.ok_bind]

theorem session_map {Z : Type u} (g : Z → X) (s : σ) (zs : List Z) :
    session f s (zs.map g) = session (fun s z ↦ f s (g z)) s zs := by
  induction zs generalizing s with
  | nil => rfl
  | cons z zs ih => simp only [List.map_cons, session_cons, ih]

/-- Data that is cut into calls: if a call on two pieces is the call on the first one and
then the call on the second one, a session is one call on all of the data. -/
theorem session_flatten {α β : Type u} {f : σ → List α → Run ε (σ × List β)}
    {P Q : List α → Prop} (hQ : ∀ xs xs', P xs → Q xs' → Q (xs ++ xs'))
    (hcall : ∀ s xs xs', P xs → Q xs' → f s (xs ++ xs') =
      f s xs >>= fun r ↦ f r.1 xs' >>= fun t ↦ .ok (t.1, r.2 ++ t.2))
    {pieces : List (List α)} {rest : List α} (hpieces : ∀ xs ∈ pieces, P xs) (hrest : Q rest)
    (s : σ) :
    (session f s (pieces ++ [rest])).map (fun r ↦ (r.1, r.2.flatten)) =
      f s (pieces.flatten ++ rest) ∧ Q (pieces.flatten ++ rest) := by
  induction pieces generalizing s with
  | nil =>
      refine ⟨?_, hrest⟩
      rw [List.nil_append, session_cons, List.flatten_nil, List.nil_append]
      cases f s rest with
      | error e => rfl
      | ok r => simp [Except.map]
  | cons xs pieces ih =>
      have hxs := hpieces xs List.mem_cons_self
      have ih' := ih fun xs hxs ↦ hpieces xs (List.mem_cons_of_mem _ hxs)
      have hflat : (xs :: pieces).flatten ++ rest = xs ++ (pieces.flatten ++ rest) := by simp
      rw [hflat]
      refine ⟨?_, hQ xs _ hxs (ih' s).2⟩
      rw [hcall s xs _ hxs (ih' s).2, List.cons_append, session_cons]
      cases f s xs with
      | error e => rfl
      | ok r =>
          rw [Run.ok_bind, Run.ok_bind, ← (ih' r.1).1]
          cases session f r.1 (pieces ++ [rest]) with
          | error e => rfl
          | ok t => rfl

end PgKmcb.Lib
