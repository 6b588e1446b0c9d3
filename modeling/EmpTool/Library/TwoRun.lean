import Mathlib.Logic.Basic

namespace TwoRun

variable {σ ε α β : Type}

-- two runs end alike: in the same failure, or with the same result in related states
def Agree (R : σ → σ → Prop) : Except ε (α × σ) → Except ε (α × σ) → Prop
  | .ok (a, s), .ok (b, s') => a = b ∧ R s s'
  | .error e, .error e' => e = e'
  | _, _ => False

def Respects (R : σ → σ → Prop) (x : StateT σ (Except ε) α) : Prop :=
  ∀ s s', R s s' → Agree R (x s) (x s')

variable {R : σ → σ → Prop}

theorem respects_pure (a : α) : Respects R (pure a : StateT σ (Except ε) α) :=
  fun _ _ h => ⟨rfl, h⟩

theorem respects_bind {x : StateT σ (Except ε) α} {f : α → StateT σ (Except ε) β}
    (hx : Respects R x) (hf : ∀ a, Respects R (f a)) : Respects R (x >>= f) := by
  intro s s' h
  have hxs := hx s s' h
  show Agree R (x s >>= fun r => f r.1 r.2) (x s' >>= fun r => f r.1 r.2)
  revert hxs
  cases x s with
  | error e =>
    cases x s' with
    | error e' => exact id
    | ok r' => exact fun hxs => hxs.elim
  | ok r =>
    cases x s' with
    | error e' => exact fun hxs => hxs.elim
    | ok r' =>
      rintro ⟨ha, hr⟩
      show Agree R (f r.1 r.2) (f r'.1 r'.2)
      rw [← ha]
      exact hf r.1 r.2 r'.2 hr

theorem respects_map {x : StateT σ (Except ε) α} (f : α → β) (hx : Respects R x) :
    Respects R (f <$> x) := by
  rw [map_eq_pure_bind]
  exact respects_bind hx fun a => respects_pure (f a)

theorem respects_lift (x : Except ε α) : Respects R (liftM x : StateT σ (Except ε) α) := by
  intro s s' h
  cases x with
  | error e => exact rfl
  | ok a => exact ⟨rfl, h⟩

theorem respects_ite {c : Prop} [Decidable c] {x y : StateT σ (Except ε) α} (hx : Respects R x)
    (hy : Respects R y) : Respects R (if c then x else y) := by
  split
  · exact hx
  · exact hy

theorem respects_mapM {f : α → StateT σ (Except ε) β} (hf : ∀ a, Respects R (f a))
    (xs : List α) : Respects R (xs.mapM f) := by
  induction xs with
  | nil => exact respects_pure []
  | cons x xs ih =>
    rw [List.mapM_cons]
    exact respects_bind (hf x) fun b => respects_bind ih fun bs => respects_pure (b :: bs)

end TwoRun
