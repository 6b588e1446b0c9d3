import Mathlib.Tactic.TypeStar

namespace Transition

variable {σ μ : Type*} (step : σ → μ → Option σ)

def run (s : σ) : List μ → Option σ
  | [] => some s
  | m :: ms => (step s m).bind fun s' => run s' ms

variable {step}

theorem run_cons {s s' : σ} {m : μ} {ms : List μ} :
    run step s (m :: ms) = some s' ↔ ∃ s₁, step s m = some s₁ ∧ run step s₁ ms = some s' :=
  Option.bind_eq_some_iff

theorem run_append {s s' : σ} {ms ms' : List μ} :
    run step s (ms ++ ms') = some s' ↔
      ∃ s₁, run step s ms = some s₁ ∧ run step s₁ ms' = some s' := by
  induction ms generalizing s with
  | nil => simp [run]
  | cons m ms ih =>
    simp only [List.cons_append, run_cons, ih]
    constructor
    · rintro ⟨s₁, hm, s₂, hms, hms'⟩
      exact ⟨s₂, ⟨s₁, hm, hms⟩, hms'⟩
    · rintro ⟨s₂, ⟨s₁, hm, hms⟩, hms'⟩
      exact ⟨s₁, hm, s₂, hms, hms'⟩

section Invariant

variable {Inv : σ → Prop}

theorem run_invariant (hstep : ∀ s m s', Inv s → step s m = some s' → Inv s') {s s' : σ}
    {ms : List μ} (hs : Inv s) (hrun : run step s ms = some s') : Inv s' := by
  induction ms generalizing s with
  | nil => exact Option.some.inj hrun ▸ hs
  | cons m ms ih =>
    obtain ⟨s₁, hm, hms⟩ := run_cons.mp hrun
    exact ih (hstep s m s₁ hs hm) hms

def gains (gain : μ → Nat) : List μ → Nat
  | [] => 0
  | m :: ms => gain m + gains gain ms

variable {weight : σ → Nat} {gain : μ → Nat}

-- every move uses up weight, up to what its kind may add
theorem run_length_le (hinv : ∀ s m s', Inv s → step s m = some s' → Inv s')
    (hweight : ∀ s m s', Inv s → step s m = some s' → weight s' + 1 ≤ weight s + gain m)
    {s s' : σ} {ms : List μ} (hs : Inv s) (hrun : run step s ms = some s') :
    ms.length + weight s' ≤ weight s + gains gain ms := by
  induction ms generalizing s with
  | nil =>
    obtain rfl := Option.some.inj hrun
    simp [gains]
  | cons m ms ih =>
    obtain ⟨s₁, hm, hms⟩ := run_cons.mp hrun
    have hrest := ih (hinv s m s₁ hs hm) hms
    have hfirst := hweight s m s₁ hs hm
    rw [List.length_cons, gains]
    omega

variable {final : σ → Prop}

-- where some move that gains nothing is always enabled, such moves lead to the end
theorem reaches_final (hinv : ∀ s m s', Inv s → step s m = some s' → Inv s')
    (hweight : ∀ s m s', Inv s → step s m = some s' → weight s' + 1 ≤ weight s + gain m)
    (hprogress : ∀ s, Inv s → ¬ final s → ∃ m s', gain m = 0 ∧ step s m = some s') {s : σ}
    (hs : Inv s) :
    ∃ ms s', (∀ m ∈ ms, gain m = 0) ∧ run step s ms = some s' ∧ final s' := by
  induction hw : weight s using Nat.strongRecOn generalizing s with
  | ind w ih =>
    by_cases hf : final s
    · exact ⟨[], s, nofun, rfl, hf⟩
    · obtain ⟨m, s₁, hgain, hm⟩ := hprogress s hs hf
      have hless := hweight s m s₁ hs hm
      obtain ⟨ms, s', hms, hrun, hf'⟩ := ih (weight s₁) (by omega) (hinv s m s₁ hs hm) rfl
      exact ⟨m :: ms, s', List.forall_mem_cons.mpr ⟨hgain, hms⟩, run_cons.mpr ⟨s₁, hm, hrun⟩, hf'⟩

end Invariant

end Transition
