import Mathlib.Logic.Function.Basic

namespace Interleaving

variable {Shared Local : Type}

-- one atomic step of the thread `t`: it sees the shared memory and its own state only
abbrev System (Shared Local : Type) := (t : Nat) → Shared → Local → Shared × Local

structure Config (Shared Local : Type) where
  shared : Shared
  locals : Nat → Local

variable (sys : System Shared Local)

def step (c : Config Shared Local) (t : Nat) : Config Shared Local where
  shared := (sys t c.shared (c.locals t)).1
  locals := Function.update c.locals t (sys t c.shared (c.locals t)).2

-- a schedule names the thread that moves next, one move after the other
def run (schedule : List Nat) (c : Config Shared Local) : Config Shared Local :=
  schedule.foldl (step sys) c

variable {sys}

theorem step_self (c : Config Shared Local) (t : Nat) :
    (step sys c t).locals t = (sys t c.shared (c.locals t)).2 :=
  Function.update_self t _ c.locals

theorem step_other (c : Config Shared Local) {t u : Nat} (h : u ≠ t) :
    (step sys c t).locals u = c.locals u :=
  Function.update_of_ne h _ c.locals

theorem run_of_not_mem {schedule : List Nat} {u : Nat} (h : u ∉ schedule)
    (c : Config Shared Local) : (run sys schedule c).locals u = c.locals u := by
  induction schedule generalizing c with
  | nil => rfl
  | cons t schedule ih =>
    rw [List.mem_cons, not_or] at h
    exact (ih h.2 (step sys c t)).trans (step_other c h.1)

variable {active : Nat → Prop} {G : Shared → Prop} {L : Nat → Shared → Local → Prop}
  {ok : Local → Prop}

structure Upholds (sys : System Shared Local) (active : Nat → Prop) (G : Shared → Prop)
    (L : Nat → Shared → Local → Prop) (ok : Local → Prop) : Prop where
  earlier : ∀ t g l, ok (sys t g l).2 → ok l
  shared : ∀ t g l, active t → G g → L t g l → ok (sys t g l).2 → G (sys t g l).1
  own : ∀ t g l, active t → G g → L t g l → ok (sys t g l).2 → L t (sys t g l).1 (sys t g l).2
  other : ∀ t u g l m, u ≠ t → L t g l → L u g m → L u (sys t g l).1 m

theorem step_ok (h : Upholds sys active G L ok) {c : Config Shared Local} {t : Nat}
    (hok : ∀ u, ok ((step sys c t).locals u)) (u : Nat) : ok (c.locals u) := by
  have hu := hok u
  by_cases hut : u = t
  · subst hut
    rw [step_self] at hu
    exact h.earlier _ _ _ hu
  · rwa [step_other c hut] at hu

theorem step_upholds (h : Upholds sys active G L ok) {c : Config Shared Local} {t : Nat}
    (ht : active t) (hG : G c.shared) (hL : ∀ u, L u c.shared (c.locals u))
    (hok : ∀ u, ok ((step sys c t).locals u)) :
    G (step sys c t).shared ∧ ∀ u, L u (step sys c t).shared ((step sys c t).locals u) := by
  have hown : ok (sys t c.shared (c.locals t)).2 := step_self c t ▸ hok t
  refine ⟨h.shared t _ _ ht hG (hL t) hown, fun u => ?_⟩
  by_cases hut : u = t
  · subst hut
    rw [step_self]
    exact h.own u _ _ ht hG (hL u) hown
  · rw [step_other c hut]
    exact h.other t u _ _ _ hut (hL t) (hL u)

theorem run_ok (h : Upholds sys active G L ok) (schedule : List Nat) :
    ∀ {c : Config Shared Local}, (∀ u, ok ((run sys schedule c).locals u)) →
      ∀ u, ok (c.locals u) := by
  induction schedule with
  | nil => exact fun hok => hok
  | cons t schedule ih => exact fun hok => step_ok h (ih hok)

-- `ok` is read back from the end of the run, the invariant is carried forward
theorem run_upholds (h : Upholds sys active G L ok) {schedule : List Nat}
    (hactive : ∀ t ∈ schedule, active t) :
    ∀ {c : Config Shared Local}, G c.shared → (∀ u, L u c.shared (c.locals u)) →
      (∀ u, ok ((run sys schedule c).locals u)) →
      G (run sys schedule c).shared ∧
        ∀ u, L u (run sys schedule c).shared ((run sys schedule c).locals u) := by
  induction schedule with
  | nil => exact fun hG hL _ => ⟨hG, hL⟩
  | cons t schedule ih =>
    intro c hG hL hok
    rw [List.forall_mem_cons] at hactive
    obtain ⟨hG', hL'⟩ := step_upholds h hactive.1 hG hL (run_ok h schedule hok)
    exact ih hactive.2 hG' hL' hok

end Interleaving
