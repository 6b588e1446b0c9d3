import EmpTool.Library.Process
import Mathlib.Logic.Function.Basic

namespace Await

open Process

variable {σ ι α : Type} {Reply : ι → Type}

-- tasks complete by themselves, and the caller goes on once the task it asks for has completed
structure Config (σ ι : Type) (Reply : ι → Type) (α : Type) where
  done : ι → Bool
  caller : Proc σ ι Reply α

inductive Move (ι : Type) where
  | complete (task : ι)
  | advance
deriving DecidableEq, Repr

def advance (result : (task : ι) → Reply task) (done : ι → Bool) :
    Proc σ ι Reply α → Proc σ ι Reply α
  | .call s task resume => if done task then resume (result task) else .call s task resume
  | .ret s a => .ret s a
  | .fail message => .fail message

variable [DecidableEq ι] (result : (task : ι) → Reply task)

def step (c : Config σ ι Reply α) : Move ι → Config σ ι Reply α
  | .complete task => { c with done := Function.update c.done task true }
  | .advance => { c with caller := advance result c.done c.caller }

def run (moves : List (Move ι)) (c : Config σ ι Reply α) : Config σ ι Reply α :=
  moves.foldl (step result) c

-- all that the caller knows is which tasks it has asked for; `asks` are those it may ask for
def contract (asks : ι → Prop) : Contract σ ι Reply (ι → Prop) where
  allowed task reply := reply = result task
  answer known task _ := fun t => known t ∨ t = task
  calling _ _ task := asks task
  failing _ := False

section Safety

variable {result} {asks : ι → Prop} {post : (ι → Prop) → σ → α → Prop}

theorem step_done (c : Config σ ι Reply α) (move : Move ι) {task : ι} (h : c.done task = true) :
    (step result c move).done task = true := by
  cases move with
  | complete t =>
    show Function.update c.done t true task = true
    rw [Function.update_apply]
    split
    case isTrue heq => rfl
    case isFalse hne => exact h
  | advance => exact h

omit [DecidableEq ι] in
theorem advance_meets {done : ι → Bool} {known : ι → Prop} {p : Proc σ ι Reply α}
    (hmeets : p.Meets (contract result asks) post known)
    (hdone : ∀ task, known task → done task = true) :
    ∃ known, (advance result done p).Meets (contract result asks) post known ∧
      ∀ task, known task → done task = true := by
  cases p with
  | ret s a => exact ⟨known, hmeets, hdone⟩
  | fail message => exact hmeets.elim
  | call s task resume =>
    rw [advance]
    split
    case isTrue hready =>
      refine ⟨_, hmeets.2 (result task) rfl, fun t ht => ?_⟩
      rcases ht with ht | rfl
      · exact hdone t ht
      · exact hready
    case isFalse hwaiting => exact ⟨known, hmeets, hdone⟩

theorem run_meets {c : Config σ ι Reply α} {known : ι → Prop} (moves : List (Move ι))
    (hmeets : c.caller.Meets (contract result asks) post known)
    (hdone : ∀ task, known task → c.done task = true) :
    ∃ known, (run result moves c).caller.Meets (contract result asks) post known ∧
      ∀ task, known task → (run result moves c).done task = true := by
  induction moves generalizing c known with
  | nil => exact ⟨known, hmeets, hdone⟩
  | cons move moves ih =>
    have hstill : ∀ task, known task → (step result c move).done task = true :=
      fun task ht => step_done c move (hdone task ht)
    cases move with
    | complete t => exact ih (c := step result c (.complete t)) hmeets hstill
    | advance =>
      obtain ⟨known, hmeets, hdone⟩ := advance_meets hmeets hdone
      exact ih (c := step result c .advance) hmeets hdone

theorem run_returned {c : Config σ ι Reply α} {moves : List (Move ι)} {s : σ} {a : α}
    (hmeets : c.caller.Meets (contract result asks) post fun _ => False)
    (hreturned : (run result moves c).caller = .ret s a) :
    ∃ known, post known s a ∧ ∀ task, known task → (run result moves c).done task = true := by
  obtain ⟨known, hpost, hdone⟩ := run_meets moves hmeets fun _ h => h.elim
  rw [hreturned] at hpost
  exact ⟨known, hpost, hdone⟩

end Safety

section Progress

variable {result} {asks : ι → Prop} {post : (ι → Prop) → σ → α → Prop}

theorem run_append (moves later : List (Move ι)) (c : Config σ ι Reply α) :
    run result (moves ++ later) c = run result later (run result moves c) := by
  rw [run, run, run, List.foldl_append]

theorem run_completes (tasks : List ι) (c : Config σ ι Reply α) :
    run result (tasks.map .complete) c =
      { c with done := fun t => decide (t ∈ tasks) || c.done t } := by
  induction tasks generalizing c with
  | nil => rfl
  | cons task tasks ih =>
    rw [List.map_cons, run, List.foldl_cons]
    show run result (tasks.map .complete) (step result c (.complete task)) = _
    rw [ih]
    have hdone : ∀ t, (decide (t ∈ tasks) || Function.update c.done task true t) =
        (decide (t ∈ task :: tasks) || c.done t) := by
      intro t
      rw [Function.update_apply]
      by_cases ht : t = task
      · simp [ht]
      · simp [ht]
    rw [Config.mk.injEq]
    exact ⟨funext hdone, rfl⟩

theorem advances_return {done : ι → Bool} (hready : ∀ task, asks task → done task = true)
    {known : ι → Prop} (p : Proc σ ι Reply α)
    (hmeets : p.Meets (contract result asks) post known) :
    ∃ k s a, run result (List.replicate k .advance) ⟨done, p⟩ = ⟨done, .ret s a⟩ := by
  induction p generalizing known with
  | ret s a => exact ⟨0, s, a, rfl⟩
  | fail message => exact hmeets.elim
  | call s task resume ih =>
    obtain ⟨k, s', a, hrun⟩ := ih (result task) (hmeets.2 (result task) rfl)
    refine ⟨k + 1, s', a, ?_⟩
    have hstep : step result ⟨done, .call s task resume⟩ .advance =
        ⟨done, resume (result task)⟩ := by
      rw [step, advance, if_pos (hready task hmeets.1)]
    rw [List.replicate_succ, run, List.foldl_cons, hstep]
    exact hrun

end Progress

end Await
