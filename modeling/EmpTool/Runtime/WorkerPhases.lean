import EmpTool.Runtime.WorkerQueue

namespace EmpTool.WorkerPool

def Owner.Stopped : Owner → Prop
  | .notifying => True
  | .joining _ => True
  | .done => True
  | _ => False

def Owner.Woken : Owner → Prop
  | .joining _ => True
  | .done => True
  | _ => False

def Owner.joined (n : Nat) : Owner → Nat
  | .joining i => i
  | .done => n
  | _ => 0

structure Phased (n : Nat) (s : State) : Prop where
  stop : s.stop = true ↔ s.owner.Stopped
  awake : s.owner.Woken → ∀ i, ¬ (s.workers i).IsWaiting
  exited : ∀ i, (s.workers i).IsExited → s.stop = true ∧ s.tasks = []
  joined : ∀ i < s.owner.joined n, (s.workers i).IsExited
  bound : s.owner.joined n ≤ n

def Idle (n : Nat) (s : State) : Prop :=
  ∀ i, n ≤ i → s.workers i = .locking

-- no notification is lost while a task is in the queue
def Watched (n : Nat) (s : State) : Prop :=
  s.tasks ≠ [] → (∃ i < n, ¬ (s.workers i).IsWaiting) ∨ s.calls .owner = some .notifying

-- only a task can enqueue on a stopped pool
def Refused (s : State) : Prop :=
  s.failed = true → s.stop = true ∧ ∃ i job, s.calls (.worker i) = some (.pushing job)

section

variable {n : Nat} {s s' : State} {m : Move} {i : Nat} {w : Worker}

theorem Owner.Woken.stopped {o : Owner} (h : o.Woken) : o.Stopped := by
  cases o with
  | joining i => trivial
  | done => trivial
  | body code => exact h.elim
  | locking => exact h.elim
  | stopping => exact h.elim
  | notifying => exact h.elim

theorem Phased.setWorker (hs : Phased n s) (hi : ¬ (s.workers i).IsExited)
    (hwait : w.IsWaiting → s.stop = false)
    (hexit : w.IsExited → s.stop = true ∧ s.tasks = [])
    (hw' : s'.workers = Function.update s.workers i w) (ho' : s'.owner = s.owner)
    (hstop' : s'.stop = s.stop) (htasks' : s.tasks = [] → s'.tasks = []) : Phased n s' := by
  constructor
  · rw [hstop', ho']
    exact hs.stop
  · intro h j hj
    rw [ho'] at h
    rw [hw', Function.update_apply] at hj
    split at hj
    · exact Bool.false_ne_true ((hwait hj).symm.trans (hs.stop.mpr h.stopped))
    · exact hs.awake h j hj
  · intro j hj
    rw [hw', Function.update_apply] at hj
    rw [hstop']
    split at hj
    · exact (hexit hj).imp_right htasks'
    · exact (hs.exited j hj).imp_right htasks'
  · intro j hj
    rw [ho'] at hj
    have hne : j ≠ i := fun e => hi (e ▸ hs.joined j hj)
    rw [hw', Function.update_of_ne hne]
    exact hs.joined j hj
  · rw [ho']
    exact hs.bound

theorem Phased.setOwner (hs : Phased n s) (ho : ¬ s.owner.Stopped) (ho' : ¬ s'.owner.Stopped)
    (hj' : s'.owner.joined n = 0) (hw' : s'.workers = s.workers) (hstop' : s'.stop = s.stop)
    (htasks' : s'.tasks = s.tasks) : Phased n s' := by
  have hstop : s.stop ≠ true := fun h => ho (hs.stop.mp h)
  constructor
  · rw [hstop']
    exact iff_of_false hstop ho'
  · exact fun h => absurd h.stopped ho'
  · rw [hw', hstop', htasks']
    exact hs.exited
  · rw [hj']
    exact fun i hi => absurd hi (Nat.not_lt_zero i)
  · rw [hj']
    exact Nat.zero_le n

theorem event_phased (h : Event n s m s') (hs : Phased n s) : Phased n s' := by
  cases h with
  | acquire t choice job ht hc hl => exact ⟨hs.stop, hs.awake, hs.exited, hs.joined, hs.bound⟩
  | reject t choice job ht hc hstop => exact ⟨hs.stop, hs.awake, hs.exited, hs.joined, hs.bound⟩
  | push t choice job ht hc hstop =>
    refine ⟨hs.stop, hs.awake, fun i hi => ?_, hs.joined, hs.bound⟩
    exact absurd ((hs.exited i hi).1.symm.trans hstop) Bool.true_eq_false.mp
  | wake t choice ht hc hi hw =>
    refine hs.setWorker ?_ False.elim False.elim rfl rfl rfl id
    cases hcase : s.workers choice <;> simp_all [Worker.IsWaiting, Worker.IsExited]
  | wakeNone t choice ht hc hw => exact ⟨hs.stop, hs.awake, hs.exited, hs.joined, hs.bound⟩
  | lock i choice hi hc hw hl =>
    exact hs.setWorker (by simp [hw, Worker.IsExited]) False.elim False.elim rfl rfl rfl id
  | exit i choice hi hc hw hq hstop =>
    exact hs.setWorker (by simp [hw, Worker.IsExited]) False.elim (fun _ => ⟨hstop, hq⟩)
      rfl rfl rfl id
  | wait i choice hi hc hw hq hstop =>
    exact hs.setWorker (by simp [hw, Worker.IsExited]) (fun _ => hstop) False.elim rfl rfl rfl id
  | pop i choice job rest hi hc hw hq =>
    refine hs.setWorker (by simp [hw, Worker.IsExited]) False.elim False.elim rfl rfl rfl ?_
    intro h
    exact absurd (hq.symm.trans h) (List.cons_ne_nil job rest)
  | spawn i choice ticket job children hi hc hw =>
    exact hs.setWorker (by simp [hw, Worker.IsExited]) False.elim False.elim rfl rfl rfl id
  | finish i choice ticket hi hc hw =>
    exact hs.setWorker (by simp [hw, Worker.IsExited]) False.elim False.elim rfl rfl rfl id
  | submit choice job code hc ho =>
    exact hs.setOwner (by simp [ho, Owner.Stopped]) id rfl rfl rfl rfl
  | get choice k code hc ho => exact hs.setOwner (by simp [ho, Owner.Stopped]) id rfl rfl rfl rfl
  | destroy choice hc ho => exact hs.setOwner (by simp [ho, Owner.Stopped]) id rfl rfl rfl rfl
  | ownerLock choice hc ho hl =>
    exact hs.setOwner (by simp [ho, Owner.Stopped]) id rfl rfl rfl rfl
  | stop choice hc ho =>
    have hstop : s.stop ≠ true := fun h => by simpa [ho, Owner.Stopped] using hs.stop.mp h
    refine ⟨iff_of_true rfl trivial, False.elim, fun i hi => ?_, fun i hi => ?_, Nat.zero_le n⟩
    · exact absurd (hs.exited i hi).1 hstop
    · exact absurd hi (Nat.not_lt_zero i)
  | wakeAll choice hc ho =>
    have hstop : s.stop = true := hs.stop.mpr (by simp [ho, Owner.Stopped])
    refine ⟨iff_of_true hstop trivial, fun _ i => ?_, fun i hi => ?_, fun i hi => ?_,
      Nat.zero_le n⟩
    · simp only [notifyAll]
      split
      · exact id
      · assumption
    · by_cases hw : (s.workers i).IsWaiting
      · simp [notifyAll, hw, Worker.IsExited] at hi
      · simp only [notifyAll, hw, if_false] at hi
        exact hs.exited i hi
    · exact absurd hi (Nat.not_lt_zero i)
  | joined choice hc ho =>
    have hstop : s.stop = true := hs.stop.mpr (by simp [ho, Owner.Stopped])
    refine ⟨iff_of_true hstop trivial, fun _ => hs.awake (by simp [ho, Owner.Woken]), hs.exited, ?_,
      le_refl n⟩
    have hjoined := hs.joined
    rw [ho] at hjoined
    exact hjoined
  | join choice i hc ho hi hw =>
    have hstop : s.stop = true := hs.stop.mpr (by simp [ho, Owner.Stopped])
    have hjoined := hs.joined
    have hbound := hs.bound
    rw [ho] at hjoined hbound
    refine ⟨iff_of_true hstop trivial, fun _ => hs.awake (by simp [ho, Owner.Woken]), hs.exited, ?_,
      Nat.lt_of_le_of_ne hbound hi⟩
    intro j hj
    rcases Nat.lt_succ_iff_lt_or_eq.mp hj with hj | rfl
    · exact hjoined j hj
    · exact hw
  | spurious i hi hw =>
    refine hs.setWorker ?_ False.elim False.elim rfl rfl rfl id
    cases hcase : s.workers i <;> simp_all [Worker.IsWaiting, Worker.IsExited]

theorem Idle.setWorker (hs : Idle n s) (hi : i < n)
    (hw' : s'.workers = Function.update s.workers i w) : Idle n s' := by
  intro j hj
  rw [hw', Function.update_of_ne (by omega)]
  exact hs j hj

theorem event_idle (h : Event n s m s') (hs : Idle n s) : Idle n s' := by
  cases h with
  | wake t choice ht hc hi hw => exact hs.setWorker hi rfl
  | lock i choice hi hc hw hl => exact hs.setWorker hi rfl
  | exit i choice hi hc hw hq hstop => exact hs.setWorker hi rfl
  | wait i choice hi hc hw hq hstop => exact hs.setWorker hi rfl
  | pop i choice job rest hi hc hw hq => exact hs.setWorker hi rfl
  | spawn i choice ticket job children hi hc hw => exact hs.setWorker hi rfl
  | finish i choice ticket hi hc hw => exact hs.setWorker hi rfl
  | wakeAll choice hc ho =>
    intro j hj
    simp only [notifyAll, hs j hj, ite_self]
  | spurious i hi hw => exact hs.setWorker hi rfl
  | _ => exact hs

theorem Watched.of_worker (hi : i < n) (hw : ¬ (s.workers i).IsWaiting) : Watched n s :=
  fun _ => Or.inl ⟨i, hi, hw⟩

theorem not_waiting_self (hw : ¬ w.IsWaiting) : ¬ ((setWorker s i w).workers i).IsWaiting := by
  rwa [setWorker_self]

theorem event_watched (hn : 0 < n) (h : Event n s m s') (hl : Locked s) (hs : Watched n s) :
    Watched n s' := by
  cases h with
  | acquire t choice job ht hc hlock =>
    intro hq
    rcases hs hq with hi | ho
    · exact Or.inl hi
    · refine Or.inr ?_
      have hne : Thread.owner ≠ t := by
        rintro rfl
        simp [hc] at ho
      exact (setCall_of_ne _ hne).trans ho
  | reject => exact hs
  | push t choice job ht hc hstop =>
    intro hq
    cases t with
    | owner => exact Or.inr (setCall_self ..)
    | worker i => exact Or.inl ⟨i, ht, (hl.busy (.worker i) (by simp [hc])).not_waiting⟩
  | wake t choice ht hc hi hw => exact .of_worker hi (not_waiting_self id)
  | wakeNone t choice ht hc hw => exact .of_worker hn (hw 0 hn)
  | lock i choice hi hc hw hlock => exact .of_worker hi (not_waiting_self id)
  | exit i choice hi hc hw hq => exact .of_worker hi (not_waiting_self id)
  | wait i choice hi hc hw hq => exact fun h => absurd hq h
  | pop i choice job rest hi hc hw hq => exact .of_worker hi (not_waiting_self (s := s) id)
  | spawn i choice ticket job children hi hc hw => exact .of_worker hi (not_waiting_self id)
  | finish i choice ticket hi hc hw => exact .of_worker hi (not_waiting_self id)
  | submit choice job code hc ho =>
    intro hq
    rcases hs hq with hi | ho'
    · exact Or.inl hi
    · simp [hc] at ho'
  | wakeAll choice hc ho =>
    refine .of_worker hn ?_
    simp only [notifyAll]
    split
    · exact id
    · assumption
  | spurious i hi hw => exact .of_worker hi (not_waiting_self id)
  | _ => exact hs

theorem event_refused (h : Event n s m s') (hf : s.failed = false) (hl : Locked s)
    (hs : Phased n s) : Refused s' := by
  cases h with
  | reject t choice job ht hc hstop =>
    intro _
    refine ⟨hstop, ?_⟩
    cases t with
    | owner =>
      obtain ⟨code, ho⟩ := hl.busy .owner (by simp [hc])
      have := hs.stop.mp hstop
      simp [ho, Owner.Stopped] at this
    | worker i => exact ⟨i, job, hc⟩
  | _ => exact fun h => absurd (hf.symm.trans h) Bool.false_ne_true

end

end EmpTool.WorkerPool
