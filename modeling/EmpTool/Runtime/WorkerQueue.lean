import EmpTool.Runtime.WorkerLock
import Mathlib.Data.List.Nodup
import Mathlib.Order.Nat

namespace EmpTool.WorkerPool

def Runs (s : State) (i k : Nat) : Prop :=
  ∃ children, s.workers i = .running k children

structure Queued (s : State) : Prop where
  tasks : s.tasks = s.pushed.drop s.popped
  popped : s.popped ≤ s.pushed.length

-- what is popped runs or has run, and never twice
structure Ticketed (n : Nat) (s : State) : Prop where
  taken : ∀ k, k < s.popped ↔ k ∈ s.finished ∨ ∃ i, Runs s i k
  nodup : s.finished.Nodup
  unfinished : ∀ i k, Runs s i k → k ∉ s.finished
  unique : ∀ i j k, Runs s i k → Runs s j k → i = j
  inside : ∀ i k, Runs s i k → i < n

def pendingJob : Option Call → List Job
  | some (.locking job) => [job]
  | some (.pushing job) => [job]
  | _ => []

def Assigned (s : State) : Prop :=
  ∀ i k children, s.workers i = .running k children →
    ∃ job, s.pushed[k]? = some job ∧
      pendingJob (s.calls (.worker i)) ++ children <:+ job.children

section

variable {n : Nat} {s s' : State} {m : Move} {i j k : Nat}

theorem event_queued (h : Event n s m s') (hs : Queued s) : Queued s' := by
  obtain ⟨htasks, hpopped⟩ := hs
  cases h with
  | push t choice job ht hc hstop =>
    constructor
    · change s.tasks ++ [job] = (s.pushed ++ [job]).drop s.popped
      rw [htasks, List.drop_append_of_le_length hpopped]
    · change s.popped ≤ (s.pushed ++ [job]).length
      rw [List.length_append]
      omega
  | pop i choice job rest hi hc hw hq =>
    have hdrop : s.pushed.drop s.popped = job :: rest := htasks.symm.trans hq
    have hlt : s.popped < s.pushed.length := by
      have := congrArg List.length hdrop
      rw [List.length_drop, List.length_cons] at this
      omega
    constructor
    · change rest = s.pushed.drop (s.popped + 1)
      rw [← List.drop_drop, hdrop, List.drop_one, List.tail_cons]
    · exact hlt
  | _ => exact ⟨htasks, hpopped⟩

theorem runs_setWorker_of_ne {w : Worker} (h : j ≠ i) :
    Runs (setWorker s i w) j k ↔ Runs s j k := by
  unfold Runs
  rw [setWorker_of_ne w h]

theorem runs_setWorker_self {w : Worker} :
    Runs (setWorker s i w) i k ↔ ∃ children, w = .running k children := by
  unfold Runs
  rw [setWorker_self]

theorem runs_setWorker {w : Worker}
    (h : ∀ k, (∃ children, w = .running k children) ↔ Runs s i k) :
    Runs (setWorker s i w) j k ↔ Runs s j k := by
  by_cases hj : j = i
  · subst hj
    exact runs_setWorker_self.trans (h k)
  · exact runs_setWorker_of_ne hj

theorem not_runs_of_waiting (h : (s.workers i).IsWaiting) : ¬ Runs s i k := by
  rintro ⟨children, hw⟩
  simp [hw, Worker.IsWaiting] at h

theorem runs_notifyAll : Runs (notifyAll s) j k ↔ Runs s j k := by
  by_cases hw : (s.workers j).IsWaiting
  · refine iff_of_false ?_ (not_runs_of_waiting hw)
    simp [Runs, notifyAll, hw]
  · simp [Runs, notifyAll, hw]

theorem Ticketed.congr (hs : Ticketed n s) (hr : ∀ i k, Runs s' i k ↔ Runs s i k)
    (hp : s'.popped = s.popped) (hf : s'.finished = s.finished) : Ticketed n s' := by
  constructor
  · intro k
    simp only [hp, hf, hr]
    exact hs.taken k
  · rw [hf]
    exact hs.nodup
  · intro i k h
    rw [hf]
    exact hs.unfinished i k ((hr i k).mp h)
  · exact fun i j k hi hj => hs.unique i j k ((hr i k).mp hi) ((hr j k).mp hj)
  · exact fun i k h => hs.inside i k ((hr i k).mp h)

theorem Ticketed.pop {children : List Job} (hs : Ticketed n s) (hi : i < n)
    (hw : ∀ k, ¬ Runs s i k) (hself : s'.workers i = .running s.popped children)
    (hother : ∀ j ≠ i, s'.workers j = s.workers j) (hp : s'.popped = s.popped + 1)
    (hf : s'.finished = s.finished) : Ticketed n s' := by
  have hnew : ∀ j k, Runs s' j k ↔ (j = i ∧ k = s.popped) ∨ Runs s j k := by
    intro j k
    by_cases hj : j = i
    · subst hj
      simp [Runs, hself, show ∀ c, s.workers j ≠ .running k c from fun c h => hw k ⟨c, h⟩, eq_comm]
    · simp [Runs, hother j hj, hj]
  have hold : ∀ j k, Runs s j k → k < s.popped := fun j k h => (hs.taken k).mpr (Or.inr ⟨j, h⟩)
  constructor
  · intro k
    rw [hp, hf, Nat.lt_succ_iff, Nat.le_iff_lt_or_eq, hs.taken k]
    constructor
    · rintro ((h | ⟨j, h⟩) | rfl)
      · exact Or.inl h
      · exact Or.inr ⟨j, (hnew j k).mpr (Or.inr h)⟩
      · exact Or.inr ⟨i, (hnew i _).mpr (Or.inl ⟨rfl, rfl⟩)⟩
    · rintro (h | ⟨j, h⟩)
      · exact Or.inl (Or.inl h)
      · rcases (hnew j k).mp h with ⟨-, rfl⟩ | h
        · exact Or.inr rfl
        · exact Or.inl (Or.inr ⟨j, h⟩)
  · exact hf ▸ hs.nodup
  · intro j k h
    rw [hf]
    rcases (hnew j k).mp h with ⟨-, rfl⟩ | h
    · exact fun hk => absurd ((hs.taken _).mpr (Or.inl hk)) (lt_irrefl _)
    · exact hs.unfinished j k h
  · intro j j' k h h'
    rcases (hnew j k).mp h with ⟨hj, hk⟩ | h <;> rcases (hnew j' k).mp h' with ⟨hj', hk'⟩ | h'
    · exact hj.trans hj'.symm
    · exact absurd hk (hold j' k h').ne
    · exact absurd hk' (hold j k h).ne
    · exact hs.unique j j' k h h'
  · intro j k h
    rcases (hnew j k).mp h with ⟨rfl, -⟩ | h
    · exact hi
    · exact hs.inside j k h

theorem Ticketed.finish {k : Nat} (hs : Ticketed n s) (hw : Runs s i k)
    (hself : ∀ k, ¬ Runs s' i k) (hother : ∀ j ≠ i, s'.workers j = s.workers j)
    (hp : s'.popped = s.popped) (hf : s'.finished = s.finished ++ [k]) : Ticketed n s' := by
  have hnew : ∀ j k', Runs s' j k' ↔ Runs s j k' ∧ k' ≠ k := by
    intro j k'
    by_cases hj : j = i
    · subst hj
      refine iff_of_false (hself k') ?_
      rintro ⟨⟨c, hc⟩, hne⟩
      obtain ⟨c', hw⟩ := hw
      exact hne (Worker.running.inj (hc.symm.trans hw)).1
    · have hrun : Runs s' j k' ↔ Runs s j k' := by simp [Runs, hother j hj]
      rw [hrun]
      refine (and_iff_left_of_imp ?_).symm
      rintro h rfl
      exact hj (hs.unique j i k' h hw)
  constructor
  · intro k'
    rw [hp, hf, hs.taken k', List.mem_append, List.mem_singleton]
    constructor
    · rintro (h | ⟨j, h⟩)
      · exact Or.inl (Or.inl h)
      · by_cases e : k' = k
        · exact Or.inl (Or.inr e)
        · exact Or.inr ⟨j, (hnew j k').mpr ⟨h, e⟩⟩
    · rintro ((h | rfl) | ⟨j, h⟩)
      · exact Or.inl h
      · exact Or.inr ⟨i, hw⟩
      · exact Or.inr ⟨j, ((hnew j k').mp h).1⟩
  · rw [hf]
    exact List.Nodup.append hs.nodup (List.nodup_singleton k)
      (List.disjoint_singleton.mpr (hs.unfinished i k hw))
  · intro j k' h
    obtain ⟨h, hne⟩ := (hnew j k').mp h
    rw [hf, List.mem_append, List.mem_singleton, not_or]
    exact ⟨hs.unfinished j k' h, hne⟩
  · exact fun j j' k' h h' => hs.unique j j' k' ((hnew j k').mp h).1 ((hnew j' k').mp h').1
  · exact fun j k' h => hs.inside j k' ((hnew j k').mp h).1

theorem not_runs {w : Worker} (hw : s.workers i = w) (hrun : ∀ k c, w ≠ .running k c) :
    ¬ Runs s i k := by
  rintro ⟨c, h⟩
  exact hrun k c (hw.symm.trans h)

theorem event_ticketed (h : Event n s m s') (hs : Ticketed n s) : Ticketed n s' := by
  cases h with
  | wake t choice ht hc hi hw =>
    refine hs.congr (fun j k => ?_) rfl rfl
    exact runs_setWorker fun k => iff_of_false (by simp) (not_runs_of_waiting hw)
  | lock i choice hi hc hw hl =>
    refine hs.congr (fun j k => ?_) rfl rfl
    exact runs_setWorker (s := s) fun k => iff_of_false (by simp) (not_runs hw (by simp))
  | exit i choice hi hc hw hq hstop =>
    refine hs.congr (fun j k => ?_) rfl rfl
    exact runs_setWorker (s := s) fun k => iff_of_false (by simp) (not_runs hw (by simp))
  | wait i choice hi hc hw hq hstop =>
    refine hs.congr (fun j k => ?_) rfl rfl
    exact runs_setWorker (s := s) fun k => iff_of_false (by simp) (not_runs hw (by simp))
  | pop i choice job rest hi hc hw hq =>
    exact hs.pop hi (fun k => not_runs hw (by simp)) (setWorker_self s ..)
      (fun j hj => setWorker_of_ne (s := s) _ hj) rfl rfl
  | spawn i choice ticket job children hi hc hw =>
    refine hs.congr (fun j k => ?_) rfl rfl
    exact runs_setWorker (s := s) fun k => by simp [Runs, hw]
  | finish i choice ticket hi hc hw =>
    exact hs.finish ⟨[], hw⟩ (fun k => not_runs (setWorker_self ..) (by simp))
      (fun j hj => setWorker_of_ne (s := s) _ hj) rfl rfl
  | wakeAll choice hc ho => exact hs.congr (fun j k => runs_notifyAll) rfl rfl
  | spurious i hi hw =>
    refine hs.congr (fun j k => ?_) rfl rfl
    exact runs_setWorker fun k => iff_of_false (by simp) (not_runs_of_waiting hw)
  | _ => exact hs.congr (fun j k => Iff.rfl) rfl rfl

theorem Assigned.setWorker {w : Worker} (hs : Assigned s)
    (hw' : s'.workers = Function.update s.workers i w) (hp : s'.pushed = s.pushed)
    (hc : s'.calls = s.calls)
    (hw : ∀ k children, w = .running k children →
      ∃ job, s.pushed[k]? = some job ∧
        pendingJob (s.calls (.worker i)) ++ children <:+ job.children) : Assigned s' := by
  intro j k children h
  rw [hp, hc]
  rw [hw'] at h
  by_cases hj : j = i
  · subst hj
    rw [Function.update_self] at h
    exact hw k children h
  · rw [Function.update_of_ne hj] at h
    exact hs j k children h

theorem Assigned.setCall {t : Thread} {call : Option Call} (hs : Assigned s)
    (hcall : pendingJob call <:+ pendingJob (s.calls t)) : Assigned (setCall s t call) := by
  intro j k children h
  obtain ⟨job, hk, hsub⟩ := hs j k children h
  refine ⟨job, hk, ?_⟩
  by_cases hj : .worker j = t
  · subst hj
    rw [setCall_self]
    obtain ⟨first, hfirst⟩ := hcall
    rw [← hfirst, List.append_assoc] at hsub
    exact (List.suffix_append first _).trans hsub
  · rwa [setCall_of_ne call hj]

theorem event_assigned (h : Event n s m s') (hq : Queued s) (hs : Assigned s) : Assigned s' := by
  cases h with
  | acquire t choice job ht hc hl =>
    exact hs.setCall (t := t) (by rw [hc]; exact List.suffix_refl _)
  | push t choice job ht hc hstop =>
    have hpush : Assigned (push { s with lock := none } t job) := by
      intro i k children h
      obtain ⟨job', hk, hsub⟩ := hs i k children h
      obtain ⟨hlt, -⟩ := List.getElem?_eq_some_iff.mp hk
      exact ⟨job', (List.getElem?_append_left hlt).trans hk, hsub⟩
    exact hpush.setCall (List.nil_suffix)
  | wake t choice ht hc hi hw =>
    have hwoken : Assigned (setWorker s choice .locking) := hs.setWorker rfl rfl rfl (by simp)
    exact hwoken.setCall (List.nil_suffix)
  | wakeNone t choice ht hc hw => exact hs.setCall (List.nil_suffix)
  | lock i choice hi hc hw hl => exact hs.setWorker rfl rfl rfl (by simp)
  | exit i choice hi hc hw => exact hs.setWorker rfl rfl rfl (by simp)
  | wait i choice hi hc hw => exact hs.setWorker rfl rfl rfl (by simp)
  | pop i choice job rest hi hc hw htasks =>
    refine hs.setWorker rfl rfl rfl fun k children h => ?_
    obtain ⟨rfl, rfl⟩ := Worker.running.inj h
    refine ⟨job, ?_, hc ▸ List.suffix_refl _⟩
    rw [← Nat.add_zero s.popped, ← List.getElem?_drop, ← hq.tasks, htasks]
    rfl
  | spawn i choice ticket job children hi hc hw =>
    intro j k children' h
    by_cases hj : j = i
    · subst hj
      have hself : (setWorker s j (.running ticket children)).workers j = _ := setWorker_self ..
      obtain ⟨rfl, rfl⟩ := Worker.running.inj (hself.symm.trans h)
      obtain ⟨job', hk, hsub⟩ := hs j ticket (job :: children) hw
      refine ⟨job', hk, ?_⟩
      rw [hc] at hsub
      rw [setCall_self]
      exact hsub
    · have hne : Thread.worker j ≠ .worker i := fun e => hj (Thread.worker.inj e)
      have hw' : s.workers j = .running k children' :=
        (setWorker_of_ne (.running ticket children) hj).symm.trans h
      rw [setCall_of_ne _ hne]
      exact hs j k children' hw'
  | finish i choice ticket hi hc hw => exact hs.setWorker rfl rfl rfl (by simp)
  | submit choice job code hc ho =>
    intro j k children h
    rw [setCall_of_ne _ (owner_ne_worker j).symm]
    exact hs j k children h
  | wakeAll choice hc ho =>
    intro i k children h
    have hrun : (if (s.workers i).IsWaiting then Worker.locking else s.workers i) =
      .running k children := h
    split at hrun
    · cases hrun
    · exact hs i k children hrun
  | spurious i hi hw => exact hs.setWorker rfl rfl rfl (by simp)
  | _ => exact hs

end

end EmpTool.WorkerPool
