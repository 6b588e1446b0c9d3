import EmpTool.Runtime.WorkerSteps

namespace EmpTool.WorkerPool

def Busy (s : State) : Thread → Prop
  | .owner => ∃ code, s.owner = .body code
  | .worker i => ∃ ticket children, s.workers i = .running ticket children

def Critical (s : State) : Thread → Prop
  | .owner => s.owner = .stopping
  | .worker i => s.workers i = .checking

def Holds (s : State) (t : Thread) : Prop :=
  match s.calls t with
  | some (.pushing _) => True
  | some _ => False
  | none => Critical s t

section

variable {s : State} {t t' : Thread} {i : Nat}

theorem owner_ne_worker (i : Nat) : Thread.owner ≠ .worker i := nofun

theorem setCall_self (s : State) (t : Thread) (call : Option Call) :
    (setCall s t call).calls t = call := Function.update_self ..

theorem setCall_of_ne (call : Option Call) (h : t' ≠ t) :
    (setCall s t call).calls t' = s.calls t' := Function.update_of_ne h ..

theorem setWorker_self (s : State) (i : Nat) (w : Worker) :
    (setWorker s i w).workers i = w := Function.update_self ..

theorem setWorker_of_ne {j : Nat} (w : Worker) (h : j ≠ i) :
    (setWorker s i w).workers j = s.workers j := Function.update_of_ne h ..

theorem Busy.not_critical (h : Busy s t) : ¬ Critical s t := by
  cases t with
  | owner =>
    obtain ⟨code, h⟩ := h
    simp [Critical, h]
  | worker i =>
    obtain ⟨ticket, children, h⟩ := h
    simp [Critical, h]

theorem Busy.not_waiting (h : Busy s (.worker i)) : ¬ (s.workers i).IsWaiting := by
  obtain ⟨ticket, children, h⟩ := h
  simp [h, Worker.IsWaiting]

theorem holds_pushing {job : Job} (h : s.calls t = some (.pushing job)) : Holds s t := by
  simp [Holds, h]

theorem not_holds_locking {job : Job} (h : s.calls t = some (.locking job)) : ¬ Holds s t := by
  simp [Holds, h]

theorem not_holds_notifying (h : s.calls t = some .notifying) : ¬ Holds s t := by
  simp [Holds, h]

theorem holds_none (h : s.calls t = none) : Holds s t ↔ Critical s t := by
  simp [Holds, h]

theorem holds_congr {s' : State} (hcalls : s'.calls t = s.calls t)
    (hcrit : Critical s' t ↔ Critical s t) : Holds s' t ↔ Holds s t := by
  cases hcall : s.calls t with
  | none => rw [holds_none hcall, holds_none (hcalls.trans hcall), hcrit]
  | some call =>
    unfold Holds
    rw [hcalls, hcall]
    cases call <;> rfl

theorem holds_setCall_of_ne {call : Option Call} (h : t' ≠ t) :
    Holds (setCall s t call) t' ↔ Holds s t' := holds_congr (setCall_of_ne call h) Iff.rfl

theorem critical_setWorker_of_ne {w : Worker} (h : t ≠ .worker i) :
    Critical (setWorker s i w) t ↔ Critical s t := by
  cases t with
  | owner => exact Iff.rfl
  | worker j =>
    have hj : j ≠ i := fun e => h (congrArg Thread.worker e)
    exact iff_of_eq (congrArg (· = Worker.checking) (setWorker_of_ne w hj))

theorem holds_setWorker_of_ne {w : Worker} (h : t ≠ .worker i) :
    Holds (setWorker s i w) t ↔ Holds s t := holds_congr rfl (critical_setWorker_of_ne h)

theorem critical_setWorker {w : Worker} : Critical (setWorker s i w) (.worker i) ↔ w = .checking :=
  iff_of_eq (congrArg (· = Worker.checking) (setWorker_self s i w))

theorem not_critical_locking (h : ¬ Critical s t) : ¬ Critical (setWorker s i .locking) t := by
  by_cases ht : t = .worker i
  · subst ht
    rw [critical_setWorker]
    nofun
  · rwa [critical_setWorker_of_ne ht]

theorem critical_notifyAll : Critical (notifyAll s) t ↔ Critical s t := by
  cases t with
  | owner => exact Iff.rfl
  | worker i =>
    by_cases h : (s.workers i).IsWaiting
    · cases hw : s.workers i <;> simp_all [Critical, notifyAll, Worker.IsWaiting]
    · simp [Critical, notifyAll, h]

end

structure Locked (s : State) : Prop where
  busy : ∀ t, s.calls t ≠ none → Busy s t
  holds : ∀ t, Holds s t ↔ s.lock = some t

section

variable {n : Nat} {s s' : State} {m : Move} {t : Thread}

theorem take (hs : ∀ t, Holds s t ↔ s.lock = some t) (hl : s.lock = none)
    (hl' : s'.lock = some t) (ht : Holds s' t)
    (hother : ∀ t' ≠ t, Holds s' t' ↔ Holds s t') : ∀ t, Holds s' t ↔ s'.lock = some t := by
  intro t'
  by_cases h : t' = t
  · subst h
    exact iff_of_true ht hl'
  · rw [hother t' h, hs t', hl, hl']
    exact iff_of_false nofun fun e => h (Option.some.inj e).symm

theorem release (hs : ∀ t, Holds s t ↔ s.lock = some t) (ht : Holds s t) (ht' : ¬ Holds s' t)
    (hl' : s'.lock = none) (hother : ∀ t' ≠ t, Holds s' t' ↔ Holds s t') :
    ∀ t, Holds s' t ↔ s'.lock = some t := by
  intro t'
  by_cases h : t' = t
  · subst h
    exact iff_of_false ht' (by simp [hl'])
  · rw [hother t' h, hs t', (hs t).mp ht, hl']
    exact iff_of_false (fun e => h (Option.some.inj e).symm) nofun

theorem keep (hs : ∀ t, Holds s t ↔ s.lock = some t) (ht : ¬ Holds s t) (ht' : ¬ Holds s' t)
    (hl' : s'.lock = s.lock) (hother : ∀ t' ≠ t, Holds s' t' ↔ Holds s t') :
    ∀ t, Holds s' t ↔ s'.lock = some t := by
  intro t'
  rw [hl', ← hs t']
  by_cases h : t' = t
  · subst h
    exact iff_of_false ht' ht
  · exact hother t' h

theorem Locked.calls_waiting {i : Nat} (hs : Locked s) (hw : (s.workers i).IsWaiting) :
    s.calls (.worker i) = none := by
  by_contra h
  exact (hs.busy _ h).not_waiting hw

theorem Locked.wake {i : Nat} (hs : Locked s) (hw : (s.workers i).IsWaiting) :
    ∀ t, Holds (setWorker s i .locking) t ↔ s.lock = some t := by
  have hcalls := hs.calls_waiting hw
  have hcrit : ¬ Critical s (.worker i) := fun h => by
    rw [show s.workers i = .checking from h] at hw
    exact hw
  refine keep (t := .worker i) hs.holds ?_ ?_ rfl fun t' h => holds_setWorker_of_ne h
  · rwa [holds_none hcalls]
  · rw [holds_none (s := setWorker s i .locking) hcalls]
    exact not_critical_locking hcrit

theorem ownerMove {s' : State} (hs : ∀ t, Holds s t ↔ s.lock = some t)
    (hc : s.calls .owner = none) (ho : s.owner ≠ .stopping) (hc' : s'.calls = s.calls)
    (ho' : s'.owner ≠ .stopping) (hw' : s'.workers = s.workers) (hl' : s'.lock = s.lock) :
    ∀ t, Holds s' t ↔ s'.lock = some t := by
  refine keep (t := .owner) hs ?_ ?_ hl' ?_
  · rwa [holds_none hc]
  · rwa [holds_none (hc' ▸ hc)]
  · intro t' h
    cases t' with
    | owner => exact absurd rfl h
    | worker i => simp only [Holds, Critical, hc', hw']

theorem event_holds (h : Event n s m s') (hs : Locked s) :
    ∀ t, Holds s' t ↔ s'.lock = some t := by
  have hh := hs.holds
  cases h with
  | acquire t choice job ht hc hl =>
    exact take hh hl rfl (holds_pushing (setCall_self ..)) fun t' h => holds_setCall_of_ne h
  | reject => exact hh
  | push t choice job ht hc hl =>
    exact release hh (holds_pushing hc) (not_holds_notifying (setCall_self ..)) rfl
      fun t' h => holds_setCall_of_ne h
  | wake t choice ht hc hi hw =>
    have hbusy := hs.busy t (by simp [hc])
    refine keep (hs.wake hw) (not_holds_notifying hc) ?_ rfl fun t' h => holds_setCall_of_ne h
    rw [holds_none (setCall_self ..)]
    exact not_critical_locking hbusy.not_critical
  | wakeNone t choice ht hc hw =>
    refine keep hh (not_holds_notifying hc) ?_ rfl fun t' h => holds_setCall_of_ne h
    rw [holds_none (setCall_self ..)]
    exact (hs.busy t (by simp [hc])).not_critical
  | lock i choice hi hc hw hl =>
    refine take (t := .worker i) hh hl rfl ?_ fun t' h => holds_setWorker_of_ne h
    exact (holds_none (by exact hc)).mpr (critical_setWorker.mpr rfl)
  | exit i choice hi hc hw =>
    refine release hh ((holds_none hc).mpr hw) ?_ rfl fun t' h => holds_setWorker_of_ne h
    rw [holds_none (by exact hc), critical_setWorker]
    nofun
  | wait i choice hi hc hw =>
    refine release hh ((holds_none hc).mpr hw) ?_ rfl fun t' h => holds_setWorker_of_ne h
    rw [holds_none (by exact hc), critical_setWorker]
    nofun
  | pop i choice job rest hi hc hw =>
    refine release hh ((holds_none hc).mpr hw) ?_ rfl fun t' h =>
      holds_congr rfl (critical_setWorker_of_ne (s := s) (w := .running s.popped job.children) h)
    rw [holds_none (by exact hc)]
    exact fun h => nomatch critical_setWorker.mp h
  | spawn i choice ticket job children hi hc hw =>
    have hcrit : ¬ Holds s (.worker i) := by simp [holds_none hc, Critical, hw]
    refine keep hh hcrit (not_holds_locking (setCall_self ..)) rfl fun t' h => ?_
    exact (holds_setCall_of_ne h).trans (holds_setWorker_of_ne h)
  | finish i choice ticket hi hc hw =>
    have hcrit : ¬ Holds s (.worker i) := by simp [holds_none hc, Critical, hw]
    refine keep hh hcrit ?_ rfl fun t' h => holds_setWorker_of_ne h
    rw [holds_none (by exact hc), critical_setWorker]
    nofun
  | submit choice job code hc ho =>
    have hcrit : ¬ Holds s .owner := by simp [holds_none hc, Critical, ho]
    refine keep hh hcrit (not_holds_locking (setCall_self ..)) rfl fun t' h => ?_
    cases t' with
    | owner => exact absurd rfl h
    | worker i => exact holds_setCall_of_ne h
  | get choice k code hc ho => exact ownerMove hh hc (by simp [ho]) rfl nofun rfl rfl
  | destroy choice hc ho => exact ownerMove hh hc (by simp [ho]) rfl nofun rfl rfl
  | ownerLock choice hc ho hl =>
    refine take (t := .owner) hh hl rfl ((holds_none (by exact hc)).mpr rfl) fun t' h => ?_
    cases t' with
    | owner => exact absurd rfl h
    | worker i => exact Iff.rfl
  | stop choice hc ho =>
    refine release (t := .owner) hh ((holds_none hc).mpr ho) ?_ rfl fun t' h => ?_
    · rw [holds_none (by exact hc)]
      nofun
    · cases t' with
      | owner => exact absurd rfl h
      | worker i => exact Iff.rfl
  | wakeAll choice hc ho =>
    refine keep (t := .owner) hh ?_ ?_ rfl fun t' h => ?_
    · simp [holds_none hc, Critical, ho]
    · rw [holds_none (by exact hc)]
      nofun
    · cases t' with
      | owner => exact absurd rfl h
      | worker i => exact holds_congr rfl (critical_notifyAll (t := .worker i))
  | joined choice hc ho => exact ownerMove hh hc (by simp [ho]) rfl nofun rfl rfl
  | join choice i hc ho => exact ownerMove hh hc (by simp [ho]) rfl nofun rfl rfl
  | spurious i hi hw => exact hs.wake hw

theorem busy_setWorker_of_ne {i : Nat} {w : Worker} (h : t ≠ .worker i) (hb : Busy s t) :
    Busy (setWorker s i w) t := by
  cases t with
  | owner => exact hb
  | worker j =>
    obtain ⟨ticket, children, hj⟩ := hb
    have hne : j ≠ i := fun e => h (congrArg Thread.worker e)
    exact ⟨ticket, children, (setWorker_of_ne w hne).trans hj⟩

theorem busy_notifyAll (hb : Busy s t) : Busy (notifyAll s) t := by
  cases t with
  | owner => exact hb
  | worker i =>
    have hw := hb.not_waiting
    obtain ⟨ticket, children, hi⟩ := hb
    exact ⟨ticket, children, (if_neg hw).trans hi⟩

theorem busy_setCall {call : Option Call} (hb : ∀ t, s.calls t ≠ none → Busy s t)
    (ht : call ≠ none → Busy s t) :
    ∀ t', (setCall s t call).calls t' ≠ none → Busy (setCall s t call) t' := by
  intro t' h
  by_cases e : t' = t
  · subst e
    exact ht (setCall_self s t' call ▸ h)
  · exact hb t' (setCall_of_ne call e ▸ h)

theorem busy_loop {i : Nat} {w : Worker} (hb : ∀ t, s.calls t ≠ none → Busy s t)
    (hc : s.calls (.worker i) = none) :
    ∀ t, (setWorker s i w).calls t ≠ none → Busy (setWorker s i w) t := by
  intro t h
  have hne : t ≠ .worker i := fun e => h (e ▸ hc)
  exact busy_setWorker_of_ne hne (hb t h)

theorem busy_owner {s' : State} (hb : ∀ t, s.calls t ≠ none → Busy s t)
    (hc : s.calls .owner = none) (hc' : s'.calls = s.calls) (hw' : s'.workers = s.workers) :
    ∀ t, s'.calls t ≠ none → Busy s' t := by
  intro t h
  rw [hc'] at h
  cases t with
  | owner => exact absurd hc h
  | worker i =>
    obtain ⟨ticket, children, hi⟩ := hb _ h
    exact ⟨ticket, children, hw' ▸ hi⟩

theorem event_busy (h : Event n s m s') (hb : ∀ t, s.calls t ≠ none → Busy s t) :
    ∀ t, s'.calls t ≠ none → Busy s' t := by
  cases h with
  | acquire t choice job ht hc hl => exact busy_setCall hb fun _ => hb t (by simp [hc])
  | reject => exact hb
  | push t choice job ht hc hs => exact busy_setCall hb fun _ => hb t (by simp [hc])
  | wake t choice ht hc hi hw =>
    refine busy_setCall (fun t' h => busy_setWorker_of_ne ?_ (hb t' h)) (absurd rfl)
    rintro rfl
    exact (hb _ h).not_waiting hw
  | wakeNone t choice ht hc hw => exact busy_setCall hb (absurd rfl)
  | lock i choice hi hc hw hl => exact busy_loop (s := { s with lock := some (.worker i) }) hb hc
  | exit i choice hi hc hw => exact busy_loop (s := { s with lock := none }) hb hc
  | wait i choice hi hc hw => exact busy_loop (s := { s with lock := none }) hb hc
  | pop i choice job rest hi hc hw =>
    exact busy_loop (w := .running s.popped job.children) hb hc
  | spawn i choice ticket job children hi hc hw =>
    exact busy_setCall (busy_loop hb hc) fun _ => ⟨ticket, children, setWorker_self ..⟩
  | finish i choice ticket hi hc hw =>
    exact busy_loop (s := { s with finished := s.finished ++ [ticket] }) hb hc
  | submit choice job code hc ho =>
    refine busy_setCall (s := { s with owner := .body code }) ?_ fun _ => ⟨code, rfl⟩
    exact busy_owner hb hc rfl rfl
  | wakeAll choice hc ho =>
    intro t h
    cases t with
    | owner => exact absurd hc h
    | worker i => exact busy_notifyAll (t := .worker i) (hb _ h)
  | spurious i hi hw =>
    refine fun t' h => busy_setWorker_of_ne ?_ (hb t' h)
    rintro rfl
    exact (hb _ h).not_waiting hw
  | get choice k code hc ho => exact busy_owner hb hc rfl rfl
  | destroy choice hc ho => exact busy_owner hb hc rfl rfl
  | ownerLock choice hc ho => exact busy_owner hb hc rfl rfl
  | stop choice hc ho => exact busy_owner hb hc rfl rfl
  | joined choice hc ho => exact busy_owner hb hc rfl rfl
  | join choice i hc ho => exact busy_owner hb hc rfl rfl

theorem event_locked (h : Event n s m s') (hs : Locked s) : Locked s' :=
  ⟨event_busy h hs.busy, event_holds h hs⟩

theorem start_locked (code : List Act) : Locked (start code) where
  busy _ h := absurd rfl h
  holds t := by cases t <;> simp [Holds, start, Critical]

end

end EmpTool.WorkerPool
