import EmpTool.Runtime.WorkerPhases

namespace EmpTool.WorkerPool

def jobs : List Act → List Job
  | [] => []
  | .enqueue job :: code => job :: jobs code
  | .get _ :: code => jobs code

-- the code asks only for futures it already has
def Asks : Nat → List Act → Prop
  | _, [] => True
  | m, .enqueue _ :: code => Asks (m + 1) code
  | m, .get k :: code => k < m ∧ Asks m code

def Owner.rest : Owner → List Act
  | .body code => code
  | _ => []

def Promised (code : List Act) (s : State) : Prop :=
  ∃ past, code = past ++ s.owner.rest ∧
    (jobs past).map some =
      s.futures.map (fun f => s.pushed[f]?) ++ (pendingJob (s.calls .owner)).map some

section

variable {n : Nat} {code : List Act} {s s' : State} {m : Move}

theorem jobs_append (code code' : List Act) : jobs (code ++ code') = jobs code ++ jobs code' := by
  induction code with
  | nil => rfl
  | cons a code ih =>
    cases a with
    | enqueue job => exact congrArg (job :: ·) ih
    | get k => exact ih

theorem asks_append {a : Nat} {past rest : List Act} (h : Asks a (past ++ rest)) :
    Asks (a + (jobs past).length) rest := by
  induction past generalizing a with
  | nil => exact h
  | cons act past ih =>
    cases act with
    | enqueue job =>
      have hrest := ih (a := a + 1) h
      rwa [Nat.add_right_comm] at hrest
    | get k => exact ih h.2

theorem Promised.future_lt (hs : Promised code s) : ∀ f ∈ s.futures, f < s.pushed.length := by
  obtain ⟨past, -, hjobs⟩ := hs
  intro f hf
  have hmem : s.pushed[f]? ∈ (jobs past).map some := by
    rw [hjobs]
    exact List.mem_append_left _ (List.mem_map_of_mem hf)
  obtain ⟨job, -, hjob⟩ := List.mem_map.mp hmem
  exact (List.getElem?_eq_some_iff.mp hjob.symm).1

theorem lookup_append {futures : List Nat} {pushed : List Job} (job : Job)
    (h : ∀ f ∈ futures, f < pushed.length) :
    futures.map (fun f => (pushed ++ [job])[f]?) = futures.map (fun f => pushed[f]?) :=
  List.map_congr_left fun f hf => List.getElem?_append_left (h f hf)

theorem Promised.push {t : Thread} {job : Job} (hs : Promised code s)
    (hc : s.calls t = some (.pushing job)) :
    Promised code (setCall (push { s with lock := none } t job) t (some .notifying)) := by
  have hlt := hs.future_lt
  obtain ⟨past, hcode, hjobs⟩ := hs
  refine ⟨past, hcode, ?_⟩
  cases t with
  | owner =>
    have hpending : pendingJob ((setCall (WorkerPool.push { s with lock := none } .owner job) .owner
        (some .notifying)).calls .owner) = [] := by
      rw [setCall_self]
      rfl
    rw [hpending, hjobs, hc]
    change _ = (s.futures ++ [s.pushed.length]).map (fun f => (s.pushed ++ [job])[f]?) ++ []
    rw [List.map_append, lookup_append job hlt, List.append_nil]
    simp [pendingJob]
  | worker i =>
    change _ = s.futures.map (fun f => (s.pushed ++ [job])[f]?) ++
      (pendingJob ((Function.update s.calls (.worker i) (some .notifying)) .owner)).map some
    rw [lookup_append job hlt, Function.update_of_ne (owner_ne_worker i)]
    exact hjobs

theorem Promised.congr (hs : Promised code s) (ho : s'.owner.rest = s.owner.rest)
    (hf : s'.futures = s.futures) (hp : s'.pushed = s.pushed)
    (hc : pendingJob (s'.calls .owner) = pendingJob (s.calls .owner)) : Promised code s' := by
  unfold Promised
  rw [ho, hf, hp, hc]
  exact hs

theorem pendingJob_setCall {t : Thread} {call : Option Call}
    (h : pendingJob call = pendingJob (s.calls t)) :
    pendingJob ((setCall s t call).calls .owner) = pendingJob (s.calls .owner) := by
  by_cases ht : Thread.owner = t
  · subst ht
    rw [setCall_self, h]
  · rw [setCall_of_ne call ht]

theorem event_promised (h : Event n s m s') (hs : Promised code s) : Promised code s' := by
  cases h with
  | acquire t choice job ht hc hl =>
    exact hs.congr rfl rfl rfl (pendingJob_setCall (s := s) (by rw [hc]; rfl))
  | push t choice job ht hc hstop => exact hs.push hc
  | wake t choice ht hc hi hw =>
    exact hs.congr rfl rfl rfl (pendingJob_setCall (s := s) (by rw [hc]; rfl))
  | wakeNone t choice ht hc hw =>
    exact hs.congr rfl rfl rfl (pendingJob_setCall (s := s) (by rw [hc]; rfl))
  | spawn i choice ticket job children hi hc hw =>
    refine hs.congr rfl rfl rfl (congrArg pendingJob ?_)
    exact setCall_of_ne (s := s) _ (owner_ne_worker i)
  | submit choice job rest hc ho =>
    obtain ⟨past, hcode, hjobs⟩ := hs
    refine ⟨past ++ [.enqueue job], ?_, ?_⟩
    · rw [hcode, ho]
      exact List.append_cons past (.enqueue job) rest
    · rw [jobs_append, List.map_append, hjobs, hc, setCall_self]
      simp [setCall, jobs, pendingJob]
  | get choice k rest hc ho =>
    obtain ⟨past, hcode, hjobs⟩ := hs
    refine ⟨past ++ [.get k], ?_, ?_⟩
    · rw [hcode, ho]
      exact List.append_cons past (.get k) rest
    · rw [jobs_append, List.map_append, hjobs]
      exact List.append_nil _
  | destroy choice hc ho => exact hs.congr (by rw [ho]; rfl) rfl rfl rfl
  | ownerLock choice hc ho hl => exact hs.congr (by rw [ho]; rfl) rfl rfl rfl
  | stop choice hc ho => exact hs.congr (by rw [ho]; rfl) rfl rfl rfl
  | wakeAll choice hc ho => exact hs.congr (by rw [ho]; rfl) rfl rfl rfl
  | joined choice hc ho => exact hs.congr (by rw [ho]; rfl) rfl rfl rfl
  | join choice i hc ho => exact hs.congr (by rw [ho]; rfl) rfl rfl rfl
  | _ => exact hs

end

end EmpTool.WorkerPool
