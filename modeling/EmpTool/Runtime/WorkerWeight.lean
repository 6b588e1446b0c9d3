import EmpTool.Runtime.WorkerFutures
import Mathlib.Algebra.Group.Nat.Defs
import Mathlib.Algebra.Order.BigOperators.Group.Finset

namespace EmpTool.WorkerPool

mutual

def Job.size : Job → Nat
  | .mk children => sizes children + 1

def sizes : List Job → Nat
  | [] => 0
  | job :: jobs => job.size + sizes jobs

end

theorem size_eq (job : Job) : job.size = sizes job.children + 1 := by
  cases job
  rw [Job.size]
  rfl

structure Measure where
  worker : Worker → Nat
  call : Option Call → Nat
  task : Job → Nat
  owner : Owner → Nat

section

variable (μ : Measure) (n : Nat)

def Measure.workers (f : Nat → Worker) : Nat :=
  ∑ i ∈ Finset.range n, μ.worker (f i)

def Measure.calls (f : Thread → Option Call) : Nat :=
  μ.call (f .owner) + ∑ i ∈ Finset.range n, μ.call (f (.worker i))

def Measure.tasks : List Job → Nat
  | [] => 0
  | job :: q => μ.task job + Measure.tasks q

def Measure.total (s : State) : Nat :=
  μ.workers n s.workers + μ.calls n s.calls + μ.tasks s.tasks + μ.owner s.owner

end

section

variable {μ : Measure} {n : Nat}

theorem sum_update {f : Nat → Nat} {g : Nat → Nat} {i : Nat} (hi : i < n)
    (h : ∀ j, j ≠ i → g j = f j) :
    (∑ j ∈ Finset.range n, g j) + f i = (∑ j ∈ Finset.range n, f j) + g i := by
  have hmem : i ∈ Finset.range n := Finset.mem_range.mpr hi
  rw [← Finset.add_sum_erase _ g hmem, ← Finset.add_sum_erase _ f hmem]
  have hrest : ∑ j ∈ (Finset.range n).erase i, g j = ∑ j ∈ (Finset.range n).erase i, f j :=
    Finset.sum_congr rfl fun j hj => h j (Finset.ne_of_mem_erase hj)
  omega

theorem Measure.workers_update {i a b : Nat} {f : Nat → Worker} {o w : Worker} (hi : i < n)
    (hold : f i = o) (ha : μ.worker o = a) (hb : μ.worker w = b) :
    μ.workers n (Function.update f i w) + a = μ.workers n f + b := by
  subst hold ha hb
  have h := sum_update (f := fun j => μ.worker (f j))
    (g := fun j => μ.worker (Function.update f i w j)) hi
    fun j hj => congrArg μ.worker (Function.update_of_ne hj w f)
  rw [Function.update_self] at h
  exact h

theorem Measure.calls_update {a b : Nat} {t : Thread} {f : Thread → Option Call}
    {o c : Option Call} (ht : t.IsIn n) (hold : f t = o) (ha : μ.call o = a) (hb : μ.call c = b) :
    μ.calls n (Function.update f t c) + a = μ.calls n f + b := by
  subst hold ha hb
  cases t with
  | owner =>
    have hsum : ∑ i ∈ Finset.range n, μ.call (Function.update f .owner c (.worker i)) =
        ∑ i ∈ Finset.range n, μ.call (f (.worker i)) :=
      Finset.sum_congr rfl fun i hi =>
        congrArg μ.call (Function.update_of_ne (owner_ne_worker i).symm c f)
    unfold Measure.calls
    rw [hsum, Function.update_self]
    omega
  | worker i =>
    have h := sum_update (f := fun j => μ.call (f (.worker j)))
      (g := fun j => μ.call (Function.update f (.worker i) c (.worker j))) ht
      fun j hj => congrArg μ.call (Function.update_of_ne (fun e => hj (Thread.worker.inj e)) c f)
    rw [Function.update_self] at h
    have howner : Function.update f (.worker i) c .owner = f .owner :=
      Function.update_of_ne (owner_ne_worker i) c f
    unfold Measure.calls
    rw [howner]
    omega

theorem Measure.tasks_cons (job : Job) (q : List Job) :
    μ.tasks (job :: q) = μ.task job + μ.tasks q := rfl

theorem Measure.tasks_append (q : List Job) (job : Job) :
    μ.tasks (q ++ [job]) = μ.tasks q + μ.task job := by
  induction q with
  | nil => exact Nat.add_comm ..
  | cons first q ih =>
    rw [List.cons_append, tasks_cons, tasks_cons, ih, Nat.add_assoc]

theorem Measure.notifyAll_le {s : State} {a : Nat} (h : μ.worker .locking ≤ a) :
    μ.workers n (notifyAll s).workers ≤ μ.workers n s.workers + a * n := by
  have hle : ∀ i ∈ Finset.range n,
      μ.worker ((notifyAll s).workers i) ≤ μ.worker (s.workers i) + a := by
    intro i hi
    unfold notifyAll
    dsimp only
    split
    · omega
    · omega
  have hsum := Finset.sum_le_sum hle
  rw [Finset.sum_add_distrib, Finset.sum_const, Finset.card_range, Nat.nsmul_eq_mul,
    Nat.mul_comm] at hsum
  exact hsum

end

def remaining : Measure where
  worker
    | .running _ children => sizes children
    | _ => 0
  call call := sizes (pendingJob call)
  task job := sizes job.children
  owner o := sizes (jobs o.rest)

def gets : List Act → Nat
  | [] => 0
  | .enqueue _ :: code => gets code
  | .get _ :: code => gets code + 1

-- the moves ahead, where a task of `k` tasks costs nine for each
def weight (n : Nat) : Measure where
  worker
    | .locking => 2
    | .checking => 1
    | .running _ children => 3 + 9 * sizes children
    | _ => 0
  call
    | some (.locking job) => 8 + 9 * sizes job.children
    | some (.pushing job) => 7 + 9 * sizes job.children
    | some .notifying => 3
    | none => 0
  task job := 3 + 9 * sizes job.children
  owner
    | .body code => 9 * sizes (jobs code) + gets code + 3 * n + 5
    | .locking => 3 * n + 4
    | .stopping => 3 * n + 3
    | .notifying => 3 * n + 2
    | .joining i => n - i + 1
    | .done => 0

def State.weight (n : Nat) (s : State) : Nat :=
  (WorkerPool.weight n).total n s + if s.failed then 0 else 1

theorem weight_size (job : Job) : 9 * job.size = 9 * sizes job.children + 9 := by
  rw [size_eq, Nat.mul_add]

def Move.isSpurious : Move → Bool
  | .run _ _ => false
  | .spurious _ => true

def Move.gain (m : Move) : Nat := if m.isSpurious then 3 else 0

section

variable {n : Nat} {s s' : State} {m : Move}

theorem gains_eq (ms : List Move) :
    Transition.gains Move.gain ms = 3 * ms.countP Move.isSpurious := by
  induction ms with
  | nil => rfl
  | cons m ms ih =>
    rw [Transition.gains, List.countP_cons, ih]
    unfold Move.gain
    split <;> omega

theorem event_weight (h : Event n s m s') (hf : s.failed = false) (hb : s.owner.joined n ≤ n) :
    s'.weight n + 1 ≤ s.weight n + m.gain := by
  unfold State.weight Measure.total
  rw [hf]
  cases h with
  | acquire t choice job ht hc hl =>
    have h := (weight n).calls_update (a := 8 + 9 * sizes job.children)
      (b := 7 + 9 * sizes job.children) (c := some (.pushing job)) ht hc rfl rfl
    simp only [setCall, hf]
    omega
  | reject t choice job ht hc hstop => exact le_refl _
  | push t choice job ht hc hstop =>
    have h := (weight n).calls_update (a := 7 + 9 * sizes job.children) (b := 3)
      (c := some .notifying) ht hc rfl rfl
    have hq : _ = _ + (3 + 9 * sizes job.children) := (weight n).tasks_append s.tasks job
    simp only [setCall, push, hf]
    omega
  | wake t choice ht hc hi hw =>
    have h := (weight n).calls_update (a := 3) (b := 0) (c := none) ht hc rfl rfl
    have hwoken := (weight n).workers_update (a := (weight n).worker (s.workers choice)) (b := 2)
      (w := .locking) hi rfl rfl rfl
    simp only [setCall, setWorker, hf]
    omega
  | wakeNone t choice ht hc hw =>
    have h := (weight n).calls_update (a := 3) (b := 0) (c := none) ht hc rfl rfl
    simp only [setCall, hf]
    omega
  | lock i choice hi hc hw hl =>
    have h := (weight n).workers_update (a := 2) (b := 1) (w := .checking) hi hw rfl rfl
    simp only [setWorker, hf]
    omega
  | exit i choice hi hc hw hq hstop =>
    have h := (weight n).workers_update (a := 1) (b := 0) (w := .exited) hi hw rfl rfl
    simp only [setWorker, hf]
    omega
  | wait i choice hi hc hw hq hstop =>
    have h := (weight n).workers_update (a := 1) (b := 0) (w := .waiting) hi hw rfl rfl
    simp only [setWorker, hf]
    omega
  | pop i choice job rest hi hc hw hq =>
    have h := (weight n).workers_update (a := 1) (b := 3 + 9 * sizes job.children)
      (w := .running s.popped job.children) hi hw rfl rfl
    have htasks : _ = (3 + 9 * sizes job.children) + _ := (weight n).tasks_cons job rest
    simp only [pop, setWorker, hf, hq]
    omega
  | spawn i choice ticket job children hi hc hw =>
    have hw' := (weight n).workers_update (a := 3 + 9 * (job.size + sizes children))
      (b := 3 + 9 * sizes children) (w := .running ticket children) hi hw rfl rfl
    have hc' := (weight n).calls_update (a := 0) (b := 8 + 9 * sizes job.children)
      (c := some (.locking job)) (t := .worker i) hi hc rfl rfl
    have hsize := weight_size job
    simp only [setCall, setWorker, hf]
    omega
  | finish i choice ticket hi hc hw =>
    have h := (weight n).workers_update (a := 3) (b := 2) (w := .locking) hi hw rfl rfl
    simp only [setWorker, hf]
    omega
  | submit choice job code hc ho =>
    have h := (weight n).calls_update (a := 0) (b := 8 + 9 * sizes job.children)
      (n := n) (c := some (.locking job)) (t := .owner) trivial hc rfl rfl
    have hold : (weight n).owner s.owner =
      9 * (job.size + sizes (jobs code)) + gets code + 3 * n + 5 := by
        rw [ho]
        rfl
    have hnew : (weight n).owner (.body code) = 9 * sizes (jobs code) + gets code + 3 * n + 5 := rfl
    have hsize := weight_size job
    simp only [setCall, hf]
    omega
  | get choice k code hc ho =>
    simp only [weight, jobs, gets, ho, hf]
    omega
  | destroy choice hc ho =>
    simp only [weight, ho, hf]
    omega
  | ownerLock choice hc ho hl =>
    simp only [weight, ho, hf]
    omega
  | stop choice hc ho =>
    simp only [weight, ho, hf]
    omega
  | wakeAll choice hc ho =>
    have h := (weight n).notifyAll_le (n := n) (s := s) (a := 2) (le_refl 2)
    have hcalls : (notifyAll s).calls = s.calls := rfl
    have htasks : (notifyAll s).tasks = s.tasks := rfl
    have hfailed : (notifyAll s).failed = false := hf
    simp only [hcalls, htasks, hfailed, ho]
    simp only [weight] at h ⊢
    omega
  | joined choice hc ho =>
    simp only [weight, ho, hf]
    omega
  | join choice i hc ho hi hw =>
    rw [ho] at hb
    simp only [Owner.joined] at hb
    simp only [weight, ho, hf]
    omega
  | spurious i hi hw =>
    have h := (weight n).workers_update (a := (weight n).worker (s.workers i)) (b := 2)
      (w := .locking) hi rfl rfl rfl
    have hgain : (Move.spurious i).gain = 3 := rfl
    simp only [setWorker, hf]
    omega

theorem remaining_notifyAll : remaining.workers n (notifyAll s).workers =
    remaining.workers n s.workers := by
  refine Finset.sum_congr rfl fun i _ => ?_
  unfold notifyAll
  dsimp only
  split
  case isTrue hw =>
    cases hcase : s.workers i <;> simp_all [Worker.IsWaiting, remaining]
  case isFalse => rfl

theorem event_remaining (h : Event n s m s') :
    s'.pushed.length + remaining.total n s' = s.pushed.length + remaining.total n s := by
  unfold Measure.total
  cases h with
  | acquire t choice job ht hc hl =>
    have h := remaining.calls_update (a := job.size) (b := job.size)
      (c := some (.pushing job)) ht hc rfl rfl
    simp only [setCall]
    omega
  | reject t choice job ht hc hstop => rfl
  | push t choice job ht hc hstop =>
    have h := remaining.calls_update (a := job.size) (b := 0) (c := some .notifying) ht hc rfl rfl
    have hq : _ = _ + sizes job.children := remaining.tasks_append s.tasks job
    have hsize := size_eq job
    simp only [setCall, push, List.length_append, List.length_singleton]
    omega
  | wake t choice ht hc hi hw =>
    have h := remaining.calls_update (a := 0) (b := 0) (c := none) ht hc rfl rfl
    have hwoken := remaining.workers_update (a := remaining.worker (s.workers choice)) (b := 0)
      (w := .locking) hi rfl rfl rfl
    have hwait : remaining.worker (s.workers choice) = 0 := by
      cases hcase : s.workers choice <;> simp_all [Worker.IsWaiting, remaining]
    simp only [setCall, setWorker]
    omega
  | wakeNone t choice ht hc hw =>
    have h := remaining.calls_update (a := 0) (b := 0) (c := none) ht hc rfl rfl
    simp only [setCall]
    omega
  | lock i choice hi hc hw hl =>
    have h := remaining.workers_update (a := 0) (b := 0) (w := .checking) hi hw rfl rfl
    simp only [setWorker]
    omega
  | exit i choice hi hc hw hq hstop =>
    have h := remaining.workers_update (a := 0) (b := 0) (w := .exited) hi hw rfl rfl
    simp only [setWorker]
    omega
  | wait i choice hi hc hw hq hstop =>
    have h := remaining.workers_update (a := 0) (b := 0) (w := .waiting) hi hw rfl rfl
    simp only [setWorker]
    omega
  | pop i choice job rest hi hc hw hq =>
    have h := remaining.workers_update (a := 0) (b := sizes job.children)
      (w := .running s.popped job.children) hi hw rfl rfl
    have htasks : _ = sizes job.children + _ := remaining.tasks_cons job rest
    simp only [pop, setWorker, hq]
    omega
  | spawn i choice ticket job children hi hc hw =>
    have hw' := remaining.workers_update (a := job.size + sizes children) (b := sizes children)
      (w := .running ticket children) hi hw rfl rfl
    have hc' := remaining.calls_update (a := 0) (b := job.size)
      (c := some (.locking job)) (t := .worker i) hi hc rfl rfl
    simp only [setCall, setWorker]
    omega
  | finish i choice ticket hi hc hw =>
    have h := remaining.workers_update (a := 0) (b := 0) (w := .locking) hi hw rfl rfl
    simp only [setWorker]
    omega
  | submit choice job code hc ho =>
    have h := remaining.calls_update (a := 0) (b := job.size)
      (n := n) (c := some (.locking job)) (t := .owner) trivial hc rfl rfl
    have hold : remaining.owner s.owner = job.size + sizes (jobs code) := by
      rw [ho]
      rfl
    have hnew : remaining.owner (.body code) = sizes (jobs code) := rfl
    simp only [setCall]
    omega
  | get choice k code hc ho => rw [ho]; rfl
  | destroy choice hc ho => rw [ho]; rfl
  | ownerLock choice hc ho hl => rw [ho]; rfl
  | stop choice hc ho => rw [ho]; rfl
  | wakeAll choice hc ho =>
    rw [remaining_notifyAll, ho]
    rfl
  | joined choice hc ho => rw [ho]; rfl
  | join choice i hc ho hi hw => rw [ho]; rfl
  | spurious i hi hw =>
    have h := remaining.workers_update (a := remaining.worker (s.workers i)) (b := 0)
      (w := .locking) hi rfl rfl rfl
    have hwait : remaining.worker (s.workers i) = 0 := by
      cases hcase : s.workers i <;> simp_all [Worker.IsWaiting, remaining]
    simp only [setWorker]
    omega

end

end EmpTool.WorkerPool
