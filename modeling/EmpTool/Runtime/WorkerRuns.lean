import EmpTool.Runtime.WorkerWeight
import Mathlib.Data.List.GetD

namespace EmpTool.WorkerPool

open Transition

structure Inv (n : Nat) (code : List Act) (s : State) : Prop where
  locked : Locked s
  queued : Queued s
  ticketed : Ticketed n s
  assigned : Assigned s
  phased : Phased n s
  idle : Idle n s
  watched : Watched n s
  refused : Refused s
  promised : Promised code s
  count : s.pushed.length + remaining.total n s = sizes (jobs code)

section

variable {n : Nat} {code : List Act} {s s' : State} {m : Move} {t : Thread}

theorem start_inv (n : Nat) (code : List Act) : Inv n code (start code) where
  locked := start_locked code
  queued := ⟨rfl, le_refl 0⟩
  ticketed := by constructor <;> simp [start, Runs]
  assigned := by simp [Assigned, start]
  phased := by constructor <;> simp [start, Owner.Stopped, Worker.IsWaiting, Worker.IsExited,
    Owner.Woken, Owner.joined]
  idle _ _ := rfl
  watched h := absurd rfl h
  refused h := absurd h Bool.false_ne_true
  promised := ⟨[], rfl, rfl⟩
  count := by simp [start, Measure.total, Measure.workers, Measure.calls, Measure.tasks, remaining,
    pendingJob, sizes, Owner.rest]

theorem step_inv (hn : 0 < n) (hs : Inv n code s) (hm : step n s m = some s') : Inv n code s' := by
  obtain ⟨hf, h⟩ := step_event hm
  constructor
  · exact event_locked h hs.locked
  · exact event_queued h hs.queued
  · exact event_ticketed h hs.ticketed
  · exact event_assigned h hs.queued hs.assigned
  · exact event_phased h hs.phased
  · exact event_idle h hs.idle
  · exact event_watched hn h hs.locked hs.watched
  · exact event_refused h hf hs.locked hs.phased
  · exact event_promised h hs.promised
  · exact (event_remaining h).trans hs.count

theorem run_inv (hn : 0 < n) {ms : List Move} (hrun : run (step n) (start code) ms = some s) :
    Inv n code s :=
  run_invariant (fun _ _ _ hs hm => step_inv hn hs hm) (start_inv n code) hrun

theorem step_weight (hs : Inv n code s) (hm : step n s m = some s') :
    s'.weight n + 1 ≤ s.weight n + m.gain := by
  obtain ⟨hf, h⟩ := step_event hm
  exact event_weight h hf hs.phased.bound

theorem step_run (hf : s.failed = false) (ht : t.IsIn n) (choice : Nat) :
    step n s (.run t choice) = threadStep n s t choice := by
  simp [step, hf, ht]

theorem threadStep_call {call : Call} (hc : s.calls t = some call) (choice : Nat) :
    threadStep n s t choice = callStep n s t choice call := by
  cases t <;> simp [threadStep, hc]

def Enabled (n : Nat) (s : State) (t : Thread) : Prop :=
  ∃ choice s', threadStep n s t choice = some s'

theorem notifyOne_enabled (n : Nat) (s : State) : ∃ choice s', notifyOne n s choice = some s' := by
  by_cases h : ∃ i < n, (s.workers i).IsWaiting
  · obtain ⟨i, hi, hw⟩ := h
    exact ⟨i, _, if_pos ⟨hi, hw⟩⟩
  · refine ⟨0, s, ?_⟩
    have h0 : ¬ (0 < n ∧ (s.workers 0).IsWaiting) := fun h' => h ⟨0, h'⟩
    unfold notifyOne
    rw [if_neg h0, if_neg h]

theorem call_enabled {call : Call} (hc : s.calls t = some call)
    (hl : ∀ job, call = .locking job → s.lock = none) : Enabled n s t := by
  unfold Enabled
  simp only [threadStep_call hc]
  cases call with
  | locking job => exact ⟨0, _, if_pos (hl job rfl)⟩
  | pushing job =>
    by_cases hs : s.stop = true
    · exact ⟨0, _, if_pos hs⟩
    · exact ⟨0, _, if_neg hs⟩
  | notifying =>
    obtain ⟨choice, s₁, h⟩ := notifyOne_enabled n s
    exact ⟨choice, _, Option.map_eq_some_iff.mpr ⟨s₁, h, rfl⟩⟩

theorem checking_enabled {i : Nat} (hc : s.calls (.worker i) = none)
    (hw : s.workers i = .checking) : Enabled n s (.worker i) := by
  simp only [Enabled, threadStep, hc, loopStep, hw]
  cases s.tasks with
  | nil =>
    by_cases hs : s.stop = true
    · exact ⟨0, _, if_pos hs⟩
    · exact ⟨0, _, if_neg hs⟩
  | cons job rest => exact ⟨0, _, rfl⟩

theorem holder_enabled (hh : Holds s t) : Enabled n s t := by
  cases hc : s.calls t with
  | some call =>
    cases call with
    | locking job => exact absurd hh (not_holds_locking hc)
    | pushing job => exact call_enabled hc nofun
    | notifying => exact absurd hh (not_holds_notifying hc)
  | none =>
    rw [holds_none hc] at hh
    cases t with
    | owner =>
      have ho : s.owner = .stopping := hh
      simp [Enabled, threadStep, hc, ownerStep, ho]
    | worker i => exact checking_enabled hc hh

theorem holder_isIn (hs : Inv n code s) (hh : Holds s t) : t.IsIn n := by
  cases t with
  | owner => trivial
  | worker i =>
    by_contra hi
    have hw := hs.idle i (Nat.le_of_not_lt hi)
    cases hc : s.calls (.worker i) with
    | none => simp [holds_none hc, Critical, hw] at hh
    | some call =>
      obtain ⟨ticket, children, h⟩ := hs.locked.busy (.worker i) (by simp [hc])
      simp [hw] at h

theorem worker_enabled {i : Nat} (hl : s.lock = none) (hw : ¬ (s.workers i).IsWaiting)
    (he : ¬ (s.workers i).IsExited) : Enabled n s (.worker i) := by
  cases hc : s.calls (.worker i) with
  | some call => exact call_enabled hc fun _ _ => hl
  | none =>
    cases hcase : s.workers i with
    | locking => simp [Enabled, threadStep, hc, loopStep, hcase, hl]
    | checking => exact checking_enabled hc hcase
    | waiting => simp [hcase, Worker.IsWaiting] at hw
    | running ticket children => cases children <;> simp [Enabled, threadStep, hc, loopStep, hcase]
    | exited => simp [hcase, Worker.IsExited] at he

-- the task of a future that the owner waits for has run once every worker is idle
theorem future_finished (hasks : Asks 0 code) (hs : Inv n code s)
    (hquiet : ∀ i < n, (s.workers i).IsWaiting ∨ (s.workers i).IsExited)
    (hc : s.calls .owner = none) {k : Nat} {rest : List Act}
    (ho : s.owner = .body (.get k :: rest)) :
    s.futures.getD k s.pushed.length ∈ s.finished := by
  have hlt := hs.promised.future_lt
  obtain ⟨past, hcode, hjobs⟩ := hs.promised
  have hk : k < s.futures.length := by
    have hrest := asks_append (hcode ▸ hasks)
    rw [ho] at hrest
    have hlen := congrArg List.length hjobs
    rw [hc] at hlen
    simp only [List.length_map, List.length_append, pendingJob, List.length_nil] at hlen
    have := hrest.1
    omega
  have hfuture := hlt _ (List.getElem_mem hk)
  rw [List.getD_eq_getElem _ _ hk]
  have hidle : ∀ i, ¬ Runs s i s.futures[k] := by
    intro i hrun
    obtain ⟨children, hi⟩ := id hrun
    rcases hquiet i (hs.ticketed.inside i _ hrun) with hw | hw
    · simp [hi, Worker.IsWaiting] at hw
    · simp [hi, Worker.IsExited] at hw
  have hempty : s.tasks = [] := by
    by_contra hq
    rcases hs.watched hq with ⟨i, hi, hw⟩ | hnotify
    · exact hq (hs.phased.exited i ((hquiet i hi).resolve_left hw)).2
    · simp [hc] at hnotify
  have hpopped : s.pushed.length ≤ s.popped := by
    rw [← List.drop_eq_nil_iff, ← hs.queued.tasks, hempty]
  rcases (hs.ticketed.taken s.futures[k]).mp (by omega) with hdone | ⟨i, hrun⟩
  · exact hdone
  · exact absurd hrun (hidle i)

theorem owner_enabled (hasks : Asks 0 code) (hs : Inv n code s) (hl : s.lock = none)
    (ho : s.owner ≠ .done)
    (hquiet : ∀ i < n, (s.workers i).IsWaiting ∨ (s.workers i).IsExited) :
    Enabled n s .owner := by
  cases hc : s.calls .owner with
  | some call => exact call_enabled hc fun _ _ => hl
  | none =>
    simp only [Enabled, threadStep, hc, ownerStep]
    cases hcase : s.owner with
    | body acts =>
      cases acts with
      | nil => exact ⟨0, _, rfl⟩
      | cons act rest =>
        cases act with
        | enqueue job => exact ⟨0, _, rfl⟩
        | get k => exact ⟨0, _, if_pos (future_finished hasks hs hquiet hc hcase)⟩
    | locking => exact ⟨0, _, if_pos hl⟩
    | stopping => exact ⟨0, _, rfl⟩
    | notifying => exact ⟨0, _, rfl⟩
    | joining i =>
      by_cases hi : i = n
      · exact ⟨0, _, if_pos hi⟩
      · have hbound := hs.phased.bound
        rw [hcase] at hbound
        have hawake := hs.phased.awake (by rw [hcase]; trivial) i
        have hexit := (hquiet i (Nat.lt_of_le_of_ne hbound hi)).resolve_left hawake
        exact ⟨0, _, (if_neg hi).trans (if_pos hexit)⟩
    | done => exact absurd hcase ho

def Ended (s : State) : Prop :=
  s.failed = true ∨ s.owner = .done

theorem inv_progress (hasks : Asks 0 code) (hs : Inv n code s) (he : ¬ Ended s) :
    ∃ t choice s', step n s (.run t choice) = some s' := by
  obtain ⟨hf, ho⟩ := not_or.mp he
  have hf : s.failed = false := Bool.eq_false_iff.mpr hf
  have henabled : ∃ t : Thread, t.IsIn n ∧ Enabled n s t := by
    cases hl : s.lock with
    | some t =>
      have hh := (hs.locked.holds t).mpr hl
      exact ⟨t, holder_isIn hs hh, holder_enabled hh⟩
    | none =>
      by_cases hactive : ∃ i < n, ¬ (s.workers i).IsWaiting ∧ ¬ (s.workers i).IsExited
      · obtain ⟨i, hi, hw, he⟩ := hactive
        exact ⟨.worker i, hi, worker_enabled hl hw he⟩
      · refine ⟨.owner, trivial, owner_enabled hasks hs hl ho fun i hi => ?_⟩
        by_contra hw
        exact hactive ⟨i, hi, not_or.mp hw⟩
  obtain ⟨t, ht, choice, s', h⟩ := henabled
  exact ⟨t, choice, s', (step_run hf ht choice).trans h⟩

theorem done_remaining (hn : 0 < n) (hs : Inv n code s) (ho : s.owner = .done) :
    remaining.total n s = 0 := by
  have hexited := hs.phased.joined
  rw [ho] at hexited
  have hworker : ∀ i < n, s.workers i = .exited := by
    intro i hi
    have := hexited i hi
    cases hcase : s.workers i <;> simp_all [Worker.IsExited]
  have hcalls : ∀ t : Thread, t.IsIn n → s.calls t = none := by
    intro t ht
    by_contra h
    have hbusy := hs.locked.busy t h
    cases t with
    | owner =>
      obtain ⟨acts, h⟩ := hbusy
      simp [ho] at h
    | worker i =>
      obtain ⟨ticket, children, h⟩ := hbusy
      simp [hworker i ht] at h
  have htasks : s.tasks = [] := (hs.phased.exited 0 (hexited 0 hn)).2
  have hw : remaining.workers n s.workers = 0 :=
    Finset.sum_eq_zero fun i hi => by rw [hworker i (Finset.mem_range.mp hi)]; rfl
  have hc : ∑ i ∈ Finset.range n, remaining.call (s.calls (.worker i)) = 0 :=
    Finset.sum_eq_zero fun i hi => by rw [hcalls (.worker i) (Finset.mem_range.mp hi)]; rfl
  unfold Measure.total Measure.calls
  rw [hw, hc, hcalls .owner trivial, htasks, ho]
  rfl

theorem done_finished (hn : 0 < n) (hs : Inv n code s) (ho : s.owner = .done) :
    s.pushed.length = sizes (jobs code) ∧ s.finished.Perm (List.range (sizes (jobs code))) := by
  have hlen : s.pushed.length = sizes (jobs code) := by
    have hcount := hs.count
    rw [done_remaining hn hs ho] at hcount
    exact hcount
  have hexited := hs.phased.joined
  rw [ho] at hexited
  have hpopped : s.popped = s.pushed.length := by
    have hdrop := hs.queued.tasks.symm.trans (hs.phased.exited 0 (hexited 0 hn)).2
    exact Nat.le_antisymm hs.queued.popped (List.drop_eq_nil_iff.mp hdrop)
  refine ⟨hlen, (List.perm_ext_iff_of_nodup hs.ticketed.nodup List.nodup_range).mpr fun k => ?_⟩
  rw [List.mem_range, ← hlen, ← hpopped, hs.ticketed.taken k]
  refine (or_iff_left ?_).symm
  rintro ⟨i, hrun⟩
  have hw := hexited i (hs.ticketed.inside i k hrun)
  obtain ⟨children, hi⟩ := hrun
  simp [hi, Worker.IsExited] at hw

theorem start_weight (n : Nat) (code : List Act) :
    (start code).weight n = 9 * sizes (jobs code) + gets code + 5 * n + 6 := by
  have hworkers : (weight n).workers n (start code).workers = 2 * n := by
    simp [Measure.workers, start, weight, Nat.mul_comm]
  have hcalls : (weight n).calls n (start code).calls = 0 := by
    simp [Measure.calls, start, weight]
  have htasks : (weight n).tasks (start code).tasks = 0 := rfl
  have howner : (weight n).owner (start code).owner =
    9 * sizes (jobs code) + gets code + 3 * n + 5 := rfl
  have hfailed : (start code).failed = false := rfl
  unfold State.weight Measure.total
  rw [hworkers, hcalls, htasks, howner, hfailed, if_neg Bool.false_ne_true]
  omega

theorem pool_runs_each_task_once (hn : 0 < n) {ms : List Move}
    (hrun : run (step n) (start code) ms = some s) :
    (∀ t t', Holds s t → Holds s t' → t = t') ∧
    s.tasks = s.pushed.drop s.popped ∧
    (∀ k, k < s.popped ↔ k ∈ s.finished ∨ ∃ i, Runs s i k) ∧
    s.finished.Nodup ∧
    (∀ i j k, Runs s i k → i < n ∧ k ∉ s.finished ∧ (Runs s j k → i = j)) ∧
    Assigned s ∧ Promised code s ∧
    (s.failed = true → s.stop = true ∧ ∃ i k job child, Runs s i k ∧ s.pushed[k]? = some job ∧
      child ∈ job.children ∧ s.calls (.worker i) = some (.pushing child)) ∧
    (s.owner = .done → s.pushed.length = sizes (jobs code) ∧
      s.finished.Perm (List.range (sizes (jobs code)))) := by
  have hs := run_inv hn hrun
  refine ⟨fun t t' h h' => ?_, hs.queued.tasks, hs.ticketed.taken, hs.ticketed.nodup,
    fun i j k h => ?_, hs.assigned, hs.promised, fun hf => ?_, done_finished hn hs⟩
  · have heq := ((hs.locked.holds t).mp h).symm.trans ((hs.locked.holds t').mp h')
    exact Option.some.inj heq
  · exact ⟨hs.ticketed.inside i k h, hs.ticketed.unfinished i k h, hs.ticketed.unique i j k h⟩
  · obtain ⟨hstop, i, child, hc⟩ := hs.refused hf
    obtain ⟨k, children, hw⟩ := hs.locked.busy (.worker i) (by simp [hc])
    obtain ⟨job, hk, hsub⟩ := hs.assigned i k children hw
    rw [hc] at hsub
    have hmem := hsub.subset (List.mem_cons_self (a := child) (l := children))
    exact ⟨hstop, i, k, job, child, ⟨children, hw⟩, hk, hmem, hc⟩

def nestedCode : List Act := [.enqueue (.mk [.mk []]), .get 0]

def nestedMoves : List Move :=
  List.replicate 2 (.run (.worker 0) 0) ++ List.replicate 4 (.run .owner 0) ++
    List.replicate 12 (.run (.worker 0) 0) ++ List.replicate 5 (.run .owner 0) ++
    List.replicate 2 (.run (.worker 0) 0) ++ List.replicate 2 (.run .owner 0)

theorem nested_isSome : (run (step 1) (start nestedCode) nestedMoves).isSome = true := by decide

theorem pool_runs_each_task_once_nested :
    ∃ s, run (step 1) (start nestedCode) nestedMoves = some s ∧ s.pushed.length = 2 ∧
      s.finished.Perm (List.range 2) :=
  ⟨_, (Option.some_get nested_isSome).symm,
    (pool_runs_each_task_once (n := 1) Nat.one_pos
      (Option.some_get nested_isSome).symm).2.2.2.2.2.2.2.2 rfl⟩

theorem pool_never_hangs (hn : 0 < n) (hasks : Asks 0 code) {ms : List Move}
    (hrun : run (step n) (start code) ms = some s) :
    ms.length ≤ 9 * sizes (jobs code) + gets code + 5 * n + 6 + 3 * ms.countP Move.isSpurious ∧
    (¬ Ended s → ∃ t choice s', step n s (.run t choice) = some s') ∧
    ∃ ms' s', (∀ m ∈ ms', m.isSpurious = false) ∧ run (step n) s ms' = some s' ∧ Ended s' := by
  have hinv : ∀ s m s', Inv n code s → step n s m = some s' → Inv n code s' :=
    fun _ _ _ hs hm => step_inv hn hs hm
  have hweight : ∀ s m s', Inv n code s → step n s m = some s' →
      s'.weight n + 1 ≤ s.weight n + m.gain := fun _ _ _ hs hm => step_weight hs hm
  have hs := run_inv hn hrun
  refine ⟨?_, inv_progress hasks hs, ?_⟩
  · have hlength := run_length_le hinv hweight (start_inv n code) hrun
    rw [start_weight, gains_eq] at hlength
    omega
  · have hprogress : ∀ s, Inv n code s → ¬ Ended s →
        ∃ m s', m.gain = 0 ∧ step n s m = some s' := by
      intro s hs he
      obtain ⟨t, choice, s', h⟩ := inv_progress hasks hs he
      exact ⟨.run t choice, s', rfl, h⟩
    obtain ⟨ms', s', hgain, hrun', he⟩ := reaches_final hinv hweight hprogress hs
    refine ⟨ms', s', fun m hm => ?_, hrun', he⟩
    have := hgain m hm
    unfold Move.gain at this
    split at this
    · omega
    · exact Bool.eq_false_iff.mpr ‹_›

theorem pool_never_hangs_nested :
    nestedMoves.length ≤ 9 * 2 + 1 + 5 * 1 + 6 + 3 * nestedMoves.countP Move.isSpurious :=
  (pool_never_hangs (n := 1) Nat.one_pos (show Asks 0 nestedCode from ⟨Nat.one_pos, trivial⟩)
    (Option.some_get nested_isSome).symm).1

end

end EmpTool.WorkerPool
