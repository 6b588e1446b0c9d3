import EmpTool.Runtime.WorkerPool
import Mathlib.Tactic.Push

namespace EmpTool.WorkerPool

section

variable (n : Nat) (s : State)

inductive Event : Move → State → Prop
  | acquire (t : Thread) (choice : Nat) (job : Job) (ht : t.IsIn n)
    (hc : s.calls t = some (.locking job)) (hl : s.lock = none) :
    Event (.run t choice) (setCall { s with lock := some t } t (some (.pushing job)))
  | reject (t : Thread) (choice : Nat) (job : Job) (ht : t.IsIn n)
    (hc : s.calls t = some (.pushing job)) (hs : s.stop = true) :
    Event (.run t choice) { s with failed := true }
  | push (t : Thread) (choice : Nat) (job : Job) (ht : t.IsIn n)
    (hc : s.calls t = some (.pushing job)) (hs : s.stop = false) :
    Event (.run t choice) (setCall (push { s with lock := none } t job) t (some .notifying))
  | wake (t : Thread) (choice : Nat) (ht : t.IsIn n) (hc : s.calls t = some .notifying)
    (hi : choice < n) (hw : (s.workers choice).IsWaiting) :
    Event (.run t choice) (setCall (setWorker s choice .locking) t none)
  | wakeNone (t : Thread) (choice : Nat) (ht : t.IsIn n) (hc : s.calls t = some .notifying)
    (hw : ∀ i < n, ¬ (s.workers i).IsWaiting) :
    Event (.run t choice) (setCall s t none)
  | lock (i choice : Nat) (hi : i < n) (hc : s.calls (.worker i) = none)
    (hw : s.workers i = .locking) (hl : s.lock = none) :
    Event (.run (.worker i) choice) (setWorker { s with lock := some (.worker i) } i .checking)
  | exit (i choice : Nat) (hi : i < n) (hc : s.calls (.worker i) = none)
    (hw : s.workers i = .checking) (hq : s.tasks = []) (hs : s.stop = true) :
    Event (.run (.worker i) choice) (setWorker { s with lock := none } i .exited)
  | wait (i choice : Nat) (hi : i < n) (hc : s.calls (.worker i) = none)
    (hw : s.workers i = .checking) (hq : s.tasks = []) (hs : s.stop = false) :
    Event (.run (.worker i) choice) (setWorker { s with lock := none } i .waiting)
  | pop (i choice : Nat) (job : Job) (rest : List Job) (hi : i < n)
    (hc : s.calls (.worker i) = none) (hw : s.workers i = .checking) (hq : s.tasks = job :: rest) :
    Event (.run (.worker i) choice) (pop { s with lock := none } i job rest)
  | spawn (i choice ticket : Nat) (job : Job) (children : List Job) (hi : i < n)
    (hc : s.calls (.worker i) = none) (hw : s.workers i = .running ticket (job :: children)) :
    Event (.run (.worker i) choice)
      (setCall (setWorker s i (.running ticket children)) (.worker i) (some (.locking job)))
  | finish (i choice ticket : Nat) (hi : i < n) (hc : s.calls (.worker i) = none)
    (hw : s.workers i = .running ticket []) :
    Event (.run (.worker i) choice)
      (setWorker { s with finished := s.finished ++ [ticket] } i .locking)
  | submit (choice : Nat) (job : Job) (code : List Act) (hc : s.calls .owner = none)
    (ho : s.owner = .body (.enqueue job :: code)) :
    Event (.run .owner choice)
      (setCall { s with owner := .body code } .owner (some (.locking job)))
  | get (choice k : Nat) (code : List Act) (hc : s.calls .owner = none)
    (ho : s.owner = .body (.get k :: code))
    (hk : s.futures.getD k s.pushed.length ∈ s.finished) :
    Event (.run .owner choice) { s with owner := .body code }
  | destroy (choice : Nat) (hc : s.calls .owner = none) (ho : s.owner = .body []) :
    Event (.run .owner choice) { s with owner := .locking }
  | ownerLock (choice : Nat) (hc : s.calls .owner = none) (ho : s.owner = .locking)
    (hl : s.lock = none) :
    Event (.run .owner choice) { s with lock := some .owner, owner := .stopping }
  | stop (choice : Nat) (hc : s.calls .owner = none) (ho : s.owner = .stopping) :
    Event (.run .owner choice) { s with lock := none, stop := true, owner := .notifying }
  | wakeAll (choice : Nat) (hc : s.calls .owner = none) (ho : s.owner = .notifying) :
    Event (.run .owner choice) { notifyAll s with owner := .joining 0 }
  | joined (choice : Nat) (hc : s.calls .owner = none) (ho : s.owner = .joining n) :
    Event (.run .owner choice) { s with owner := .done }
  | join (choice i : Nat) (hc : s.calls .owner = none) (ho : s.owner = .joining i) (hi : i ≠ n)
    (hw : (s.workers i).IsExited) :
    Event (.run .owner choice) { s with owner := .joining (i + 1) }
  | spurious (i : Nat) (hi : i < n) (hw : (s.workers i).IsWaiting) :
    Event (.spurious i) (setWorker s i .locking)

end

section

variable {n : Nat} {s s' : State}

theorem callStep_event {t : Thread} {choice : Nat} {call : Call} (ht : t.IsIn n)
    (hc : s.calls t = some call) (h : callStep n s t choice call = some s') :
    Event n s (.run t choice) s' := by
  cases call with
  | locking job =>
    obtain ⟨hl, rfl⟩ := Option.ite_some_none_eq_some.mp h
    exact .acquire t choice job ht hc hl
  | pushing job =>
    by_cases hs : s.stop = true
    · obtain rfl := Option.some.inj ((if_pos hs).symm.trans h)
      exact .reject t choice job ht hc hs
    · obtain rfl := Option.some.inj ((if_neg hs).symm.trans h)
      exact .push t choice job ht hc (Bool.eq_false_iff.mpr hs)
  | notifying =>
    obtain ⟨s₁, h₁, rfl⟩ := Option.map_eq_some_iff.mp h
    by_cases hi : choice < n ∧ (s.workers choice).IsWaiting
    · obtain rfl := Option.some.inj ((if_pos hi).symm.trans h₁)
      exact .wake t choice ht hc hi.1 hi.2
    · obtain ⟨hw, h₂⟩ := Option.ite_none_left_eq_some.mp ((if_neg hi).symm.trans h₁)
      obtain rfl := Option.some.inj h₂
      push Not at hw
      exact .wakeNone t choice ht hc hw

theorem loopStep_event {i choice : Nat} (hi : i < n) (hc : s.calls (.worker i) = none)
    (h : loopStep s i = some s') : Event n s (.run (.worker i) choice) s' := by
  unfold loopStep at h
  split at h
  case h_1 hw =>
    obtain ⟨hl, rfl⟩ := Option.ite_some_none_eq_some.mp h
    exact .lock i choice hi hc hw hl
  case h_2 hw =>
    split at h
    case h_1 hq =>
      by_cases hs : s.stop = true
      · obtain rfl := Option.some.inj ((if_pos hs).symm.trans h)
        exact .exit i choice hi hc hw hq hs
      · obtain rfl := Option.some.inj ((if_neg hs).symm.trans h)
        exact .wait i choice hi hc hw hq (Bool.eq_false_iff.mpr hs)
    case h_2 job rest hq =>
      obtain rfl := Option.some.inj h
      exact .pop i choice job rest hi hc hw hq
  case h_3 => cases h
  case h_4 ticket job children hw =>
    obtain rfl := Option.some.inj h
    exact .spawn i choice ticket job children hi hc hw
  case h_5 ticket hw =>
    obtain rfl := Option.some.inj h
    exact .finish i choice ticket hi hc hw
  case h_6 => cases h

theorem ownerStep_event {choice : Nat} (hc : s.calls .owner = none)
    (h : ownerStep n s = some s') : Event n s (.run .owner choice) s' := by
  unfold ownerStep at h
  split at h
  case h_1 job code ho =>
    obtain rfl := Option.some.inj h
    exact .submit choice job code hc ho
  case h_2 k code ho =>
    obtain ⟨hk, rfl⟩ := Option.ite_some_none_eq_some.mp h
    exact .get choice k code hc ho hk
  case h_3 ho =>
    obtain rfl := Option.some.inj h
    exact .destroy choice hc ho
  case h_4 ho =>
    obtain ⟨hl, rfl⟩ := Option.ite_some_none_eq_some.mp h
    exact .ownerLock choice hc ho hl
  case h_5 ho =>
    obtain rfl := Option.some.inj h
    exact .stop choice hc ho
  case h_6 ho =>
    obtain rfl := Option.some.inj h
    exact .wakeAll choice hc ho
  case h_7 i ho =>
    by_cases hi : i = n
    · subst hi
      obtain rfl := Option.some.inj ((if_pos rfl).symm.trans h)
      exact .joined choice hc ho
    · obtain ⟨hw, rfl⟩ := Option.ite_some_none_eq_some.mp ((if_neg hi).symm.trans h)
      exact .join choice i hc ho hi hw
  case h_8 => cases h

theorem step_event {m : Move} (h : step n s m = some s') :
    s.failed = false ∧ Event n s m s' := by
  obtain ⟨hf, h⟩ := Option.ite_none_left_eq_some.mp h
  refine ⟨Bool.eq_false_iff.mpr hf, ?_⟩
  cases m with
  | run t choice =>
    obtain ⟨ht, h⟩ := Option.ite_none_right_eq_some.mp h
    unfold threadStep at h
    split at h
    case h_1 hc => exact callStep_event ht hc h
    case h_2 hc => exact ownerStep_event hc h
    case h_3 i hc => exact loopStep_event ht hc h
  | spurious i =>
    obtain ⟨hi, rfl⟩ := Option.ite_some_none_eq_some.mp h
    exact .spurious i hi.1 hi.2

end

end EmpTool.WorkerPool
