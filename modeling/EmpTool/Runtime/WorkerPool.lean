import EmpTool.Library.Transition
import Mathlib.Logic.Function.Basic

namespace EmpTool.WorkerPool

-- a task enqueues further tasks one after the other, between its own work
inductive Job where
  | mk (children : List Job)

def Job.children : Job → List Job
  | .mk children => children

inductive Thread where
  | owner
  | worker (i : Nat)
  deriving DecidableEq, Repr

inductive Call where
  | locking (job : Job)
  | pushing (job : Job)
  | notifying

-- a task is named by its place in the order of the pushes
inductive Worker where
  | locking
  | checking
  | waiting
  | running (ticket : Nat) (children : List Job)
  | exited

-- `get k` waits for the future of the owner's `k`-th task
inductive Act where
  | enqueue (job : Job)
  | get (k : Nat)

inductive Owner where
  | body (code : List Act)
  | locking
  | stopping
  | notifying
  | joining (i : Nat)
  | done

-- `pushed`, `popped`, `finished` and `futures` only describe the run
structure State where
  lock : Option Thread
  tasks : List Job
  stop : Bool
  failed : Bool
  workers : Nat → Worker
  owner : Owner
  calls : Thread → Option Call
  pushed : List Job
  popped : Nat
  finished : List Nat
  futures : List Nat

def Worker.IsWaiting : Worker → Prop
  | .waiting => True
  | _ => False

instance (w : Worker) : Decidable w.IsWaiting :=
  match w with
  | .locking => isFalse id
  | .checking => isFalse id
  | .waiting => isTrue trivial
  | .running _ _ => isFalse id
  | .exited => isFalse id

def Worker.IsExited : Worker → Prop
  | .exited => True
  | _ => False

instance (w : Worker) : Decidable w.IsExited :=
  match w with
  | .locking => isFalse id
  | .checking => isFalse id
  | .waiting => isFalse id
  | .running _ _ => isFalse id
  | .exited => isTrue trivial

section Step

variable (n : Nat)

def start (code : List Act) : State where
  lock := none
  tasks := []
  stop := false
  failed := false
  workers := fun _ => .locking
  owner := .body code
  calls := fun _ => none
  pushed := []
  popped := 0
  finished := []
  futures := []

def setWorker (s : State) (i : Nat) (w : Worker) : State :=
  { s with workers := Function.update s.workers i w }

def setCall (s : State) (t : Thread) (call : Option Call) : State :=
  { s with calls := Function.update s.calls t call }

def push (s : State) (t : Thread) (job : Job) : State :=
  { s with
    tasks := s.tasks ++ [job]
    pushed := s.pushed ++ [job]
    futures := if t = .owner then s.futures ++ [s.pushed.length] else s.futures }

def pop (s : State) (i : Nat) (job : Job) (rest : List Job) : State :=
  { setWorker s i (.running s.popped job.children) with
    tasks := rest
    popped := s.popped + 1 }

-- which waiting thread `notify_one` wakes is not the caller's choice
def notifyOne (s : State) (choice : Nat) : Option State :=
  if choice < n ∧ (s.workers choice).IsWaiting then some (setWorker s choice .locking)
  else if ∃ i < n, (s.workers i).IsWaiting then none
  else some s

def notifyAll (s : State) : State :=
  { s with workers := fun i => if (s.workers i).IsWaiting then .locking else s.workers i }

def callStep (s : State) (t : Thread) (choice : Nat) : Call → Option State
  | .locking job =>
    if s.lock = none then some (setCall { s with lock := some t } t (some (.pushing job))) else none
  | .pushing job =>
    if s.stop then some { s with failed := true }
    else some (setCall (push { s with lock := none } t job) t (some .notifying))
  | .notifying => (notifyOne n s choice).map fun s => setCall s t none

def loopStep (s : State) (i : Nat) : Option State :=
  match s.workers i with
  | .locking =>
    if s.lock = none then some (setWorker { s with lock := some (.worker i) } i .checking)
    else none
  | .checking =>
    match s.tasks with
    | [] =>
      if s.stop then some (setWorker { s with lock := none } i .exited)
      else some (setWorker { s with lock := none } i .waiting)
    | job :: rest => some (pop { s with lock := none } i job rest)
  | .waiting => none
  | .running ticket (job :: children) =>
    some (setCall (setWorker s i (.running ticket children)) (.worker i) (some (.locking job)))
  | .running ticket [] =>
    some (setWorker { s with finished := s.finished ++ [ticket] } i .locking)
  | .exited => none

def ownerStep (s : State) : Option State :=
  match s.owner with
  | .body (.enqueue job :: code) =>
    some (setCall { s with owner := .body code } .owner (some (.locking job)))
  | .body (.get k :: code) =>
    if s.futures.getD k s.pushed.length ∈ s.finished then some { s with owner := .body code }
    else none
  | .body [] => some { s with owner := .locking }
  | .locking =>
    if s.lock = none then some { s with lock := some .owner, owner := .stopping } else none
  | .stopping => some { s with lock := none, stop := true, owner := .notifying }
  | .notifying => some { notifyAll s with owner := .joining 0 }
  | .joining i =>
    if i = n then some { s with owner := .done }
    else if (s.workers i).IsExited then some { s with owner := .joining (i + 1) }
    else none
  | .done => none

def threadStep (s : State) (t : Thread) (choice : Nat) : Option State :=
  match s.calls t, t with
  | some call, t => callStep n s t choice call
  | none, .owner => ownerStep n s
  | none, .worker i => loopStep s i

-- a waiting thread may also wake without a notification
inductive Move where
  | run (t : Thread) (choice : Nat)
  | spurious (i : Nat)
  deriving DecidableEq, Repr

def Thread.IsIn : Thread → Prop
  | .owner => True
  | .worker i => i < n

instance (t : Thread) : Decidable (t.IsIn n) :=
  match t with
  | .owner => isTrue trivial
  | .worker i => inferInstanceAs (Decidable (i < n))

def step (s : State) (m : Move) : Option State :=
  if s.failed then none
  else
    match m with
    | .run t choice => if t.IsIn n then threadStep n s t choice else none
    | .spurious i =>
      if i < n ∧ (s.workers i).IsWaiting then some (setWorker s i .locking) else none

end Step

end EmpTool.WorkerPool
