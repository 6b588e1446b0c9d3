import EmpTool.Crypto.Prg
import EmpTool.Library.Interleaving
import EmpTool.Runtime.TestMode

namespace EmpTool.TestMode

open Crypto

inductive Action where
  | construct
  | randScalar
  | reset
  | destroyPool
  | enqueue (body : List Action)
  | scope (lane : UInt64) (body : List Action)

-- the thread a task descends from, and the enqueue ordinals on the way down to it
structure TaskId where
  root : Nat
  path : List Nat
  deriving DecidableEq, Repr

def TaskId.child (id : TaskId) (ordinal : Nat) : TaskId := { id with path := id.path ++ [ordinal] }

structure Task where
  lane : UInt64
  body : List Action
  id : TaskId

inductive Obtained where
  | seed (s : TestSeed)
  | scalar (n : Nat)
  deriving DecidableEq, Repr

inductive Event where
  | obtained (thread : Nat) (task : TaskId) (nth : Nat) (what : Obtained)
  | seeded (thread : Nat) (task : TaskId) (s : TestSeed)
  | reset
  deriving DecidableEq, Repr

structure Shared where
  epoch : UInt64
  owner : UInt64
  queue : List Task
  stop : Bool
  failure : Option String
  log : List Event

inductive Pending where
  | ready
  | drawing
  | seeding (epoch : UInt64)
  | reseeding (epoch : UInt64)
  | sampling
  | pushing (task : Task)
  | installing (task : Task)
  | releasing

structure Scope where
  saved : TestSeedTls
  code : List Action

-- `task`, `spawned`, `obtained`, `drewScalar` and `scalarTasks` only describe the run: the task,
-- how often it enqueued and obtained something, whether it called `rand_scalar`, and how many
-- tasks of this thread did
structure Thread (AesKey : Type) where
  worker : Bool
  tls : TestSeedTls
  prg : Option (Prg AesKey)
  prgEpoch : UInt64
  pending : Pending
  code : List Action
  scopes : List Scope
  task : TaskId
  spawned : Nat
  obtained : Nat
  drewScalar : Bool
  scalarTasks : Nat

structure Bignums where
  numBits : Nat → Nat
  bin2bn : List UInt8 → Option Nat

-- `raw` is the storage that `prg.emplace()` builds in, `hash` hashes the thread ids
structure Machine (AesKey : Type) where
  cipher : Cipher AesKey
  tiers : Tiers
  raw : Prg AesKey
  bignums : Bignums
  order : Nat
  hash : Nat → UInt64

namespace Shared

def fail (g : Shared) (message : String) : Shared := { g with failure := some message }

def record (g : Shared) (e : Event) : Shared := { g with log := g.log ++ [e] }

end Shared

def Machine.token {AesKey : Type} (m : Machine AesKey) (t : Nat) : UInt64 :=
  thisThreadToken (m.hash t)

def Machine.prg {AesKey : Type} (m : Machine AesKey) (seed : TestSeed) : Prg AesKey :=
  Prg.construct m.cipher m.raw (makeBlock seed.lane seed.ordinal) 0

variable {AesKey : Type} (m : Machine AesKey) (t : Nat) (g : Shared) (th : Thread AesKey)

def callRandScalar : Thread AesKey :=
  { th with
    drewScalar := true
    scalarTasks := if th.drewScalar then th.scalarTasks else th.scalarTasks + 1 }

-- each step makes one access to memory that threads share, and the local work that follows it
def begin : Action → Shared × Thread AesKey
  | .construct => (g, { th with tls := syncTestEpoch g.epoch th.tls, pending := .drawing })
  | .randScalar =>
    let th := callRandScalar th
    if th.prg.isNone ∨ th.prgEpoch ≠ g.epoch then (g, { th with pending := .seeding g.epoch })
    else (g, { th with pending := .sampling })
  | .reset => ({ g with epoch := g.epoch + 1 }, { th with pending := .releasing })
  | .destroyPool => ({ g with stop := true }, th)
  | .enqueue body =>
    let r := nextTestChildLane g.epoch th.tls
    (g, { th with
      tls := r.2
      spawned := th.spawned + 1
      pending := .pushing ⟨r.1, body, th.task.child th.spawned⟩ })
  | .scope lane body =>
    (g, { th with
      tls := testLaneScope lane g.epoch
      code := body
      scopes := ⟨th.tls, th.code⟩ :: th.scopes })

def topMask (nBits : Nat) : UInt8 :=
  if nBits % 8 = 0 then 0xff else UInt8.ofNat (2 ^ (nBits % 8) - 1)

-- one pass of the rejection loop of `rand_scalar`; a vector's storage is 16-byte aligned
def drawCandidate : PrgM AesKey Nat := do
  let nBits := m.bignums.numBits m.order
  let nBytes := (nBits + 7) / 8
  let buf ← Prg.randomDataUnaligned m.cipher m.tiers 0 (fun _ => 0) nBytes
  let bytes := (List.range nBytes).map fun i => if i = 0 then buf 0 &&& topMask nBits else buf i
  expectingSome (m.bignums.bin2bn bytes) "ECGroup::rand_scalar: BN_bin2bn"

def sample (p : Prg AesKey) : Shared × Thread AesKey :=
  match drawCandidate m p with
  | .error message => (g.fail message, th)
  | .ok (n, p) =>
    if m.order ≤ n then (g, { th with prg := some p })
    else
      (g.record (.obtained t th.task th.obtained (.scalar n)),
        { th with prg := some p, obtained := th.obtained + 1, pending := .ready })

def resume : Pending → Shared × Thread AesKey
  | .ready => (g, th)
  | .drawing =>
    match nextTestSeed (m.token t) g.owner th.tls with
    | .error message => (g.fail message, th)
    | .ok (seed, owner, tls) =>
      ({ g with owner := owner }.record (.obtained t th.task th.obtained (.seed seed)),
        { th with tls := tls, obtained := th.obtained + 1, pending := .ready })
  | .seeding epoch =>
    (g, { th with tls := syncTestEpoch g.epoch th.tls, pending := .reseeding epoch })
  | .reseeding epoch =>
    match nextTestSeed (m.token t) g.owner th.tls with
    | .error message => (g.fail message, th)
    | .ok (seed, owner, tls) =>
      ({ g with owner := owner }.record (.seeded t th.task seed),
        { th with tls := tls, prg := some (m.prg seed), prgEpoch := epoch, pending := .sampling })
  | .sampling =>
    match th.prg with
    | none => (g, th)
    | some p => sample m t g th p
  | .pushing task =>
    if g.stop then (g.fail "ThreadPool: enqueue on stopped pool", th)
    else ({ g with queue := g.queue ++ [task] }, { th with pending := .ready })
  | .installing task =>
    (g, { th with
      tls := testLaneScope task.lane g.epoch
      code := task.body
      scopes := ⟨th.tls, th.code⟩ :: th.scopes
      pending := .ready })
  | .releasing => ({ g with owner := 0 }.record .reset, { th with pending := .ready })

-- the worker loop waits while the queue is empty, whether the pool was stopped or not
def nextTask : Shared × Thread AesKey :=
  match g.queue with
  | [] => (g, th)
  | task :: queue =>
    ({ g with queue := queue }, { th with
      pending := .installing task
      task := task.id
      spawned := 0
      obtained := 0
      drewScalar := false })

def finish : Shared × Thread AesKey :=
  match th.scopes with
  | scope :: scopes => (g, { th with tls := scope.saved, code := scope.code, scopes := scopes })
  | [] => if th.worker then nextTask g th else (g, th)

def threadStep : Shared × Thread AesKey :=
  if g.failure.isSome then (g, th)
  else
    match th.pending with
    | .ready =>
      match th.code with
      | [] => finish g th
      | action :: code => begin g { th with code := code } action
    | pending => resume m t g th pending

def startThread (worker : Bool) (code : List Action) : Thread AesKey where
  worker := worker
  tls := testSeedTls
  prg := none
  prgEpoch := 0xFFFFFFFFFFFFFFFF
  pending := .ready
  code := code
  scopes := []
  task := ⟨t, []⟩
  spawned := 0
  obtained := 0
  drewScalar := false
  scalarTasks := 0

def startShared : Shared := ⟨0, 0, [], false, none, []⟩

def start (program : Nat → Option (List Action)) : Interleaving.Config Shared (Thread AesKey) where
  shared := startShared
  locals t := startThread t (program t).isNone ((program t).getD [])

def mainAndWorkers (body : List Action) (workers t : Nat) : Option (List Action) :=
  if t = 0 then some body else if t ≤ workers then none else some []

def Machine.run (schedule : List Nat) (program : Nat → Option (List Action)) :
    Interleaving.Config Shared (Thread AesKey) :=
  Interleaving.run (threadStep m) schedule (start program)

end EmpTool.TestMode
