import EmpTool.Runtime.SoloRun

namespace EmpTool.TestMode

open Crypto

section Invariant

variable {AesKey : Type} (m : Machine AesKey) (root : List Action)

structure Task.Placed (task : Task) : Prop where
  nested : task.id.path ≠ []
  lane : task.lane = laneOf task.id.path
  body : bodyAt root task.id.path = some task.body

-- the task obtained what its own body, alone, obtains there
def Explained : Event → Prop
  | .obtained _ task nth what =>
    ∃ done rest a, bodyAt root task.path = some (done.reverse ++ rest) ∧
      Performs m (laneOf task.path) done a ∧ a.obtained[nth]? = some what
  | _ => True

structure Reproducing (g : Shared) : Prop where
  epoch : g.epoch = 0
  queue : ∀ task ∈ g.queue, task.Placed root
  log : ∀ e ∈ g.log, Explained m root e
  owner : g.owner = 0 ∨ g.owner = m.token 0

def Home (t : Nat) (th : Thread AesKey) : Prop :=
  (t = 0 ∧ th.worker = false ∧ th.scopes = [] ∧ th.task.path = []) ∨
    (th.worker = true ∧ th.task.path ≠ [] ∧ ∃ saved, th.scopes = [⟨saved, []⟩])

structure Doing (t : Nat) (th : Thread AesKey) (inflight : List Action) (seeds spawned : Nat)
    (done : List Action) (a : Account AesKey) : Prop where
  home : Home t th
  body : bodyAt root th.task.path = some (done.reverse ++ (inflight ++ th.code))
  performs : Performs m (laneOf th.task.path) done a
  tls : th.tls = ⟨laneOf th.task.path, UInt64.ofNat seeds, UInt64.ofNat spawned, 0⟩
  spawned : th.spawned = spawned
  obtained : th.obtained = a.obtained.length

def OwnGenerator (th : Thread AesKey) (a : Account AesKey) : Prop :=
  (th.drewScalar = true ∧ th.prg = a.prg ∧ a.prg.isSome ∧ th.prgEpoch = 0) ∨
    (th.drewScalar = false ∧ a.prg = none)

def Stage (t : Nat) (th : Thread AesKey) : Pending → Prop
  | .ready =>
    (th.code = [] ∧ th.scopes = []) ∨
      ∃ done a, Doing m root t th [] a.seeds a.spawned done a ∧ OwnGenerator th a
  | .drawing =>
    ∃ done a, Doing m root t th [.construct] a.seeds a.spawned done a ∧ OwnGenerator th a
  | .seeding epoch | .reseeding epoch =>
    ∃ done a, Doing m root t th [.randScalar] a.seeds a.spawned done a ∧ a.prg = none ∧
      th.drewScalar = true ∧ epoch = 0
  | .sampling =>
    ∃ done a p, Doing m root t th [.randScalar] a.seedsWithGenerator a.spawned done a ∧
      th.prg = some p ∧ th.drewScalar = true ∧ th.prgEpoch = 0 ∧
      ∀ n q, Sampled m p n q → Sampled m (a.generator m (laneOf th.task.path)) n q
  | .pushing task =>
    ∃ done a, Doing m root t th [.enqueue task.body] a.seeds (a.spawned + 1) done a ∧
      OwnGenerator th a ∧ task.Placed root
  | .installing task =>
    task.Placed root ∧ th.task = task.id ∧ th.spawned = 0 ∧ th.obtained = 0 ∧
      th.drewScalar = false ∧ th.code = [] ∧ th.scopes = [] ∧ th.worker = true
  | .releasing => False

structure Follows (t : Nat) (th : Thread AesKey) : Prop where
  stage : Stage m root t th th.pending
  drew : th.drewScalar = true → 1 ≤ th.scalarTasks
  prg : th.prg.isSome → 1 ≤ th.scalarTasks

-- no thread serves the `rand_scalar` calls of two tasks
def Dedicated (th : Thread AesKey) : Prop := th.scalarTasks ≤ 1

instance (th : Thread AesKey) : Decidable (Dedicated th) :=
  inferInstanceAs (Decidable (th.scalarTasks ≤ 1))

end Invariant

section Moves

variable {AesKey : Type} {m : Machine AesKey} {root : List Action} {t : Nat} {g : Shared}
  {th : Thread AesKey} {done code inflight : List Action} {a : Account AesKey} {x : Action}
  {seeds spawned : Nat}

theorem performs_spawned {lane : UInt64} (h : Performs m lane done a) :
    a.spawned = (spawns done).length := by
  induction h with
  | start => rfl
  | enqueue body h ih => exact congrArg (· + 1) ih
  | construct h ih | destroyPool h ih | randScalar h hsample ih => exact ih

theorem spawns_next {lane : UInt64} (h : Performs m lane done a) (body rest : List Action) :
    (spawns (done.reverse ++ .enqueue body :: rest))[a.spawned]? = some body := by
  have hsplit : spawns (done.reverse ++ .enqueue body :: rest) =
      (spawns done).reverse ++ body :: spawns rest := by
    rw [spawns, List.filterMap_append, List.filterMap_reverse]
    rfl
  have hlen : (spawns done).reverse.length = a.spawned := by
    rw [List.length_reverse, performs_spawned h]
  rw [hsplit, List.getElem?_append_right (Nat.le_of_eq hlen), hlen, Nat.sub_self]
  rfl

theorem home_lane0 (h : Home t th) (hlane : laneOf th.task.path = 0) : t = 0 := by
  rcases h with ⟨ht, -⟩ | ⟨-, hpath, -⟩
  · exact ht
  · exact absurd hlane (laneOf_ne_zero hpath)

theorem Doing.sync (h : Doing m root t th inflight seeds spawned done a) (hg : g.epoch = 0) :
    syncTestEpoch g.epoch th.tls = th.tls := by
  have hepoch : th.tls.epoch = g.epoch := by rw [h.tls, hg]
  rw [← hepoch, syncTestEpoch_same]

theorem Doing.mem (h : Doing m root t th [x] seeds spawned done a) {bad : Action → Bool}
    (hroot : bodyUses bad root = false) : bad x = false :=
  bad_of_mem (bodyAt_uses hroot h.body) (by simp)

theorem Follows.begin (h : Follows m root t th) (hp : th.pending = .ready)
    (hc : th.code = x :: code) :
    ∃ done a, Doing m root t { th with code := code } [x] a.seeds a.spawned done a ∧
      OwnGenerator th a := by
  have hstage : Stage m root t th .ready := hp ▸ h.stage
  rcases hstage with ⟨hnil, -⟩ | ⟨done, a, hd, hgen⟩
  · rw [hc] at hnil
    cases hnil
  · refine ⟨done, a, ⟨hd.home, ?_, hd.performs, hd.tls, hd.spawned, hd.obtained⟩, hgen⟩
    have hbody := hd.body
    rw [hc] at hbody
    exact hbody

theorem done_body (h : Doing m root t th [x] seeds spawned done a) :
    bodyAt root th.task.path = some ((x :: done).reverse ++ th.code) := by
  rw [h.body, List.reverse_cons, List.append_assoc]

theorem ofNat_succ (n : Nat) : UInt64.ofNat n + 1 = UInt64.ofNat (n + 1) :=
  (UInt64.ofNat_add n 1).symm

theorem Doing.explained (h : Doing m root t th [x] seeds spawned done a) {b : Account AesKey}
    (hb : Performs m (laneOf th.task.path) (x :: done) b) {what : Obtained}
    (hwhat : b.obtained = a.obtained ++ [what]) :
    Explained m root (.obtained t th.task th.obtained what) ∧
      th.obtained + 1 = b.obtained.length := by
  refine ⟨⟨x :: done, th.code, b, done_body h, hb, ?_⟩, ?_⟩
  · rw [h.obtained, hwhat, List.getElem?_concat_length]
  · rw [h.obtained, hwhat, List.length_append, List.length_singleton]

theorem Doing.draw (h : Doing m root t th inflight seeds spawned done a)
    (hg : g.owner = 0 ∨ g.owner = m.token 0) {seed : TestSeed} {owner : UInt64} {tls : TestSeedTls}
    (hdraw : nextTestSeed (m.token t) g.owner th.tls = .ok (seed, owner, tls)) :
    seed = ⟨laneOf th.task.path, UInt64.ofNat seeds⟩ ∧
      tls = ⟨laneOf th.task.path, UInt64.ofNat (seeds + 1), UInt64.ofNat spawned, 0⟩ ∧
      (owner = 0 ∨ owner = m.token 0) := by
  rw [h.tls] at hdraw
  obtain ⟨hseed, htls, hlane0, hlane⟩ := nextTestSeed_ok hdraw
  refine ⟨hseed, by rw [htls, ← ofNat_succ], ?_⟩
  by_cases hz : laneOf th.task.path = 0
  · rw [(hlane0 hz).2, home_lane0 h.home hz]
    exact Or.inr rfl
  · rw [hlane hz]
    exact hg

theorem Doing.not_refused (h : Doing m root t th inflight seeds spawned done a)
    (hg : g.owner = 0 ∨ g.owner = m.token 0) (hlane : th.tls.lane = 0) :
    g.owner = 0 ∨ g.owner = m.token t := by
  rw [h.tls] at hlane
  rw [home_lane0 h.home hlane]
  exact hg

end Moves

section Steps

variable {AesKey : Type} {m : Machine AesKey} {root : List Action} {t : Nat} {g : Shared}
  {th : Thread AesKey}

theorem reproducing_record (hG : Reproducing m root g) {owner : UInt64} {e : Event}
    (howner : owner = 0 ∨ owner = m.token 0) (he : Explained m root e) :
    Reproducing m root ({ g with owner := owner }.record e) := by
  refine ⟨hG.epoch, hG.queue, fun d hd => ?_, howner⟩
  rcases List.mem_append.mp hd with hd | hd
  · exact hG.log d hd
  · cases List.mem_singleton.mp hd
    exact he

theorem follows_construct {code : List Action} (hG : Reproducing m root g)
    (hL : Follows m root t th) (hp : th.pending = .ready) (hc : th.code = .construct :: code) :
    Follows m root t { th with
      code := code
      tls := syncTestEpoch g.epoch th.tls
      pending := .drawing } := by
  obtain ⟨done, a, hd, hgen⟩ := hL.begin hp hc
  have hsync : syncTestEpoch g.epoch th.tls = th.tls := hd.sync hG.epoch
  refine ⟨⟨done, a, ⟨hd.home, hd.body, hd.performs, ?_, hd.spawned, hd.obtained⟩, hgen⟩,
    hL.drew, hL.prg⟩
  exact hsync.trans hd.tls

theorem follows_draw {seed : TestSeed} {owner : UInt64} {tls : TestSeedTls}
    (hG : Reproducing m root g) (hL : Follows m root t th) (hp : th.pending = .drawing)
    (hdraw : nextTestSeed (m.token t) g.owner th.tls = .ok (seed, owner, tls)) :
    Reproducing m root
        ({ g with owner := owner }.record (.obtained t th.task th.obtained (.seed seed))) ∧
      Follows m root t { th with tls := tls, obtained := th.obtained + 1, pending := .ready } := by
  have hstage : Stage m root t th .drawing := hp ▸ hL.stage
  obtain ⟨done, a, hd, hgen⟩ := hstage
  obtain ⟨rfl, rfl, howner⟩ := hd.draw hG.owner hdraw
  have hperforms := Performs.construct hd.performs
  have hbody := done_body hd
  obtain ⟨hexplained, hcount⟩ := hd.explained hperforms rfl
  exact ⟨reproducing_record hG howner hexplained, ⟨Or.inr ⟨_, _,
    ⟨hd.home, hbody, hperforms, rfl, hd.spawned, hcount⟩, hgen⟩, hL.drew, hL.prg⟩⟩

theorem Follows.called (hL : Follows m root t th) :
    1 ≤ (if th.drewScalar then th.scalarTasks else th.scalarTasks + 1) := by
  split
  case isTrue hdrew => exact hL.drew hdrew
  case isFalse => exact Nat.le_add_left _ _

theorem follows_useGenerator {code : List Action} {p : Prg AesKey} (hG : Reproducing m root g)
    (hL : Follows m root t th) (hp : th.pending = .ready) (hc : th.code = .randScalar :: code)
    (hprg : th.prg = some p) (hepoch : th.prgEpoch = g.epoch)
    (hok : Dedicated (callRandScalar { th with code := code })) :
    Follows m root t { callRandScalar { th with code := code } with pending := .sampling } := by
  obtain ⟨done, a, hd, hgen⟩ := hL.begin hp hc
  rcases hgen with ⟨-, hown, -, -⟩ | ⟨hdrew, -⟩
  · -- the generator is the one this task seeded
    have ha : a.prg = some p := hown.symm.trans hprg
    obtain ⟨hseeds, hgenerator⟩ := @account_seeded AesKey m (laneOf th.task.path) a p ha
    refine ⟨⟨done, a, p, ⟨hd.home, hd.body, hd.performs, ?_, hd.spawned, hd.obtained⟩, hprg, rfl,
      hepoch.trans hG.epoch, fun n q hsample => ?_⟩, fun _ => hL.called, fun _ => hL.called⟩
    · rw [hseeds]
      exact hd.tls
    · show Sampled m (a.generator m (laneOf th.task.path)) n q
      rw [hgenerator]
      exact hsample
  · -- another task seeded it: the thread would serve a second one
    have hserved := hL.prg (by rw [hprg]; rfl)
    have hcount : (callRandScalar { th with code := code }).scalarTasks = th.scalarTasks + 1 :=
      if_neg (by rw [hdrew]; exact Bool.false_ne_true)
    unfold Dedicated at hok
    omega

theorem follows_needGenerator {code : List Action} (hG : Reproducing m root g)
    (hL : Follows m root t th) (hp : th.pending = .ready) (hc : th.code = .randScalar :: code)
    (hprg : th.prg = none ∨ th.prgEpoch ≠ g.epoch) :
    Follows m root t
      { callRandScalar { th with code := code } with pending := .seeding g.epoch } := by
  obtain ⟨done, a, hd, hgen⟩ := hL.begin hp hc
  have ha : a.prg = none := by
    rcases hgen with ⟨-, hown, hsome, hepoch⟩ | ⟨-, ha⟩
    · rcases hprg with hnone | hne
      · rw [← hown, hnone] at hsome
        cases hsome
      · exact absurd (hepoch.trans hG.epoch.symm) hne
    · exact ha
  exact ⟨⟨done, a, ⟨hd.home, hd.body, hd.performs, hd.tls, hd.spawned, hd.obtained⟩, ha, rfl,
    hG.epoch⟩, fun _ => hL.called, fun _ => hL.called⟩

theorem follows_syncSeed {epoch : UInt64} (hG : Reproducing m root g) (hL : Follows m root t th)
    (hp : th.pending = .seeding epoch) :
    Follows m root t
      { th with tls := syncTestEpoch g.epoch th.tls, pending := .reseeding epoch } := by
  have hstage : Stage m root t th (.seeding epoch) := hp ▸ hL.stage
  obtain ⟨done, a, hd, ha, hdrew, hepoch⟩ := hstage
  refine ⟨⟨done, a, ⟨hd.home, hd.body, hd.performs, ?_, hd.spawned, hd.obtained⟩, ha, hdrew,
    hepoch⟩, hL.drew, hL.prg⟩
  exact (hd.sync hG.epoch).trans hd.tls

theorem follows_seed {epoch : UInt64} {seed : TestSeed} {owner : UInt64} {tls : TestSeedTls}
    (hG : Reproducing m root g) (hL : Follows m root t th) (hp : th.pending = .reseeding epoch)
    (hdraw : nextTestSeed (m.token t) g.owner th.tls = .ok (seed, owner, tls)) :
    Reproducing m root ({ g with owner := owner }.record (.seeded t th.task seed)) ∧
      Follows m root t { th with
        tls := tls
        prg := some (m.prg seed)
        prgEpoch := epoch
        pending := .sampling } := by
  have hstage : Stage m root t th (.reseeding epoch) := hp ▸ hL.stage
  obtain ⟨done, a, hd, ha, hdrew, hepoch⟩ := hstage
  obtain ⟨rfl, rfl, howner⟩ := hd.draw hG.owner hdraw
  obtain ⟨hseeds, hgenerator⟩ := @account_unseeded AesKey m (laneOf th.task.path) a ha
  refine ⟨reproducing_record hG howner trivial, ⟨done, a, _, ⟨hd.home, hd.body, hd.performs, ?_,
    hd.spawned, hd.obtained⟩, rfl, hdrew, hepoch, fun n q hsample => ?_⟩, hL.drew,
    fun _ => hL.drew hdrew⟩
  · rw [hseeds]
  · show Sampled m (a.generator m (laneOf th.task.path)) n q
    rw [hgenerator]
    exact hsample

theorem follows_reject {p p' : Prg AesKey} {n : Nat} (hL : Follows m root t th)
    (hp : th.pending = .sampling) (hprg : th.prg = some p)
    (hdraw : drawCandidate m p = .ok (n, p')) (hn : m.order ≤ n) :
    Follows m root t { th with prg := some p' } := by
  have hstage : Stage m root t th .sampling := hp ▸ hL.stage
  obtain ⟨done, a, q, hd, hq, hdrew, hepoch, hsampled⟩ := hstage
  cases hprg.symm.trans hq
  refine ⟨?_, hL.drew, fun _ => hL.drew hdrew⟩
  show Stage m root t { th with prg := some p' } th.pending
  rw [hp]
  exact ⟨done, a, p', ⟨hd.home, hd.body, hd.performs, hd.tls, hd.spawned, hd.obtained⟩, rfl,
    hdrew, hepoch, fun k r hrest => hsampled k r (.retry hdraw hn hrest)⟩

theorem follows_accept {p p' : Prg AesKey} {n : Nat} (hG : Reproducing m root g)
    (hL : Follows m root t th) (hp : th.pending = .sampling) (hprg : th.prg = some p)
    (hdraw : drawCandidate m p = .ok (n, p')) (hn : n < m.order) :
    Reproducing m root (g.record (.obtained t th.task th.obtained (.scalar n))) ∧
      Follows m root t
        { th with prg := some p', obtained := th.obtained + 1, pending := .ready } := by
  have hstage : Stage m root t th .sampling := hp ▸ hL.stage
  obtain ⟨done, a, q, hd, hq, hdrew, hepoch, hsampled⟩ := hstage
  cases hprg.symm.trans hq
  have hperforms := Performs.randScalar hd.performs (hsampled n p' (.accept hdraw hn))
  have hbody := done_body hd
  obtain ⟨hexplained, hcount⟩ := hd.explained hperforms rfl
  exact ⟨reproducing_record hG hG.owner hexplained, ⟨Or.inr ⟨_, _,
    ⟨hd.home, hbody, hperforms, hd.tls, hd.spawned, hcount⟩, Or.inl ⟨hdrew, rfl, rfl, hepoch⟩⟩,
    hL.drew, fun _ => hL.drew hdrew⟩⟩

theorem follows_enqueue {body code : List Action} (hG : Reproducing m root g)
    (hL : Follows m root t th) (hp : th.pending = .ready) (hc : th.code = .enqueue body :: code) :
    Follows m root t { th with
      code := code
      tls := (nextTestChildLane g.epoch th.tls).2
      spawned := th.spawned + 1
      pending := .pushing
        ⟨(nextTestChildLane g.epoch th.tls).1, body, th.task.child th.spawned⟩ } := by
  obtain ⟨done, a, hd, hgen⟩ := hL.begin hp hc
  have hsync : syncTestEpoch g.epoch th.tls = th.tls := hd.sync hG.epoch
  have htls : th.tls = ⟨laneOf th.task.path, UInt64.ofNat a.seeds, UInt64.ofNat a.spawned, 0⟩ :=
    hd.tls
  have hspawned : th.spawned = a.spawned := hd.spawned
  refine ⟨⟨done, a, ⟨hd.home, hd.body, hd.performs, ?_, ?_, hd.obtained⟩, hgen, ?_, ?_, ?_⟩,
    hL.drew, hL.prg⟩
  · show (nextTestChildLane g.epoch th.tls).2 = _
    rw [nextTestChildLane, hsync, htls, ← ofNat_succ]
  · exact congrArg (· + 1) hspawned
  · exact List.append_ne_nil_of_right_ne_nil _ (List.cons_ne_nil _ _)
  · show (nextTestChildLane g.epoch th.tls).1 = laneOf (th.task.path ++ [th.spawned])
    rw [nextTestChildLane, hsync, htls, laneOf_child, hspawned]
  · show bodyAt root (th.task.path ++ [th.spawned]) = some body
    have hbody : bodyAt root th.task.path = some (done.reverse ++ .enqueue body :: code) := hd.body
    rw [bodyAt_child, hbody, hspawned]
    exact spawns_next hd.performs body code

theorem follows_push {task : Task} (hG : Reproducing m root g) (hL : Follows m root t th)
    (hp : th.pending = .pushing task) :
    Reproducing m root { g with queue := g.queue ++ [task] } ∧
      Follows m root t { th with pending := .ready } := by
  have hstage : Stage m root t th (.pushing task) := hp ▸ hL.stage
  obtain ⟨done, a, hd, hgen, hplaced⟩ := hstage
  have hbody := done_body hd
  refine ⟨⟨hG.epoch, fun q hq => ?_, hG.log, hG.owner⟩, ⟨Or.inr ⟨_, _, ⟨hd.home, hbody,
    .enqueue task.body hd.performs, hd.tls, hd.spawned, hd.obtained⟩, hgen⟩, hL.drew, hL.prg⟩⟩
  rcases List.mem_append.mp hq with hq | hq
  · exact hG.queue q hq
  · cases List.mem_singleton.mp hq
    exact hplaced

theorem follows_pop {task : Task} {queue : List Task} (hG : Reproducing m root g)
    (hL : Follows m root t th) (hc : th.code = []) (hs : th.scopes = []) (hw : th.worker = true)
    (hq : g.queue = task :: queue) :
    Reproducing m root { g with queue := queue } ∧ Follows m root t { th with
      pending := .installing task
      task := task.id
      spawned := 0
      obtained := 0
      drewScalar := false } := by
  have hqueue := hG.queue
  rw [hq] at hqueue
  refine ⟨⟨hG.epoch, fun q hmem => hqueue q (List.mem_cons_of_mem _ hmem), hG.log, hG.owner⟩,
    ⟨hqueue task List.mem_cons_self, rfl, rfl, rfl, rfl, hc, hs, hw⟩, nofun, hL.prg⟩

theorem follows_install {task : Task} (hG : Reproducing m root g) (hL : Follows m root t th)
    (hp : th.pending = .installing task) :
    Follows m root t { th with
      tls := testLaneScope task.lane g.epoch
      code := task.body
      scopes := ⟨th.tls, th.code⟩ :: th.scopes
      pending := .ready } := by
  have hstage : Stage m root t th (.installing task) := hp ▸ hL.stage
  obtain ⟨hplaced, htask, hspawned, hobtained, hdrew, hc, hs, hw⟩ := hstage
  refine ⟨Or.inr ⟨[], _, ⟨Or.inr ⟨hw, ?_, th.tls, ?_⟩, ?_, .start, ?_, hspawned, hobtained⟩,
    Or.inr ⟨hdrew, rfl⟩⟩, hL.drew, hL.prg⟩
  · show th.task.path ≠ []
    rw [htask]
    exact hplaced.nested
  · show ⟨th.tls, th.code⟩ :: th.scopes = _
    rw [hc, hs]
  · show bodyAt root th.task.path = some task.body
    rw [htask]
    exact hplaced.body
  · show testLaneScope task.lane g.epoch = _
    rw [hplaced.lane, hG.epoch, ← htask]
    rfl

theorem follows_leave {scope : Scope} {scopes : List Scope} (hL : Follows m root t th)
    (hp : th.pending = .ready) (hs : th.scopes = scope :: scopes) :
    Follows m root t { th with tls := scope.saved, code := scope.code, scopes := scopes } := by
  have hstage : Stage m root t th .ready := hp ▸ hL.stage
  refine ⟨?_, hL.drew, hL.prg⟩
  show Stage m root t _ th.pending
  rw [hp]
  rcases hstage with ⟨-, hnil⟩ | ⟨done, a, hd, -⟩
  · rw [hs] at hnil
    cases hnil
  · rcases hd.home with ⟨-, -, hnil, -⟩ | ⟨-, -, saved, hone⟩
    · rw [hs] at hnil
      cases hnil
    · rw [hs] at hone
      cases hone
      exact Or.inl ⟨rfl, rfl⟩

theorem follows_destroyPool {code : List Action} (hL : Follows m root t th)
    (hp : th.pending = .ready) (hc : th.code = .destroyPool :: code) :
    Follows m root t { th with code := code } := by
  obtain ⟨done, a, hd, hgen⟩ := hL.begin hp hc
  have hbody := done_body hd
  refine ⟨?_, hL.drew, hL.prg⟩
  show Stage m root t _ th.pending
  rw [hp]
  exact Or.inr ⟨_, _, ⟨hd.home, hbody, .destroyPool hd.performs, hd.tls, hd.spawned,
    hd.obtained⟩, hgen⟩

theorem follows_step (hreset : bodyUses Action.isReset root = false)
    (hscope : bodyUses Action.isScope root = false) {g' : Shared} {th' : Thread AesKey}
    (hstep : Step m t g th g' th') (hG : Reproducing m root g) (hL : Follows m root t th)
    (hok : Dedicated th') : Reproducing m root g' ∧ Follows m root t th' := by
  have hfail : ∀ message, Reproducing m root (g.fail message) :=
    fun message => ⟨hG.epoch, hG.queue, hG.log, hG.owner⟩
  cases hstep with
  | stay => exact ⟨hG, hL⟩
  | refuse hp lane0 taken => exact ⟨hfail _, hL⟩
  | stopped => exact ⟨hfail _, hL⟩
  | broken message hp => exact ⟨hfail _, hL⟩
  | leave scope scopes hp hc hs => exact ⟨hG, follows_leave hL hp hs⟩
  | pop task queue hp hc hs hw hq => exact follows_pop hG hL hc hs hw hq
  | construct code hp hc => exact ⟨hG, follows_construct hG hL hp hc⟩
  | useGenerator code p hp hc hprg hepoch =>
    exact ⟨hG, follows_useGenerator hG hL hp hc hprg hepoch hok⟩
  | needGenerator code hp hc hprg => exact ⟨hG, follows_needGenerator hG hL hp hc hprg⟩
  | reset code hp hc =>
    obtain ⟨done, a, hd, -⟩ := hL.begin hp hc
    cases hd.mem hreset
  | destroyPool code hp hc =>
    exact ⟨⟨hG.epoch, hG.queue, hG.log, hG.owner⟩, follows_destroyPool hL hp hc⟩
  | enqueue body code hp hc => exact ⟨hG, follows_enqueue hG hL hp hc⟩
  | scope lane body code hp hc =>
    obtain ⟨done, a, hd, -⟩ := hL.begin hp hc
    cases hd.mem hscope
  | draw seed owner tls hp hdraw => exact follows_draw hG hL hp hdraw
  | syncSeed epoch hp => exact ⟨hG, follows_syncSeed hG hL hp⟩
  | seed epoch seed owner tls hp hdraw => exact follows_seed hG hL hp hdraw
  | reject p p' n hp hprg hdraw hn => exact ⟨hG, follows_reject hL hp hprg hdraw hn⟩
  | accept p p' n hp hprg hdraw hn => exact follows_accept hG hL hp hprg hdraw hn
  | push task hp hs => exact follows_push hG hL hp
  | install task hp => exact ⟨hG, follows_install hG hL hp⟩
  | release hp =>
    have hstage : Stage m root t th .releasing := hp ▸ hL.stage
    exact hstage.elim

theorem dedicated_earlier {g' : Shared} {th' : Thread AesKey} (hstep : Step m t g th g' th')
    (hok : Dedicated th') : Dedicated th := by
  have hcalled : th.scalarTasks ≤ if th.drewScalar then th.scalarTasks else th.scalarTasks + 1 := by
    split <;> omega
  cases hstep with
  | useGenerator code p hp hc hprg hepoch => exact Nat.le_trans hcalled hok
  | needGenerator code hp hc hprg => exact Nat.le_trans hcalled hok
  | _ => exact hok

end Steps

section Runs

variable {AesKey : Type} {m : Machine AesKey} {root : List Action} {workers : Nat}
  {schedule : List Nat}

theorem reproducing_start : Reproducing m root startShared :=
  ⟨rfl, nofun, nofun, Or.inl rfl⟩

theorem follows_start (t : Nat) :
    Follows m root t ((start (mainAndWorkers root workers)).locals t) := by
  refine ⟨?_, nofun, nofun⟩
  by_cases ht : t = 0
  · subst ht
    exact Or.inr ⟨[], _, ⟨Or.inl ⟨rfl, rfl, rfl, rfl⟩, rfl, .start, rfl, rfl, rfl⟩,
      Or.inr ⟨rfl, rfl⟩⟩
  · refine Or.inl ⟨?_, rfl⟩
    show (mainAndWorkers root workers t).getD [] = []
    rw [mainAndWorkers, if_neg ht]
    split <;> rfl

theorem follows_run (hreset : bodyUses Action.isReset root = false)
    (hscope : bodyUses Action.isScope root = false)
    (hok : ∀ t, Dedicated ((m.run schedule (mainAndWorkers root workers)).locals t)) :
    Reproducing m root (m.run schedule (mainAndWorkers root workers)).shared := by
  have hupholds : Interleaving.Upholds (threadStep m) (fun _ => True) (Reproducing m root)
      (fun t _ th => Follows m root t th) Dedicated :=
    { earlier := fun _ _ _ hok => dedicated_earlier threadStep_step hok
      shared := fun _ _ _ _ hG hL hok =>
        (follows_step hreset hscope threadStep_step hG hL hok).1
      own := fun _ _ _ _ hG hL hok => (follows_step hreset hscope threadStep_step hG hL hok).2
      other := fun _ _ _ _ _ _ _ hL => hL }
  exact (Interleaving.run_upholds hupholds (fun _ _ => trivial) reproducing_start follows_start
    hok).1

end Runs

end EmpTool.TestMode
