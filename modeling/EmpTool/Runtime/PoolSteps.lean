import EmpTool.Runtime.ThreadPool

namespace EmpTool.TestMode

open Crypto

section

variable {AesKey : Type} (m : Machine AesKey) (t : Nat) (g : Shared) (th : Thread AesKey)

inductive Step : Shared → Thread AesKey → Prop
  | stay : Step g th
  | refuse (hp : th.pending = .drawing ∨ ∃ epoch, th.pending = .reseeding epoch)
    (lane0 : th.tls.lane = 0) (taken : ¬(g.owner = 0 ∨ g.owner = m.token t)) :
    Step (g.fail secondLane0Thread) th
  | stopped : Step (g.fail "ThreadPool: enqueue on stopped pool") th
  | broken (message : String) (hp : th.pending = .sampling) : Step (g.fail message) th
  | leave (scope : Scope) (scopes : List Scope) (hp : th.pending = .ready) (hc : th.code = [])
    (hs : th.scopes = scope :: scopes) :
    Step g { th with tls := scope.saved, code := scope.code, scopes := scopes }
  | pop (task : Task) (queue : List Task) (hp : th.pending = .ready) (hc : th.code = [])
    (hs : th.scopes = []) (hw : th.worker = true) (hq : g.queue = task :: queue) :
    Step { g with queue := queue } { th with
      pending := .installing task
      task := task.id
      spawned := 0
      obtained := 0
      drewScalar := false }
  | construct (code : List Action) (hp : th.pending = .ready) (hc : th.code = .construct :: code) :
    Step g { th with
      code := code
      tls := syncTestEpoch g.epoch th.tls
      pending := .drawing }
  | useGenerator (code : List Action) (p : Prg AesKey) (hp : th.pending = .ready)
    (hc : th.code = .randScalar :: code) (hprg : th.prg = some p) (hepoch : th.prgEpoch = g.epoch) :
    Step g { callRandScalar { th with code := code } with pending := .sampling }
  | needGenerator (code : List Action) (hp : th.pending = .ready)
    (hc : th.code = .randScalar :: code) (hprg : th.prg = none ∨ th.prgEpoch ≠ g.epoch) :
    Step g { callRandScalar { th with code := code } with pending := .seeding g.epoch }
  | reset (code : List Action) (hp : th.pending = .ready) (hc : th.code = .reset :: code) :
    Step { g with epoch := g.epoch + 1 } { th with code := code, pending := .releasing }
  | destroyPool (code : List Action) (hp : th.pending = .ready)
    (hc : th.code = .destroyPool :: code) :
    Step { g with stop := true } { th with code := code }
  | enqueue (body code : List Action) (hp : th.pending = .ready)
    (hc : th.code = .enqueue body :: code) :
    Step g { th with
      code := code
      tls := (nextTestChildLane g.epoch th.tls).2
      spawned := th.spawned + 1
      pending := .pushing
        ⟨(nextTestChildLane g.epoch th.tls).1, body, th.task.child th.spawned⟩ }
  | scope (lane : UInt64) (body code : List Action) (hp : th.pending = .ready)
    (hc : th.code = .scope lane body :: code) :
    Step g { th with
      tls := testLaneScope lane g.epoch
      code := body
      scopes := ⟨th.tls, code⟩ :: th.scopes }
  | draw (seed : TestSeed) (owner : UInt64) (tls : TestSeedTls) (hp : th.pending = .drawing)
    (hdraw : nextTestSeed (m.token t) g.owner th.tls = .ok (seed, owner, tls)) :
    Step ({ g with owner := owner }.record (.obtained t th.task th.obtained (.seed seed)))
      { th with tls := tls, obtained := th.obtained + 1, pending := .ready }
  | syncSeed (epoch : UInt64) (hp : th.pending = .seeding epoch) :
    Step g { th with tls := syncTestEpoch g.epoch th.tls, pending := .reseeding epoch }
  | seed (epoch : UInt64) (seed : TestSeed) (owner : UInt64) (tls : TestSeedTls)
    (hp : th.pending = .reseeding epoch)
    (hdraw : nextTestSeed (m.token t) g.owner th.tls = .ok (seed, owner, tls)) :
    Step ({ g with owner := owner }.record (.seeded t th.task seed))
      { th with tls := tls, prg := some (m.prg seed), prgEpoch := epoch, pending := .sampling }
  | reject (p p' : Prg AesKey) (n : Nat) (hp : th.pending = .sampling) (hprg : th.prg = some p)
    (hdraw : drawCandidate m p = .ok (n, p')) (hn : m.order ≤ n) :
    Step g { th with prg := some p' }
  | accept (p p' : Prg AesKey) (n : Nat) (hp : th.pending = .sampling) (hprg : th.prg = some p)
    (hdraw : drawCandidate m p = .ok (n, p')) (hn : n < m.order) :
    Step (g.record (.obtained t th.task th.obtained (.scalar n)))
      { th with prg := some p', obtained := th.obtained + 1, pending := .ready }
  | push (task : Task) (hp : th.pending = .pushing task) (hs : g.stop = false) :
    Step { g with queue := g.queue ++ [task] } { th with pending := .ready }
  | install (task : Task) (hp : th.pending = .installing task) :
    Step g { th with
      tls := testLaneScope task.lane g.epoch
      code := task.body
      scopes := ⟨th.tls, th.code⟩ :: th.scopes
      pending := .ready }
  | release (hp : th.pending = .releasing) :
    Step ({ g with owner := 0 }.record .reset) { th with pending := .ready }

end

section

variable {AesKey : Type} {m : Machine AesKey} {t : Nat} {g : Shared} {th : Thread AesKey}

theorem begin_step {code : List Action} {a : Action} (hp : th.pending = .ready)
    (hc : th.code = a :: code) :
    Step m t g th (begin g { th with code := code } a).1
      (begin g { th with code := code } a).2 := by
  cases a with
  | construct => exact .construct code hp hc
  | randScalar =>
    by_cases h : th.prg.isNone ∨ th.prgEpoch ≠ g.epoch
    · have hprg : th.prg = none ∨ th.prgEpoch ≠ g.epoch := by simpa using h
      have hbegin : begin g { th with code := code } .randScalar =
          (g, { callRandScalar { th with code := code } with pending := .seeding g.epoch }) :=
        if_pos h
      rw [hbegin]
      exact .needGenerator code hp hc hprg
    · have hbegin : begin g { th with code := code } .randScalar =
          (g, { callRandScalar { th with code := code } with pending := .sampling }) := if_neg h
      rw [hbegin]
      rw [not_or, Option.isNone_iff_eq_none, not_not] at h
      obtain ⟨p, hprg⟩ := Option.ne_none_iff_exists'.mp h.1
      exact .useGenerator code p hp hc hprg h.2
  | reset => exact .reset code hp hc
  | destroyPool => exact .destroyPool code hp hc
  | enqueue body => exact .enqueue body code hp hc
  | scope lane body => exact .scope lane body code hp hc

theorem sample_step {p : Prg AesKey} (hp : th.pending = .sampling) (hprg : th.prg = some p) :
    Step m t g th (sample m t g th p).1 (sample m t g th p).2 := by
  unfold sample
  cases hdraw : drawCandidate m p with
  | error message => exact .broken message hp
  | ok r =>
    obtain ⟨n, p'⟩ := r
    by_cases hn : m.order ≤ n
    · simp only [if_pos hn]
      exact .reject p p' n hp hprg hdraw hn
    · simp only [if_neg hn]
      exact .accept p p' n hp hprg hdraw (Nat.lt_of_not_le hn)

theorem resume_step {pending : Pending} (hp : th.pending = pending) :
    Step m t g th (resume m t g th pending).1 (resume m t g th pending).2 := by
  cases pending with
  | ready => exact .stay
  | drawing =>
    unfold resume
    cases hdraw : nextTestSeed (m.token t) g.owner th.tls with
    | error message =>
      obtain ⟨rfl, hlane, htaken⟩ := nextTestSeed_error hdraw
      exact .refuse (Or.inl hp) hlane htaken
    | ok r => exact .draw r.1 r.2.1 r.2.2 hp hdraw
  | seeding epoch => exact .syncSeed epoch hp
  | reseeding epoch =>
    unfold resume
    cases hdraw : nextTestSeed (m.token t) g.owner th.tls with
    | error message =>
      obtain ⟨rfl, hlane, htaken⟩ := nextTestSeed_error hdraw
      exact .refuse (Or.inr ⟨epoch, hp⟩) hlane htaken
    | ok r => exact .seed epoch r.1 r.2.1 r.2.2 hp hdraw
  | sampling =>
    unfold resume
    cases hprg : th.prg with
    | none => exact .stay
    | some p => exact sample_step hp hprg
  | pushing task =>
    by_cases hs : g.stop = true
    · have hresume : resume m t g th (.pushing task) =
          (g.fail "ThreadPool: enqueue on stopped pool", th) := if_pos hs
      rw [hresume]
      exact .stopped
    · have hresume : resume m t g th (.pushing task) =
          ({ g with queue := g.queue ++ [task] }, { th with pending := .ready }) := if_neg hs
      rw [hresume]
      exact .push task hp (Bool.not_eq_true _ ▸ hs)
  | installing task => exact .install task hp
  | releasing => exact .release hp

theorem finish_step (hp : th.pending = .ready) (hc : th.code = []) :
    Step m t g th (finish g th).1 (finish g th).2 := by
  unfold finish
  cases hs : th.scopes with
  | cons scope scopes => exact .leave scope scopes hp hc hs
  | nil =>
    cases hw : th.worker with
    | false => exact .stay
    | true =>
      simp only [nextTask]
      cases hq : g.queue with
      | nil => exact .stay
      | cons task queue => exact .pop task queue hp hc hs hw hq

theorem threadStep_step : Step m t g th (threadStep m t g th).1 (threadStep m t g th).2 := by
  unfold threadStep
  split
  case isTrue => exact .stay
  case isFalse =>
    cases hp : th.pending with
    | ready =>
      cases hc : th.code with
      | nil => exact finish_step hp hc
      | cons a code =>
        have hbegin := @begin_step AesKey m t g th code a hp hc
        rw [hp] at hbegin
        exact hbegin
    | _ => exact resume_step hp

end

end EmpTool.TestMode
