import EmpTool.Runtime.Error

namespace EmpTool.TestMode

structure TestSeedTls where
  lane : UInt64
  ctr : UInt64
  childCtr : UInt64
  epoch : UInt64
  deriving DecidableEq, Repr

structure TestSeed where
  lane : UInt64
  ordinal : UInt64
  deriving DecidableEq, Repr

def testSeedTls : TestSeedTls := ⟨0, 0, 0, 0⟩

def syncTestEpoch (epoch : UInt64) (s : TestSeedTls) : TestSeedTls :=
  if s.epoch ≠ epoch then { s with ctr := 0, childCtr := 0, epoch := epoch } else s

-- `hash` is the hash of the thread id
def thisThreadToken (hash : UInt64) : UInt64 := hash ||| 1

def mix64 (x : UInt64) : UInt64 :=
  let x := x + 0x9E3779B97F4A7C15
  let x := (x ^^^ (x >>> 30)) * 0xBF58476D1CE4E5B9
  let x := (x ^^^ (x >>> 27)) * 0x94D049BB133111EB
  x ^^^ (x >>> 31)

def secondLane0Thread : String :=
  "test mode: a second thread drew lane-0 randomness; run spawned work under " ++
    "emp::test_lane_scope (see docs/test_mode.md)"

def compareExchangeStrong (atomic expected desired : UInt64) : Bool × UInt64 × UInt64 :=
  if atomic = expected then (true, desired, expected) else (false, atomic, atomic)

def claimLane0 (token owner : UInt64) : Except String UInt64 := do
  let r := compareExchangeStrong owner 0 token
  expecting (r.1 ∨ r.2.2 = token) secondLane0Thread
  pure r.2.1

-- `next_test_seed` from its exchange on; `syncTestEpoch` comes first and is a step of its own
def nextTestSeed (token owner : UInt64) (s : TestSeedTls) :
    Except String (TestSeed × UInt64 × TestSeedTls) := do
  let owner ← if s.lane = 0 then claimLane0 token owner else pure owner
  pure (⟨s.lane, s.ctr⟩, owner, { s with ctr := s.ctr + 1 })

def childLane (lane childCtr : UInt64) : UInt64 :=
  let child := mix64 (mix64 lane ^^^ childCtr)
  if child = 0 then 1 else child

def nextTestChildLane (epoch : UInt64) (s : TestSeedTls) : UInt64 × TestSeedTls :=
  let s := syncTestEpoch epoch s
  (childLane s.lane s.childCtr, { s with childCtr := s.childCtr + 1 })

def testLaneScope (lane epoch : UInt64) : TestSeedTls := ⟨lane, 0, 0, epoch⟩

theorem thisThreadToken_ne_zero (hash : UInt64) : thisThreadToken hash ≠ 0 := by
  intro h
  have hbit := congrArg (fun x : UInt64 => x.toNat.testBit 0) h
  simp [thisThreadToken] at hbit

theorem syncTestEpoch_same (s : TestSeedTls) : syncTestEpoch s.epoch s = s :=
  if_neg fun h => h rfl

theorem childLane_ne_zero (lane childCtr : UInt64) : childLane lane childCtr ≠ 0 := by
  show (if mix64 (mix64 lane ^^^ childCtr) = 0 then (1 : UInt64) else _) ≠ 0
  split
  case isTrue => decide
  case isFalse h => exact h

theorem claimLane0_eq (token owner : UInt64) :
    claimLane0 token owner =
      if owner = 0 ∨ owner = token then .ok token else .error secondLane0Thread := by
  by_cases h : owner = 0
  · rw [claimLane0, compareExchangeStrong, if_pos h, if_pos (Or.inl h)]
    rfl
  · rw [claimLane0, compareExchangeStrong, if_neg h]
    by_cases ht : owner = token
    · rw [if_pos (Or.inr ht), ht]
      simp [expecting, bind, Except.bind, pure, Except.pure]
    · rw [if_neg (not_or.mpr ⟨h, ht⟩)]
      simp [expecting, ht, bind, Except.bind]

theorem nextTestSeed_lane0 {token owner : UInt64} {s : TestSeedTls} (h : s.lane = 0) :
    nextTestSeed token owner s =
      if owner = 0 ∨ owner = token then .ok (⟨0, s.ctr⟩, token, { s with ctr := s.ctr + 1 })
      else .error secondLane0Thread := by
  rw [nextTestSeed, if_pos h, claimLane0_eq, h]
  split <;> rfl

theorem nextTestSeed_lane {token owner : UInt64} {s : TestSeedTls} (h : s.lane ≠ 0) :
    nextTestSeed token owner s = .ok (⟨s.lane, s.ctr⟩, owner, { s with ctr := s.ctr + 1 }) := by
  rw [nextTestSeed, if_neg h]
  rfl

theorem nextTestSeed_ok {token owner owner' : UInt64} {s s' : TestSeedTls} {seed : TestSeed}
    (h : nextTestSeed token owner s = .ok (seed, owner', s')) :
    seed = ⟨s.lane, s.ctr⟩ ∧ s' = { s with ctr := s.ctr + 1 } ∧
      (s.lane = 0 → (owner = 0 ∨ owner = token) ∧ owner' = token) ∧
      (s.lane ≠ 0 → owner' = owner) := by
  by_cases hlane : s.lane = 0
  · rw [nextTestSeed_lane0 hlane] at h
    split at h
    case isTrue hown =>
      cases h
      exact ⟨by rw [hlane], rfl, fun _ => ⟨hown, rfl⟩, fun hne => absurd hlane hne⟩
    case isFalse => cases h
  · rw [nextTestSeed_lane hlane] at h
    cases h
    exact ⟨rfl, rfl, fun hz => absurd hz hlane, fun _ => rfl⟩

theorem nextTestSeed_error {token owner : UInt64} {s : TestSeedTls} {message : String}
    (h : nextTestSeed token owner s = .error message) :
    message = secondLane0Thread ∧ s.lane = 0 ∧ ¬(owner = 0 ∨ owner = token) := by
  by_cases hlane : s.lane = 0
  · rw [nextTestSeed_lane0 hlane] at h
    split at h
    case isTrue => cases h
    case isFalse hown =>
      cases h
      exact ⟨rfl, hlane, hown⟩
  · rw [nextTestSeed_lane hlane] at h
    cases h

end EmpTool.TestMode
