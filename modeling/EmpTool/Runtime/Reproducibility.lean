import EmpTool.Crypto.Reseeding
import EmpTool.Runtime.Lane0
import EmpTool.Runtime.Lanes

namespace EmpTool.TestMode

open Crypto

section SeedsOnly

variable {AesKey : Type} {m : Machine AesKey} {root : List Action} {t : Nat} {g : Shared}
  {th : Thread AesKey}

theorem Follows.not_refused (hG : Reproducing m root g) (hL : Follows m root t th)
    (hp : th.pending = .drawing ∨ ∃ epoch, th.pending = .reseeding epoch)
    (hlane : th.tls.lane = 0) : g.owner = 0 ∨ g.owner = m.token t := by
  rcases hp with hp | ⟨epoch, hp⟩
  · have hstage : Stage m root t th .drawing := hp ▸ hL.stage
    obtain ⟨done, a, hd, -⟩ := hstage
    exact hd.not_refused hG.owner hlane
  · have hstage : Stage m root t th (.reseeding epoch) := hp ▸ hL.stage
    obtain ⟨done, a, hd, -⟩ := hstage
    exact hd.not_refused hG.owner hlane

theorem Follows.served_of_sampling (hL : Follows m root t th) (hp : th.pending = .sampling) :
    1 ≤ th.scalarTasks := by
  have hstage : Stage m root t th .sampling := hp ▸ hL.stage
  obtain ⟨done, a, p, hd, -, hdrew, -⟩ := hstage
  exact hL.drew hdrew

theorem unserved_step (hscalar : bodyUses Action.isRandScalar root = false) {g' : Shared}
    {th' : Thread AesKey} (hstep : Step m t g th g' th') (hL : Follows m root t th)
    (hzero : th.scalarTasks = 0) : th'.scalarTasks = 0 := by
  cases hstep with
  | useGenerator code p hp hc hprg hepoch =>
    obtain ⟨done, a, hd, -⟩ := hL.begin hp hc
    cases hd.mem hscalar
  | needGenerator code hp hc hprg =>
    obtain ⟨done, a, hd, -⟩ := hL.begin hp hc
    cases hd.mem hscalar
  | _ => exact hzero

theorem unrefused_step {g' : Shared} {th' : Thread AesKey} (hstep : Step m t g th g' th')
    (hG : Reproducing m root g) (hL : Follows m root t th) (hzero : th.scalarTasks = 0)
    (hfailure : g.failure ≠ some secondLane0Thread) :
    g'.failure ≠ some secondLane0Thread := by
  cases hstep with
  | refuse hp lane0 taken => exact absurd (hL.not_refused hG hp lane0) taken
  | stopped =>
    intro h
    exact absurd (Option.some.inj h) (by decide)
  | broken message hp =>
    have hserved := hL.served_of_sampling hp
    omega
  | _ => exact hfailure

end SeedsOnly

section Runs

variable {AesKey : Type} {m : Machine AesKey} {root : List Action} {workers : Nat}
  {schedule : List Nat}

theorem seeds_run (hscalar : bodyUses Action.isRandScalar root = false)
    (hreset : bodyUses Action.isReset root = false)
    (hscope : bodyUses Action.isScope root = false) :
    Reproducing m root (m.run schedule (mainAndWorkers root workers)).shared ∧
      (m.run schedule (mainAndWorkers root workers)).shared.failure ≠ some secondLane0Thread := by
  have hok : ∀ t g (th : Thread AesKey), Follows m root t th → th.scalarTasks = 0 →
      Dedicated (threadStep m t g th).2 := by
    intro t g th hL hzero
    have hunserved : (threadStep m t g th).2.scalarTasks = 0 :=
      unserved_step hscalar threadStep_step hL hzero
    unfold Dedicated
    omega
  have hupholds : Interleaving.Upholds (threadStep m) (fun _ => True)
      (fun g => Reproducing m root g ∧ g.failure ≠ some secondLane0Thread)
      (fun t _ th => Follows m root t th ∧ th.scalarTasks = 0) (fun _ => True) :=
    { earlier := fun _ _ _ _ => trivial
      shared := fun t g th _ hG hL _ =>
        ⟨(follows_step hreset hscope threadStep_step hG.1 hL.1 (hok t g th hL.1 hL.2)).1,
          unrefused_step threadStep_step hG.1 hL.1 hL.2 hG.2⟩
      own := fun t g th _ hG hL _ =>
        ⟨(follows_step hreset hscope threadStep_step hG.1 hL.1 (hok t g th hL.1 hL.2)).2,
          unserved_step hscalar threadStep_step hL.1 hL.2⟩
      other := fun _ _ _ _ _ _ _ hL => hL }
  exact (Interleaving.run_upholds hupholds (fun _ _ => trivial)
    ⟨reproducing_start, (Option.some_ne_none _).symm⟩ (fun t => ⟨follows_start t, rfl⟩)
    fun _ => trivial).1

theorem explained_seed {t nth : Nat} {task : TaskId} {what : Obtained}
    (hscalar : bodyUses Action.isRandScalar root = false)
    (h : Explained m root (.obtained t task nth what)) :
    what = .seed ⟨laneOf task.path, UInt64.ofNat nth⟩ := by
  obtain ⟨done, rest, a, hbody, hperforms, hwhat⟩ := h
  have hnone : .randScalar ∉ done := by
    intro hmem
    have hin : .randScalar ∈ done.reverse ++ rest :=
      List.mem_append_left rest (List.mem_reverse.mpr hmem)
    cases bad_of_mem (bodyAt_uses hscalar hbody) hin
  rw [performs_seeds hperforms hnone, List.getElem?_map] at hwhat
  obtain ⟨j, hj, rfl⟩ := Option.map_eq_some_iff.mp hwhat
  obtain ⟨hlt, rfl⟩ := List.getElem?_eq_some_iff.mp hj
  rw [List.getElem_range]

theorem explained_unique {t t' nth : Nat} {task : TaskId} {what what' : Obtained}
    (h : Explained m root (.obtained t task nth what))
    (h' : Explained m root (.obtained t' task nth what')) : what = what' := by
  obtain ⟨done, rest, a, hbody, hperforms, hwhat⟩ := h
  obtain ⟨done', rest', a', hbody', hperforms', hwhat'⟩ := h'
  rcases List.append_eq_append_iff.mp (Option.some.inj (hbody.symm.trans hbody')) with
    ⟨later, hdone, -⟩ | ⟨later, hdone, -⟩
  · have hlonger : done' = later.reverse ++ done := by
      rw [← List.reverse_reverse done', hdone, List.reverse_append, List.reverse_reverse]
    exact performs_agree hperforms (hlonger ▸ hperforms') hwhat hwhat'
  · have hlonger : done = later.reverse ++ done' := by
      rw [← List.reverse_reverse done, hdone, List.reverse_append, List.reverse_reverse]
    exact (performs_agree hperforms' (hlonger ▸ hperforms) hwhat' hwhat).symm

theorem dedicated_everywhere
    (hok : ∀ t ∈ schedule, Dedicated ((m.run schedule (mainAndWorkers root workers)).locals t))
    (t : Nat) : Dedicated ((m.run schedule (mainAndWorkers root workers)).locals t) := by
  by_cases ht : t ∈ schedule
  · exact hok t ht
  · have hidle : (m.run schedule (mainAndWorkers root workers)).locals t = _ :=
      Interleaving.run_of_not_mem ht _
    rw [hidle]
    exact Nat.zero_le 1

end Runs

theorem test_seeds_ignore_scheduling {AesKey : Type} (m : Machine AesKey) :
    (∀ (root : List Action) (workers : Nat) (schedule : List Nat),
      bodyUses Action.isRandScalar root = false → bodyUses Action.isReset root = false →
      bodyUses Action.isScope root = false →
      (m.run schedule (mainAndWorkers root workers)).shared.failure ≠ some secondLane0Thread ∧
        ∀ t task nth what,
          .obtained t task nth what ∈ (m.run schedule (mainAndWorkers root workers)).shared.log →
          what = .seed ⟨laneOf task.path, UInt64.ofNat nth⟩) ∧
    ∀ (program : Nat → Option (List Action)) (schedule : List Nat),
      (∀ t ∈ schedule, ∀ u ∈ schedule, m.token t = m.token u → t = u) →
      Exclusive (m.run schedule program).shared.log := by
  refine ⟨fun root workers schedule hscalar hreset hscope => ?_,
    fun program schedule htoken => exclusive_run htoken program⟩
  obtain ⟨hrun, hfailure⟩ := @seeds_run AesKey m root workers schedule hscalar hreset hscope
  exact ⟨hfailure, fun t task nth what hlog => explained_seed hscalar (hrun.log _ hlog)⟩

def sampleMachine : Machine Block where
  cipher := Prg.sampleCipher
  tiers := Prg.sampleTiers
  raw := Prg.samplePrg
  bignums := {
    numBits := fun n => if n = 0 then 0 else Nat.log2 n + 1
    bin2bn := fun bytes => some (bytes.foldl (fun n b => n * 256 + b.toNat) 0) }
  order := 0xFFFFFFFF00000000FFFFFFFFFFFFFFFFBCE6FAADA7179E84F3B9CAC2FC632551
  hash t := UInt64.ofNat (2 * t)

def sampleTree : List Action :=
  [.enqueue [.construct, .enqueue [.construct], .construct], .construct, .enqueue [.construct]]

def sampleSchedule : List Nat :=
  [0, 0, 0, 0, 0, 0, 1, 1, 2, 2, 1, 1, 2, 2, 1, 1, 2, 1, 1, 1, 2, 2, 2, 2, 2, 2]

theorem test_seeds_ignore_scheduling_sampleTree :
    .obtained 2 ⟨0, [0, 0]⟩ 0 (.seed ⟨2391539541053276776, 0⟩) ∈
        (sampleMachine.run sampleSchedule (mainAndWorkers sampleTree 2)).shared.log ∧
      (sampleMachine.run sampleSchedule (mainAndWorkers sampleTree 2)).shared.failure ≠
        some secondLane0Thread ∧
      laneOf [0, 0] = 2391539541053276776 ∧
      Exclusive (sampleMachine.run sampleSchedule (mainAndWorkers sampleTree 2)).shared.log := by
  obtain ⟨hseeds, howner⟩ := test_seeds_ignore_scheduling sampleMachine
  have hlog : .obtained 2 ⟨0, [0, 0]⟩ 0 (.seed ⟨2391539541053276776, 0⟩) ∈
      (sampleMachine.run sampleSchedule (mainAndWorkers sampleTree 2)).shared.log := by
    decide +kernel
  obtain ⟨hfailure, hall⟩ := hseeds sampleTree 2 sampleSchedule rfl rfl rfl
  have hseed := hall 2 ⟨0, [0, 0]⟩ 0 _ hlog
  injection hseed with hseed
  injection hseed with hlane
  exact ⟨hlog, hfailure, hlane.symm, howner _ sampleSchedule (by decide +kernel)⟩

theorem rand_scalar_reproduces {AesKey : Type} (m : Machine AesKey) (root : List Action)
    (hreset : bodyUses Action.isReset root = false)
    (hscope : bodyUses Action.isScope root = false) (workers workers' : Nat)
    (schedule schedule' : List Nat)
    (hok : ∀ t ∈ schedule, Dedicated ((m.run schedule (mainAndWorkers root workers)).locals t))
    (hok' : ∀ t ∈ schedule',
      Dedicated ((m.run schedule' (mainAndWorkers root workers')).locals t))
    (t t' : Nat) (task : TaskId) (nth : Nat) (what what' : Obtained)
    (h : .obtained t task nth what ∈ (m.run schedule (mainAndWorkers root workers)).shared.log)
    (h' : .obtained t' task nth what' ∈
      (m.run schedule' (mainAndWorkers root workers')).shared.log) : what = what' :=
  explained_unique ((follows_run hreset hscope (dedicated_everywhere hok)).log _ h)
    ((follows_run hreset hscope (dedicated_everywhere hok')).log _ h')

def scalarTree : List Action :=
  [.enqueue [.randScalar, .construct], .enqueue [.randScalar, .construct]]

def oneWorkerSchedule : List Nat := List.replicate 4 0 ++ List.replicate 16 1

def twoWorkerSchedule : List Nat :=
  List.replicate 4 0 ++ [1, 2] ++ List.replicate 7 1 ++ List.replicate 7 2

def threeWorkerSchedule : List Nat :=
  List.replicate 4 0 ++ [3, 1] ++ List.replicate 7 1 ++ List.replicate 7 3

theorem rand_scalar_reproduces_scalarTree :
    .obtained 2 ⟨0, [1]⟩ 1 (.seed ⟨627405149472732430, 1⟩) ∈
        (sampleMachine.run twoWorkerSchedule (mainAndWorkers scalarTree 2)).shared.log ∧
      ∀ t' what', .obtained t' ⟨0, [1]⟩ 1 what' ∈
        (sampleMachine.run threeWorkerSchedule (mainAndWorkers scalarTree 3)).shared.log →
        .seed ⟨627405149472732430, 1⟩ = what' := by
  have hlog : .obtained 2 ⟨0, [1]⟩ 1 (.seed ⟨627405149472732430, 1⟩) ∈
      (sampleMachine.run twoWorkerSchedule (mainAndWorkers scalarTree 2)).shared.log := by
    decide +kernel
  refine ⟨hlog, fun t' what' hlog' => ?_⟩
  exact rand_scalar_reproduces sampleMachine scalarTree rfl rfl 2 3 twoWorkerSchedule
    threeWorkerSchedule (by decide +kernel) (by decide +kernel) 2 t' ⟨0, [1]⟩ 1 _ what' hlog hlog'

-- on one worker the second task finds the generator of the first and draws no seed for it
theorem rand_scalar_depends_on_worker :
    ¬ ∀ (workers workers' : Nat) (schedule schedule' : List Nat) (t t' : Nat) (task : TaskId)
      (nth : Nat) (what what' : Obtained),
      .obtained t task nth what ∈
        (sampleMachine.run schedule (mainAndWorkers scalarTree workers)).shared.log →
      .obtained t' task nth what' ∈
        (sampleMachine.run schedule' (mainAndWorkers scalarTree workers')).shared.log →
      what = what' := by
  intro hall
  have hone : .obtained 1 ⟨0, [1]⟩ 1 (.seed ⟨627405149472732430, 0⟩) ∈
      (sampleMachine.run oneWorkerSchedule (mainAndWorkers scalarTree 1)).shared.log := by
    decide +kernel
  have htwo : .obtained 2 ⟨0, [1]⟩ 1 (.seed ⟨627405149472732430, 1⟩) ∈
      (sampleMachine.run twoWorkerSchedule (mainAndWorkers scalarTree 2)).shared.log := by
    decide +kernel
  have heq := hall 1 2 _ _ 1 2 ⟨0, [1]⟩ 1 _ _ hone htwo
  exact absurd heq (by decide)

end EmpTool.TestMode
