import EmpTool.Ir.Scheduling
import Mathlib.Order.Bounds.Defs

namespace EmpTool.Ir

open StraightLine

-- wire `w` is there after `round w` rounds of interaction: an And gate takes a round of its own
-- and the other gates are local
structure RoundPlan (p : BooleanProgram) (rounds : Nat) where
  round : UInt32 → Nat
  operands : ∀ g ∈ p.gates, ∀ w ∈ g.reads, round w + (if g.isAnd then 1 else 0) ≤ round g.out
  within : ∀ g ∈ p.gates, round g.out ≤ rounds

namespace RoundPlan

variable {p : BooleanProgram} {rounds : Nat}

theorem path_le (plan : RoundPlan p rounds) {k : Nat} {w : UInt32} (path : AndPath p.gates k w) :
    k ≤ plan.round w := by
  induction path with
  | start w => exact Nat.zero_le _
  | @through k g w hg hw path ih =>
    have hstep := plan.operands g hg w hw
    cases hand : g.isAnd with
    | true =>
      rw [hand, if_pos rfl] at hstep
      rw [if_pos rfl]
      omega
    | false =>
      rw [hand, if_neg Bool.false_ne_true] at hstep
      rw [if_neg Bool.false_ne_true]
      omega

theorem path_le_rounds (plan : RoundPlan p rounds) {k : Nat} {w : UInt32}
    (path : AndPath p.gates k w) : k ≤ rounds := by
  cases path with
  | start w => exact Nat.zero_le _
  | @through k g w hg hw path =>
    calc _ ≤ plan.round g.out := plan.path_le (.through hg hw path)
      _ ≤ rounds := plan.within g hg

end RoundPlan

theorem andPath_run {all gs : List Gate} (hsub : ∀ g ∈ gs, g ∈ all) {level : UInt32 → Nat}
    (h : ∀ w, AndPath all (level w) w) : ∀ w, AndPath all (levelMachine.run gs level w) w := by
  induction gs generalizing level with
  | nil => exact h
  | cons g gs ih =>
    rw [List.forall_mem_cons] at hsub
    rw [Machine.run_cons]
    exact ih hsub.2 (andPath_exec hsub.1 h)

theorem level_path (p : BooleanProgram) (w : UInt32) : AndPath p.gates (p.level w) w :=
  andPath_run (fun _ hg => hg) (fun w => .start w) w

section Levels

variable {p : BooleanProgram} (hv : Valid p) (hd : p.wireReuse = .none)

include hv hd

theorem level_out {g : Gate} (hg : g ∈ p.gates) : p.level g.out = gateLevel g p.level :=
  hv.level_solves hd g hg

theorem exists_level_andDepth : ∃ w, p.level w = p.andDepth := by
  obtain ⟨w, path⟩ := andPath_maxLevel (fun _ hg => hg) (fun w => AndPath.start w)
  exact ⟨w, Nat.le_antisymm (level_le_andDepth p w) (andPath_le (hv.level_solves hd) path)⟩

theorem andDepth_greatest : IsGreatest {k | ∃ w, AndPath p.gates k w} p.andDepth := by
  obtain ⟨w, hw⟩ := exists_level_andDepth hv hd
  refine ⟨⟨w, hw ▸ level_path p w⟩, fun k ⟨v, path⟩ => ?_⟩
  calc k ≤ p.level v := andPath_le (hv.level_solves hd) path
    _ ≤ p.andDepth := level_le_andDepth p v

theorem andDepth_le_rounds {rounds : Nat} (plan : RoundPlan p rounds) : p.andDepth ≤ rounds := by
  obtain ⟨w, path⟩ := (andDepth_greatest hv hd).1
  exact plan.path_le_rounds path

-- the last And gate of a longest path is on the level of its end
theorem exists_and_of_path {k : Nat} {w : UInt32} (path : AndPath p.gates k w)
    (hk : p.level w = k) (hpos : 0 < k) : ∃ g ∈ p.gates, g.isAnd = true ∧ p.level g.out = k := by
  induction path with
  | start w => exact absurd hpos (Nat.lt_irrefl 0)
  | @through k g w hg hw path ih =>
    cases hand : g.isAnd with
    | true => exact ⟨g, hg, hand, by rwa [hand] at hk⟩
    | false =>
      rw [hand, if_neg Bool.false_ne_true] at hk hpos
      rw [if_neg Bool.false_ne_true]
      have hlow := andPath_le (hv.level_solves hd) path
      have hread := level_read_le hw p.level
      rw [← level_out hv hd hg, hand, if_neg Bool.false_ne_true] at hread
      exact ih (by omega) hpos

-- an And gate on level `l + 1` has an operand on level `l`, so no level below is empty
theorem exists_and_of_level (d : Nat) :
    ∀ w, p.level w = d → ∀ l, 0 < l → l ≤ d →
      ∃ g ∈ p.gates, g.isAnd = true ∧ p.level g.out = l := by
  induction d with
  | zero => omega
  | succ d ih =>
    intro w hw l hpos hle
    obtain ⟨g, hg, hand, hout⟩ :=
      exists_and_of_path hv hd (hw ▸ level_path p w) hw (Nat.succ_pos d)
    rcases Nat.lt_or_eq_of_le hle with hlt | rfl
    · rcases level_attained g p.level with hzero | ⟨v, -, hv'⟩
      · rw [level_out hv hd hg] at hout
        omega
      · rw [hand, if_pos rfl, ← level_out hv hd hg, hout] at hv'
        exact ih v (by omega) l hpos (by omega)
    · exact ⟨g, hg, hand, hout⟩

theorem exists_level_plan : ∃ plan : RoundPlan p p.andDepth, plan.round = p.level := by
  refine ⟨⟨p.level, fun g hg w hw => ?_, fun g _ => level_le_andDepth p g.out⟩, rfl⟩
  rw [level_out hv hd hg]
  exact level_read_le hw p.level

end Levels

def andGatesAt (p : BooleanProgram) (level : UInt32 → Int) (l : Int) : List Nat :=
  (List.range p.gates.length).filter fun gi =>
    (p.gates.getD gi {}).isAnd && level (p.gates.getD gi {}).out = l

structure ScheduleOptimal (p : BooleanProgram) (s : ScheduleStats) : Prop where
  attained : ∃ plan : RoundPlan p s.levels.depth.toNat, ∀ w, s.wireLevel w = plan.round w
  fewest : ∀ rounds, RoundPlan p rounds → s.levels.depth ≤ rounds
  earliest : ∀ rounds (plan : RoundPlan p rounds) w, s.wireLevel w ≤ plan.round w
  buckets : ∀ l, s.levels.andGateIndices l = andGatesAt p s.wireLevel l
  no_gap : ∀ l, s.levels.andGateIndices l ≠ [] ↔ 0 < l ∧ l ≤ s.levels.depth

theorem mem_andGatesAt {p : BooleanProgram} {level : UInt32 → Int} {l : Int} {gi : Nat} :
    gi ∈ andGatesAt p level l ↔
      ∃ g, p.gates[gi]? = some g ∧ g.isAnd = true ∧ level g.out = l := by
  rw [andGatesAt, List.mem_filter, List.mem_range, List.getD_eq_getElem?_getD]
  constructor
  · rintro ⟨hgi, hg⟩
    rw [List.getElem?_eq_getElem hgi, Option.getD_some, Bool.and_eq_true, decide_eq_true_iff] at hg
    exact ⟨_, List.getElem?_eq_getElem hgi, hg⟩
  · rintro ⟨g, hg, hand, hl⟩
    refine ⟨(List.getElem?_eq_some_iff.mp hg).1, ?_⟩
    rw [hg, Option.getD_some, hand, hl, Bool.true_and, decide_eq_true_iff]

theorem Valid.numGate_toNat {p : BooleanProgram} (hv : Valid p) (hd : p.wireReuse = .none) :
    p.numGate.toNat = p.gates.length := by
  have hcount := hv.dense_count hd
  have hlt := p.numWires.toNat_lt
  exact toNat_ofNat (by omega)

theorem andGatesAt_ne_nil {p : BooleanProgram} (hv : Valid p) (hd : p.wireReuse = .none) (l : Int) :
    andGatesAt p (fun w => (p.level w : Int)) l ≠ [] ↔ 0 < l ∧ l ≤ p.andDepth := by
  constructor
  · intro hne
    obtain ⟨gi, hgi⟩ := List.exists_mem_of_ne_nil _ hne
    obtain ⟨g, hg, hand, hl⟩ := mem_andGatesAt.mp hgi
    have hout := level_out hv hd (List.mem_of_getElem? hg)
    have hle := level_le_andDepth p g.out
    obtain ⟨w, hw⟩ : ∃ w, w ∈ g.reads := by
      refine ⟨g.in0, ?_⟩
      have hop : g.op = .and := by simpa [Gate.isAnd] using hand
      simp [Gate.reads, hop]
    have hread := level_read_le hw p.level
    rw [hand, if_pos rfl, ← hout] at hread
    omega
  · rintro ⟨hpos, hle⟩
    obtain ⟨w, hw⟩ := exists_level_andDepth hv hd
    obtain ⟨g, hg, hand, hout⟩ :=
      exists_and_of_level hv hd _ w hw l.toNat (by omega) (by omega)
    obtain ⟨gi, hgi⟩ := List.mem_iff_getElem?.mp hg
    exact List.ne_nil_of_mem (mem_andGatesAt.mpr ⟨g, hgi, hand, by omega⟩)

theorem schedulePass_optimal {p : BooleanProgram} (hv : Valid p) (hd : p.wireReuse = .none)
    {s : ScheduleStats} (hs : schedulePass p = .ok s) : ScheduleOptimal p s := by
  obtain ⟨-, rfl⟩ := (schedulePass_ok hv hd).mp hs
  have hbuckets (l : Int) : Table.group (fun gi => if (p.gates.getD gi {}).isAnd then
      some (p.level (p.gates.getD gi {}).out : Int) else none) (List.range p.numGate.toNat) l =
        andGatesAt p (fun w => (p.level w : Int)) l := by
    rw [Table.group_apply, hv.numGate_toNat hd, andGatesAt]
    refine List.filter_congr fun gi _ => ?_
    cases (p.gates.getD gi {}).isAnd <;> simp
  refine ⟨?_, fun rounds plan => ?_, fun rounds plan w => ?_, hbuckets, fun l => ?_⟩
  · obtain ⟨plan, hplan⟩ := exists_level_plan hv hd
    exact ⟨plan, fun w => by rw [hplan]⟩
  · exact Int.ofNat_le.mpr (andDepth_le_rounds hv hd plan)
  · exact Int.ofNat_le.mpr (plan.path_le (level_path p w))
  · dsimp only
    rw [hbuckets]
    exact andGatesAt_ne_nil hv hd l

theorem andBatch_levelPlan (p : BooleanProgram) (l : Nat) :
    andBatch p (p.levelPlan.bucket l) = andGatesAt p (fun w => (p.level w : Int)) l := by
  rw [andBatch, BooleanProgram.levelPlan]
  dsimp only
  rw [Table.group_apply, List.filter_filter, andGatesAt]
  exact List.filter_congr fun gi _ => congrArg _ (decide_eq_decide.mpr Option.some_inj)

theorem levelBatches_eq {p : BooleanProgram} (hv : Valid p) (hd : p.wireReuse = .none) :
    p.levelBatches =
      (List.range' 1 p.andDepth).map fun l : Nat => andGatesAt p (fun w => (p.level w : Int)) l := by
  have hne (l : Nat) : (!(andGatesAt p (fun w => (p.level w : Int)) l).isEmpty) = true ↔
      0 < l ∧ l ≤ p.andDepth := by
    rw [Bool.not_eq_true', ← Bool.not_eq_true, List.isEmpty_iff, ← ne_eq,
      andGatesAt_ne_nil hv hd]
    omega
  have hzero : andGatesAt p (fun w => (p.level w : Int)) (0 : Nat) = [] := by
    by_contra h
    have := (andGatesAt_ne_nil hv hd (0 : Nat)).mp h
    omega
  simp only [BooleanProgram.levelBatches, nonemptyBatches, List.map_map, Function.comp_def,
    andBatch_levelPlan, List.range_eq_range']
  rw [List.range'_succ, List.map_cons, hzero, List.filter_cons_of_neg (by simp)]
  refine List.filter_eq_self.mpr fun batch hbatch => ?_
  obtain ⟨l, hl, rfl⟩ := List.mem_map.mp hbatch
  rw [List.mem_range'_1] at hl
  exact (hne l).mpr (by omega)

theorem scheduled_execute_fewest_rounds {Wire : Type} [Inhabited Wire] (p : BooleanProgram)
    (hv : validateProgram p = .ok ()) (hd : p.wireReuse = .none)
    (hdepth : AndDepthBelow p (2 ^ 31 - 1)) (ops : GateOps Wire) (inputs : List Wire)
    (hin : inputs.length = p.numInputs.toNat) (ws : ProgramWorkspace Wire) (debug : Bool) :
    ∃ s plan outs ws' run log, schedulePass p = .ok s ∧ makeScheduledPlan p = .ok plan ∧
      scheduledExecuteProgramIn ops.loggedContext debug p plan inputs ws = .ok run ∧
      run.run [] = ((outs, ws'), log) ∧
      executeProgram (m := Id) ops.context p inputs = .ok outs ∧
      ScheduleOptimal p s ∧
      log = (List.range' 1 s.levels.depth.toNat).map
        (fun l : Nat => p.operands ops inputs (s.levels.andGateIndices l)) ∧
      ∀ rounds, RoundPlan p rounds → log.length ≤ rounds := by
  have valid := validateProgram_ok_iff.mp hv
  have hlt := (andDepthBelow_iff valid hd).mp hdepth
  have hs := (schedulePass_ok valid hd).mpr ⟨hlt, rfl⟩
  have hoptimal := schedulePass_optimal valid hd hs
  obtain ⟨ws', hrun⟩ := scheduledExecute_eq valid hd hlt ops hin ws debug
  obtain ⟨run, hlogged, hlog⟩ := scheduledExecute_logged valid hd hlt ops hin ws debug hrun
  refine ⟨_, _, _, ws', run, _, hs, (makeScheduledPlan_ok valid hd).mpr ⟨hlt, rfl⟩, hlogged, hlog,
    executeProgram_eq valid ops hin, hoptimal, ?_, fun rounds plan => ?_⟩
  · rw [levelBatches_eq valid hd, List.map_map]
    exact List.map_congr_left fun l _ => congrArg _ (hoptimal.buckets l).symm
  · have hfewest := hoptimal.fewest rounds plan
    rw [List.length_map, levelBatches_eq valid hd, List.length_map, List.length_range']
    exact Int.ofNat_le.mp hfewest

theorem scheduled_execute_fewest_rounds_andChain :
    ∃ s plan outs ws' run log, schedulePass (andChain 2) = .ok s ∧
      makeScheduledPlan (andChain 2) = .ok plan ∧
      scheduledExecuteProgramIn clearCtx.loggedContext true (andChain 2) plan [1] {} = .ok run ∧
      run.run [] = ((outs, ws'), log) ∧
      executeProgram (m := Id) clearCtx.context (andChain 2) [1] = .ok outs ∧
      ScheduleOptimal (andChain 2) s ∧
      log = (List.range' 1 s.levels.depth.toNat).map
        (fun l : Nat => (andChain 2).operands clearCtx [1] (s.levels.andGateIndices l)) ∧
      ∀ rounds, RoundPlan (andChain 2) rounds → log.length ≤ rounds :=
  scheduled_execute_fewest_rounds (andChain 2) rfl rfl
    ((andDepthBelow_iff (andChain_valid (by decide)) rfl).mpr (by decide)) clearCtx [1] rfl {} true

end EmpTool.Ir
