import EmpTool.Ir.Canonical
import EmpTool.Ir.Layout
import EmpTool.Ir.PeakLive
import EmpTool.Ir.Rounds
import EmpTool.Ir.Uncompaction
import Mathlib.Order.Bounds.Basic

namespace EmpTool.Ir

open StraightLine Worklist

structure ProgramStats where
  wireReuse : WireReuse := .none
  numInputs : UInt64 := 0
  numOutputs : UInt64 := 0
  storedNumWires : UInt64 := 0
  denseNumWires : UInt64 := 0
  numGates : UInt64 := 0
  numAnd : UInt64 := 0
  numXor : UInt64 := 0
  numNot : UInt64 := 0
  numConst : UInt64 := 0
  andDepth : UInt64 := 0
  maxAndPerLevel : UInt64 := 0
  reachableWires : UInt64 := 0
  reachableGates : UInt64 := 0
  reachableAnd : UInt64 := 0
  peakLiveWires : UInt64 := 0
  maxFanout : UInt64 := 0
  storedProgramDigest : UInt64 := 0
  denseProgramDigest : UInt64 := 0

def fanoutGate (fanout : UInt32 → UInt64) (g : Gate) : UInt32 → UInt64 :=
  if g.isConst then fanout
  else
    let fanout := Function.update fanout g.in0 (fanout g.in0 + 1)
    if g.isNot then fanout else Function.update fanout g.in1 (fanout g.in1 + 1)

def fanouts (gs : List Gate) : UInt32 → UInt64 := gs.foldl fanoutGate fun _ => 0

def largest (xs : List UInt64) : UInt64 := xs.foldl max 0

def andsPerLevel (levels : LevelInfo) : List UInt64 :=
  (List.range (levels.depth.toNat + 1)).map fun l : Nat =>
    UInt64.ofNat (levels.andGateIndices l).length

def denseForm (stored : BooleanProgram) : Except String BooleanProgram :=
  if stored.wireReuse ≠ .none then uncompact stored else pure stored

def statsOf (stored dense : BooleanProgram) (live : LivenessStats) (schedule : ScheduleStats)
    (layout : LayoutStats) : ProgramStats where
  wireReuse := stored.wireReuse
  numInputs := stored.numInputs.toUInt64
  numOutputs := UInt64.ofNat stored.outputs.length
  storedNumWires := stored.numWires.toUInt64
  denseNumWires := dense.numWires.toUInt64
  numGates := UInt64.ofNat (countPass dense).numGate
  numAnd := UInt64.ofNat (countPass dense).numAnd
  numXor := UInt64.ofNat (countPass dense).numXor
  numNot := UInt64.ofNat (countPass dense).numNot
  numConst := UInt64.ofNat (countPass dense).numConst
  andDepth := UInt64.ofNat schedule.levels.depth.toNat
  maxAndPerLevel := largest (andsPerLevel schedule.levels)
  reachableWires := UInt64.ofNat layout.reachableWire
  reachableGates := UInt64.ofNat layout.reachableGate
  reachableAnd := UInt64.ofNat layout.reachableAnd
  peakLiveWires := Ir.peakLiveWires dense live
  maxFanout := largest ((wireIds dense.numWires).map (fanouts dense.gates))
  storedProgramDigest := digestProgram stored
  denseProgramDigest := digestProgram dense

def analyzeProgram (stored : BooleanProgram) : Except String ProgramStats := do
  validateProgram stored
  let dense ← denseForm stored
  let live ← livenessPass dense
  let schedule ← schedulePass dense
  let layout ← layoutPass dense live
  pure (statsOf stored dense live schedule layout)

-- the And gates whose longest path of And gates from an input has length `l`
def andsAt (p : BooleanProgram) (l : Nat) : Set Gate :=
  {g | g ∈ p.gates ∧ g.isAnd = true ∧ IsGreatest {k | AndPath p.gates k g.out} l}

def readers (p : BooleanProgram) (w : UInt32) : Nat := (p.gates.flatMap Gate.reads).count w

-- the marking walk takes wire 0 for the operand of a constant
inductive Reached (p : BooleanProgram) : UInt32 → Prop
  | output {w : UInt32} (hw : w ∈ p.outputs) : Reached p w
  | operand {g : Gate} {w : UInt32} (hg : g ∈ p.gates) (hout : Reached p g.out)
      (hw : w ∈ g.reads ∨ g.isConst = true ∧ w = 0) : Reached p w

def reachedGates (p : BooleanProgram) : Set Gate := {g | g ∈ p.gates ∧ Reached p g.out}

def neededGates (p : BooleanProgram) : Set Gate := {g | g ∈ p.gates ∧ Needed p g.out}

def countedWires (p : BooleanProgram) : Set UInt32 :=
  {w | Needed p w ∨ w = 0 ∧ ∃ g ∈ neededGates p, g.isConst = true}

structure StatsExact (stored dense : BooleanProgram) (s : ProgramStats) : Prop where
  wire_reuse : s.wireReuse = stored.wireReuse
  num_inputs : s.numInputs.toNat = stored.numInputs.toNat
  num_outputs : s.numOutputs = UInt64.ofNat stored.outputs.length
  stored_num_wires : s.storedNumWires.toNat = stored.numWires.toNat
  stored_digest : s.storedProgramDigest = digestProgram stored
  dense_digest : s.denseProgramDigest = digestProgram dense
  num_wires : s.denseNumWires.toNat = dense.numInputs.toNat + dense.gates.length
  num_gates : s.numGates.toNat = dense.gates.length
  num_and : s.numAnd.toNat = dense.gates.countP Gate.isAnd
  num_xor : s.numXor.toNat = dense.gates.countP Gate.isXor
  num_not : s.numNot.toNat = dense.gates.countP Gate.isNot
  num_const : s.numConst.toNat = dense.gates.countP Gate.isConst
  and_depth : IsGreatest {k | ∃ w, AndPath dense.gates k w} s.andDepth.toNat
  fewest_rounds : ∀ rounds, RoundPlan dense rounds → s.andDepth.toNat ≤ rounds
  max_and_per_level : IsGreatest (Set.range fun l => (andsAt dense l).ncard) s.maxAndPerLevel.toNat
  max_fanout : IsGreatest (Set.range (readers dense)) s.maxFanout.toNat
  peak_live : s.peakLiveWires.toNat = max (liveWires dense 0).card
    ((Finset.range dense.gates.length).sup fun k => (liveWires dense k).card + 1)
  reachable_gates : s.reachableGates.toNat = (reachedGates dense).ncard
  reachable_and : s.reachableAnd.toNat = {g | g ∈ reachedGates dense ∧ g.isAnd = true}.ncard
  reachable_wires : s.reachableWires.toNat = {w | Reached dense w}.ncard
  reached_gates : 0 < dense.numInputs → reachedGates dense = neededGates dense
  reached_wires : 0 < dense.numInputs → {w | Reached dense w} = countedWires dense

theorem toNat_ofNat64 {n : Nat} (hn : n < 2 ^ 64) : (UInt64.ofNat n).toNat = n :=
  UInt64.toNat_ofNat_of_lt' hn

theorem numGate_foldl (gs : List Gate) (s : CountStats) :
    (gs.foldl countGate s).numGate = s.numGate := by
  induction gs generalizing s with
  | nil => rfl
  | cons g gs ih =>
    rw [List.foldl_cons, ih]
    rcases g with ⟨in0, in1, out, op⟩
    cases op <;> rfl

section Largest

theorem foldl_max_spec (xs : List UInt64) (a : UInt64) :
    a.toNat ≤ (xs.foldl max a).toNat ∧ (∀ x ∈ xs, x.toNat ≤ (xs.foldl max a).toNat) ∧
      (xs.foldl max a = a ∨ xs.foldl max a ∈ xs) := by
  induction xs generalizing a with
  | nil => exact ⟨Nat.le_refl _, fun x hx => absurd hx List.not_mem_nil, Or.inl rfl⟩
  | cons x xs ih =>
    obtain ⟨hstart, hall, hfrom⟩ := ih (max a x)
    have hmax : (max a x).toNat = max a.toNat x.toNat := UInt64.toNat_max a x
    rw [List.foldl_cons]
    refine ⟨by omega, fun y hy => ?_, ?_⟩
    · rcases List.mem_cons.mp hy with rfl | hy
      · omega
      · exact hall y hy
    · rcases hfrom with heq | hmem
      · rcases Nat.le_total a.toNat x.toNat with hle | hle
        · refine Or.inr (List.mem_cons.mpr (Or.inl (heq.trans (UInt64.toNat_inj.mp ?_))))
          rw [hmax, Nat.max_eq_right hle]
        · refine Or.inl (heq.trans (UInt64.toNat_inj.mp ?_))
          rw [hmax, Nat.max_eq_left hle]
      · exact Or.inr (List.mem_cons_of_mem x hmem)

theorem largest_greatest {ι : Type} [Inhabited ι] {f : ι → UInt64} {size : ι → Nat} {ids : List ι}
    (hf : ∀ i, (f i).toNat = size i) (hout : ∀ i, i ∉ ids → size i = 0) :
    IsGreatest (Set.range size) (largest (ids.map f)).toNat := by
  obtain ⟨-, hall, hfrom⟩ := foldl_max_spec (ids.map f) 0
  have hle (i : ι) : size i ≤ (largest (ids.map f)).toNat := by
    by_cases hi : i ∈ ids
    · rw [← hf]
      exact hall _ (List.mem_map_of_mem hi)
    · rw [hout i hi]
      exact Nat.zero_le _
  refine ⟨?_, ?_⟩
  · rcases hfrom with hzero | hmem
    · refine ⟨default, Nat.le_antisymm (hle default) ?_⟩
      rw [largest, hzero]
      exact Nat.zero_le _
    · obtain ⟨i, -, hi⟩ := List.mem_map.mp hmem
      exact ⟨i, by rw [← hf, hi]; rfl⟩
  · rintro _ ⟨i, rfl⟩
    exact hle i

end Largest

section Fanout

theorem update_count (fanout : UInt32 → UInt64) (v w : UInt32) :
    Function.update fanout v (fanout v + 1) w = fanout w + UInt64.ofNat ([v].count w) := by
  rw [Function.update_apply, List.count_singleton]
  by_cases h : w = v
  · rw [if_pos h, h, beq_self_eq_true, if_pos rfl]
    rfl
  · have hne : (v == w) = false := beq_false_of_ne (Ne.symm h)
    rw [if_neg h, hne, if_neg Bool.false_ne_true]
    exact (UInt64.add_zero _).symm

theorem fanoutGate_eq (fanout : UInt32 → UInt64) (g : Gate) (w : UInt32) :
    fanoutGate fanout g w = fanout w + UInt64.ofNat (g.reads.count w) := by
  rcases g with ⟨in0, in1, out, op⟩
  cases op with
  | const0 | const1 => exact (UInt64.add_zero _).symm
  | not => exact update_count fanout in0 w
  | and | xor =>
    have hreads : [in0, in1].count w = [in0].count w + [in1].count w :=
      @List.count_append _ _ w [in0] [in1]
    refine (update_count _ in1 w).trans ?_
    rw [update_count, UInt64.add_assoc, ← UInt64.ofNat_add, ← hreads]
    rfl

theorem fanouts_eq (gs : List Gate) (w : UInt32) :
    fanouts gs w = UInt64.ofNat ((gs.flatMap Gate.reads).count w) := by
  have acc (fanout : UInt32 → UInt64) : gs.foldl fanoutGate fanout w =
      fanout w + UInt64.ofNat ((gs.flatMap Gate.reads).count w) := by
    induction gs generalizing fanout with
    | nil => exact (UInt64.add_zero _).symm
    | cons g gs ih =>
      rw [List.foldl_cons, ih, fanoutGate_eq, List.flatMap_cons, List.count_append,
        UInt64.ofNat_add, UInt64.add_assoc]
  rw [fanouts, acc]
  exact UInt64.zero_add _

theorem length_reads_le (g : Gate) : g.reads.length ≤ 2 := by
  rcases g with ⟨in0, in1, out, op⟩
  cases op <;> simp [Gate.reads]

theorem readers_le (p : BooleanProgram) (w : UInt32) : readers p w ≤ 2 * p.gates.length := by
  rw [readers]
  refine Nat.le_trans List.count_le_length ?_
  induction p.gates with
  | nil => exact Nat.zero_le _
  | cons g gs ih =>
    have := length_reads_le g
    rw [List.flatMap_cons, List.length_append, List.length_cons]
    omega

end Fanout

section Dense

variable {p : BooleanProgram} {live : LivenessStats} (hv : Valid p) (hd : p.wireReuse = .none)

include hv hd

theorem longest_iff {w : UInt32} {l : Nat} :
    IsGreatest {k | AndPath p.gates k w} l ↔ p.level w = l := by
  have hlevel : IsGreatest {k | AndPath p.gates k w} (p.level w) :=
    ⟨level_path p w, fun k path => andPath_le (hv.level_solves hd) path⟩
  exact ⟨fun h => hlevel.unique h, fun h => h ▸ hlevel⟩

theorem length_andGatesAt (l : Nat) :
    (andGatesAt p (fun w => (p.level w : Int)) l).length = (andsAt p l).ncard := by
  have hgates : (List.range p.gates.length).map (fun gi => p.gates.getD gi {}) = p.gates := by
    refine List.ext_getElem (by simp) fun i h _ => ?_
    have hi : i < p.gates.length := by simpa using h
    simp [hi]
  have hset : andsAt p l = {g | g ∈ p.gates ∧ (g.isAnd && (p.level g.out : Int) = l) = true} := by
    ext g
    simp only [andsAt, Set.mem_ofPred_eq, longest_iff hv hd, Bool.and_eq_true, decide_eq_true_iff,
      Int.ofNat_inj]
  rw [hset, ncard_eq_countP (gates_nodup hv hd), andGatesAt, ← List.countP_eq_length_filter]
  conv_rhs => rw [← hgates, List.countP_map]
  rfl

theorem gates_lt : p.numInputs.toNat + p.gates.length < 2 ^ 32 := by
  have hcount := hv.dense_count hd
  have hle := UInt32.le_iff_toNat_le.mp hv.inputs_le
  have hlt := p.numWires.toNat_lt
  omega

theorem andsAt_le (l : Nat) : (andsAt p l).ncard ≤ p.gates.length := by
  rw [← length_andGatesAt hv hd, andGatesAt]
  exact Nat.le_trans (List.length_filter_le _ _) (by rw [List.length_range])

theorem andsAt_empty {l : Nat} (hl : p.andDepth < l) : (andsAt p l).ncard = 0 := by
  rw [← length_andGatesAt hv hd, List.length_eq_zero_iff]
  by_contra hne
  have := (andGatesAt_ne_nil hv hd l).mp hne
  omega

omit hd in
theorem closure_reached (hl : Liveness p live) (w : UInt32) :
    Closure (producerOperands p live) p.outputs w ↔ Reached p w := by
  have hvisit {g : Gate} (hg : g ∈ p.gates) (v : UInt32) :
      v ∈ visitedOperands g ↔ v ∈ g.reads ∨ g.isConst = true ∧ v = 0 := by
    cases hc : g.isConst with
    | false => simp [visitedOperands_of_not_const hc]
    | true => simp [visitedOperands_of_const (hv.canonical g hg) hc, Gate.reads_of_const hc]
  constructor
  · intro hw
    induction hw with
    | root hw => exact .output hw
    | step _ hw ih =>
      obtain ⟨g, hg, rfl, hmem⟩ := hl.mem_producerOperands.mp hw
      exact .operand hg ih ((hvisit hg _).mp hmem)
  · intro hw
    induction hw with
    | output hw => exact .root hw
    | operand hg _ hw ih =>
      exact .step ih (hl.mem_producerOperands.mpr ⟨_, hg, rfl, (hvisit hg _).mpr hw⟩)

omit hd in
theorem reached_counted (hin : 0 < p.numInputs) (w : UInt32) :
    Reached p w ↔ w ∈ countedWires p := by
  have hout {g : Gate} (hg : g ∈ p.gates) : g.out ≠ 0 := by
    intro hzero
    have hle := (hv.range g hg).1
    rw [hzero] at hle
    exact absurd hin (UInt32.not_lt.mpr hle)
  constructor
  · intro hw
    induction hw with
    | output hw => exact Or.inl (.output hw)
    | operand hg _ hw ih =>
      have hneed : Needed p _ := ih.resolve_right fun h => hout hg h.1
      rcases hw with hread | ⟨hc, rfl⟩
      · exact Or.inl (.operand hg hneed hread)
      · exact Or.inr ⟨rfl, _, ⟨hg, hneed⟩, hc⟩
  · have needed {v : UInt32} (hneed : Needed p v) : Reached p v := by
      induction hneed with
      | output hw => exact .output hw
      | operand hg _ hw ih => exact .operand hg ih (Or.inl hw)
    rintro (hneed | ⟨rfl, g, ⟨hg, hneed⟩, hc⟩)
    · exact needed hneed
    · exact .operand hg (needed hneed) (Or.inr ⟨hc, rfl⟩)

omit hd in
theorem reachedGates_eq (hin : 0 < p.numInputs) : reachedGates p = neededGates p := by
  ext g
  refine and_congr_right fun hg => (reached_counted hv hin g.out).trans ?_
  refine ⟨fun h => h.resolve_right fun hzero => ?_, Or.inl⟩
  have hle := (hv.range g hg).1
  rw [hzero.1] at hle
  exact absurd hin (UInt32.not_lt.mpr hle)

theorem reachPass_gates (hl : Liveness p live) (P : Gate → Bool) :
    p.gates.countP (fun g => reachPass p live g.out && P g) =
      {g | g ∈ reachedGates p ∧ P g = true}.ncard := by
  have hset : {g | g ∈ reachedGates p ∧ P g = true} =
      {g | g ∈ p.gates ∧ (reachPass p live g.out && P g) = true} := by
    ext g
    simp only [reachedGates, Set.mem_ofPred_eq, Bool.and_eq_true, and_assoc]
    exact and_congr_right fun hg => and_congr_left fun _ =>
      ((reachPass_iff hv hl g.out).trans (closure_reached hv hl g.out)).symm
  rw [hset, ncard_eq_countP (gates_nodup hv hd)]

omit hd in
theorem reachPass_wires (hl : Liveness p live) :
    (UInt64.ofNat ((wireIds p.numWires).countP (reachPass p live))).toNat =
      {w | Reached p w}.ncard := by
  have hlen : (wireIds p.numWires).length = p.numWires.toNat := by simp [wireIds]
  have hle : (wireIds p.numWires).countP (reachPass p live) ≤ (wireIds p.numWires).length :=
    List.countP_le_length
  have hclosure : {w | Closure (producerOperands p live) p.outputs w} = {w | Reached p w} :=
    Set.ext (closure_reached hv hl)
  have hlt := p.numWires.toNat_lt
  rw [toNat_ofNat64 (by omega), countP_reachPass hv hl, hclosure]

theorem countPass_exact : (countPass p).numGate = p.gates.length ∧
    (countPass p).numAnd = p.gates.countP Gate.isAnd ∧
    (countPass p).numXor = p.gates.countP Gate.isXor ∧
    (countPass p).numNot = p.gates.countP Gate.isNot ∧
    (countPass p).numConst = p.gates.countP Gate.isConst := by
  obtain ⟨hand, hxor, hnot, hconst⟩ := foldl_countGate p.gates
    { numWire := p.numWires.toNat
      numGate := p.numGate.toNat
      numInputBits := p.totalInputBits.toNat
      numOutputBits := p.totalOutputBits.toNat }
  refine ⟨(numGate_foldl p.gates _).trans (hv.numGate_toNat hd), ?_, ?_, ?_, ?_⟩
  · exact hand.trans (Nat.zero_add _)
  · exact hxor.trans (Nat.zero_add _)
  · exact hnot.trans (Nat.zero_add _)
  · exact hconst.trans (Nat.zero_add _)

theorem andsPerLevel_greatest {s : ScheduleStats} (hs : schedulePass p = .ok s) :
    IsGreatest (Set.range fun l => (andsAt p l).ncard) (largest (andsPerLevel s.levels)).toNat := by
  have hroom := gates_lt hv hd
  obtain ⟨-, rfl⟩ := (schedulePass_ok hv hd).mp hs
  have hbuckets := (schedulePass_optimal hv hd hs).buckets
  refine largest_greatest (fun l => ?_) fun l hl => ?_
  · have hsize := andsAt_le hv hd l
    rw [hbuckets, length_andGatesAt hv hd]
    exact toNat_ofNat64 (by omega)
  · rw [List.mem_range] at hl
    refine andsAt_empty hv hd (Nat.lt_of_lt_of_le (Nat.lt_succ_self _) (Nat.not_lt.mp hl))

theorem fanout_greatest : IsGreatest (Set.range (readers p))
    (largest ((wireIds p.numWires).map (fanouts p.gates))).toNat := by
  have hroom := gates_lt hv hd
  refine largest_greatest (fun w => ?_) fun w hw => ?_
  · have hsize := readers_le p w
    rw [fanouts_eq]
    exact toNat_ofNat64 (n := readers p w) (by omega)
  · rw [mem_wireIds] at hw
    refine List.count_eq_zero.mpr fun hread => hw ?_
    obtain ⟨g, hg, hread⟩ := List.mem_flatMap.mp hread
    exact hv.reads_lt hg hread

theorem statsOf_exact (stored : BooleanProgram) (hl : Liveness p live) {schedule : ScheduleStats}
    (hs : schedulePass p = .ok schedule) {layout : LayoutStats}
    (hlayout : layoutPass p live = .ok layout) :
    StatsExact stored p (statsOf stored p live schedule layout) := by
  have hroom := gates_lt hv hd
  have hcountP (P : Gate → Bool) : (UInt64.ofNat (p.gates.countP P)).toNat = p.gates.countP P := by
    have hle : p.gates.countP P ≤ p.gates.length := List.countP_le_length
    exact toNat_ofNat64 (by omega)
  have hwires : p.numWires.toNat = p.numInputs.toNat + p.gates.length := by
    have hcount := hv.dense_count hd
    have hle := UInt32.le_iff_toNat_le.mp hv.inputs_le
    omega
  obtain ⟨hgates, hand, hxor, hnot, hconst⟩ := countPass_exact hv hd
  have hdepth : (statsOf stored p live schedule layout).andDepth.toNat = p.andDepth := by
    obtain ⟨hlt, rfl⟩ := (schedulePass_ok hv hd).mp hs
    exact toNat_ofNat64 (Nat.lt_trans hlt (by decide))
  have hwidth := andsPerLevel_greatest hv hd hs
  rw [layoutPass_eq hv hd] at hlayout
  cases hlayout
  refine
    { wire_reuse := rfl
      num_inputs := rfl
      num_outputs := rfl
      stored_num_wires := rfl
      stored_digest := rfl
      dense_digest := rfl
      num_wires := hwires
      num_gates := ?_
      num_and := ?_
      num_xor := ?_
      num_not := ?_
      num_const := ?_
      and_depth := hdepth ▸ andDepth_greatest hv hd
      fewest_rounds := fun _ plan => hdepth ▸ andDepth_le_rounds hv hd plan
      max_and_per_level := hwidth
      max_fanout := fanout_greatest hv hd
      peak_live := (counterAt_spec hv hd hl (Nat.le_refl _)).2
      reachable_gates := ?_
      reachable_and := (hcountP _).trans (reachPass_gates hv hd hl Gate.isAnd)
      reachable_wires := reachPass_wires hv hl
      reached_gates := reachedGates_eq hv
      reached_wires := fun hin => Set.ext (reached_counted hv hin) }
  · change (UInt64.ofNat (countPass p).numGate).toNat = _
    rw [hgates]
    exact toNat_ofNat64 (by omega)
  · change (UInt64.ofNat (countPass p).numAnd).toNat = _
    rw [hand, hcountP]
  · change (UInt64.ofNat (countPass p).numXor).toNat = _
    rw [hxor, hcountP]
  · change (UInt64.ofNat (countPass p).numNot).toNat = _
    rw [hnot, hcountP]
  · change (UInt64.ofNat (countPass p).numConst).toNat = _
    rw [hconst, hcountP]
  · have hreached := reachPass_gates hv hd hl fun _ => true
    simp only [Bool.and_true, and_true] at hreached
    exact (hcountP _).trans hreached

end Dense

theorem denseForm_spec {stored : BooleanProgram} (hv : Valid stored)
    (hroom : stored.wireReuse ≠ .none →
      stored.numInputs.toNat + stored.gates.length < 2 ^ 32) :
    ∃ dense, denseForm stored = .ok dense ∧ Valid dense ∧ dense.wireReuse = .none ∧
      ∀ {m : Type → Type} [Monad m] [LawfulMonad m] {Wire : Type} [Inhabited Wire]
        (ctx : BooleanContext m Wire) (inputs : List Wire),
        executeProgram ctx dense inputs = executeProgram ctx stored inputs := by
  rw [denseForm]
  split
  case isTrue hmode =>
    obtain ⟨dense, hdense, hvalid, hnone, -, -, -, hrun⟩ := uncompact_spec hv (hroom hmode)
    exact ⟨dense, hdense, hvalid, hnone, hrun⟩
  case isFalse hmode => exact ⟨stored, rfl, hv, not_not.mp hmode, fun _ _ => rfl⟩

theorem analyzeProgram_ok {stored dense : BooleanProgram} (hv : validateProgram stored = .ok ())
    (hdense : denseForm stored = .ok dense) {s : ProgramStats} :
    analyzeProgram stored = .ok s ↔ ∃ live, livenessPass dense = .ok live ∧
      ∃ schedule, schedulePass dense = .ok schedule ∧
        ∃ layout, layoutPass dense live = .ok layout ∧
          statsOf stored dense live schedule layout = s := by
  simp only [analyzeProgram, hv, hdense, bind_eq_ok, pure_eq_ok, true_and, Except.ok.injEq,
    exists_eq_left', exists_const]

theorem analyze_program_exact {stored : BooleanProgram} (hv : validateProgram stored = .ok ())
    (hroom : stored.wireReuse ≠ .none →
      stored.numInputs.toNat + stored.gates.length < 2 ^ 32) :
    ∃ dense, denseForm stored = .ok dense ∧
      (∀ {m : Type → Type} [Monad m] [LawfulMonad m] {Wire : Type} [Inhabited Wire]
        (ctx : BooleanContext m Wire) (inputs : List Wire),
        executeProgram ctx dense inputs = executeProgram ctx stored inputs) ∧
      ((∃ s, analyzeProgram stored = .ok s) ↔ AndDepthBelow dense (2 ^ 31 - 1)) ∧
      ∀ s, analyzeProgram stored = .ok s → StatsExact stored dense s := by
  obtain ⟨dense, hdense, hvd, hmode, hrun⟩ := denseForm_spec (validateProgram_ok_iff.mp hv) hroom
  refine ⟨dense, hdense, hrun, ?_, fun s hs => ?_⟩
  · obtain ⟨live, hlive, -⟩ := livenessPass_liveness hvd hmode
    rw [andDepthBelow_iff hvd hmode]
    constructor
    · rintro ⟨s, hs⟩
      obtain ⟨-, -, schedule, hschedule, -⟩ := (analyzeProgram_ok hv hdense).mp hs
      exact ((schedulePass_ok hvd hmode).mp hschedule).1
    · intro hdepth
      exact ⟨_, (analyzeProgram_ok hv hdense).mpr ⟨live, hlive, _,
        (schedulePass_ok hvd hmode).mpr ⟨hdepth, rfl⟩, _, layoutPass_eq hvd hmode, rfl⟩⟩
  · obtain ⟨live, hlive, schedule, hschedule, layout, hlayout, rfl⟩ :=
      (analyzeProgram_ok hv hdense).mp hs
    obtain ⟨live', hlive', hl⟩ := livenessPass_liveness hvd hmode
    rw [hlive] at hlive'
    cases hlive'
    exact statsOf_exact hvd hmode stored hl hschedule hlayout

theorem analyze_program_exact_denseSample :
    ∃ dense, denseForm denseSample = .ok dense ∧
      (∀ {m : Type → Type} [Monad m] [LawfulMonad m] {Wire : Type} [Inhabited Wire]
        (ctx : BooleanContext m Wire) (inputs : List Wire),
        executeProgram ctx dense inputs = executeProgram ctx denseSample inputs) ∧
      ((∃ s, analyzeProgram denseSample = .ok s) ↔ AndDepthBelow dense (2 ^ 31 - 1)) ∧
      ∀ s, analyzeProgram denseSample = .ok s → StatsExact denseSample dense s :=
  analyze_program_exact (by rfl) fun h => absurd rfl h

def ProgramStats.storedAs (stored : BooleanProgram) (s : ProgramStats) : ProgramStats :=
  { s with
    wireReuse := stored.wireReuse
    storedNumWires := stored.numWires.toUInt64
    storedProgramDigest := digestProgram stored }

theorem length_uncompactGates (gs : List Gate) (cur : UInt32 → UInt32) (next : UInt32) :
    (uncompactGates gs cur next).1.length = gs.length := by
  induction gs generalizing cur next with
  | nil => rfl
  | cons g gs ih => exact congrArg Nat.succ (ih _ _)

structure SameShape (src d : BooleanProgram) : Prop where
  mode : d.wireReuse = .none
  inputs : d.numInputs = src.numInputs
  gates : d.gates.length = src.gates.length
  outputs : d.outputs.length = src.outputs.length

theorem uncompact_ok {src d : BooleanProgram} (h : uncompact src = .ok d) :
    validateProgram src = .ok () ∧ validateProgram d = .ok () ∧ SameShape src d := by
  simp only [uncompact, bind_eq_ok, pure_eq_ok] at h
  obtain ⟨⟨⟩, hsrc, ⟨⟩, hd, rfl⟩ := h
  exact ⟨hsrc, hd, rfl, rfl, length_uncompactGates _ _ _, List.length_map _⟩

theorem analyzeProgram_uncompact {src d : BooleanProgram} (hmode : src.wireReuse ≠ .none)
    (h : uncompact src = .ok d) :
    analyzeProgram src = (analyzeProgram d).map (ProgramStats.storedAs src) := by
  obtain ⟨hsrc, hd, hshape⟩ := uncompact_ok h
  have hdense : denseForm src = .ok d := by rw [denseForm, if_pos hmode, h]
  have hsame : denseForm d = .ok d := by rw [denseForm, if_neg (not_not.mpr hshape.mode)]; rfl
  have hstats (live : LivenessStats) (schedule : ScheduleStats) (layout : LayoutStats) :
      statsOf src d live schedule layout =
        (statsOf d d live schedule layout).storedAs src := by
    rw [statsOf, ← hshape.inputs, ← hshape.outputs]
    rfl
  simp only [analyzeProgram, hsrc, hd, hdense, hsame, bind, Except.bind, hstats]
  cases livenessPass d with
  | error message => rfl
  | ok live =>
    cases schedulePass d with
    | error message => rfl
    | ok schedule =>
      dsimp only
      cases layoutPass d live with
      | error message => rfl
      | ok layout => rfl

theorem analyze_program_stable :
    (∀ p : BooleanProgram, validateProgram p = .ok () → p.wireReuse = .none →
      OutsFrom p.numInputs p.gates → ∀ target : WireReuse, target ≠ .none →
      ∃ r, makeCompact p target = .ok r ∧
        analyzeProgram r.prog = (analyzeProgram p).map (ProgramStats.storedAs r.prog)) ∧
    ∀ src : BooleanProgram, validateProgram src = .ok () → src.wireReuse ≠ .none →
      src.numInputs.toNat + src.gates.length < 2 ^ 32 → ∀ target : WireReuse, target ≠ .none →
      ∃ d r, uncompact src = .ok d ∧ makeCompact d target = .ok r ∧
        analyzeProgram src = (analyzeProgram d).map (ProgramStats.storedAs src) ∧
        analyzeProgram r.prog = (analyzeProgram src).map (ProgramStats.storedAs r.prog) := by
  have compacted {p : BooleanProgram} (hv : Valid p) (hd : p.wireReuse = .none)
      (hnum : OutsFrom p.numInputs p.gates) {target : WireReuse} (ht : target ≠ .none) :
      ∃ r, makeCompact p target = .ok r ∧
        analyzeProgram r.prog = (analyzeProgram p).map (ProgramStats.storedAs r.prog) := by
    obtain ⟨r, hr, hback⟩ := uncompact_makeCompact hv hd hnum ht
    obtain ⟨r', hr', hmode, -⟩ := makeCompact_spec hv hd ht
    rw [hr] at hr'
    cases hr'
    exact ⟨r, hr, analyzeProgram_uncompact (hmode ▸ ht) hback⟩
  refine ⟨fun p hv hd hnum target ht => compacted (validateProgram_ok_iff.mp hv) hd hnum ht,
    fun src hv hmode hroom target ht => ?_⟩
  obtain ⟨d, hd, hvd, hnone, hin, -, houts, -⟩ :=
    uncompact_spec (validateProgram_ok_iff.mp hv) hroom
  obtain ⟨r, hr, hanalysis⟩ := compacted hvd hnone (hin ▸ houts) ht
  have hsrc := analyzeProgram_uncompact hmode hd
  refine ⟨d, r, hd, hr, hsrc, ?_⟩
  rw [hanalysis, hsrc]
  cases analyzeProgram d with
  | error message => rfl
  | ok s => rfl

theorem analyze_program_stable_samples :
    (∃ r, makeCompact denseSample .full = .ok r ∧
      analyzeProgram r.prog = (analyzeProgram denseSample).map (ProgramStats.storedAs r.prog)) ∧
    ∃ d r, uncompact reuseSample = .ok d ∧ makeCompact d .linear = .ok r ∧
      analyzeProgram reuseSample = (analyzeProgram d).map (ProgramStats.storedAs reuseSample) ∧
      analyzeProgram r.prog =
        (analyzeProgram reuseSample).map (ProgramStats.storedAs r.prog) :=
  ⟨analyze_program_stable.1 denseSample (by rfl) rfl (by decide) .full (by decide),
    analyze_program_stable.2 reuseSample (by rfl) (by decide) (by decide) .linear (by decide)⟩

end EmpTool.Ir
