import EmpTool.Ir.Compaction
import EmpTool.Ir.Liveness
import EmpTool.Library.Worklist
import Mathlib.Data.Set.Card

namespace EmpTool.Ir

open StraightLine Worklist

structure LayoutStats where
  frees : Nat → List UInt32
  reachableWire : Nat := 0
  reachableGate : Nat := 0
  reachableAnd : Nat := 0

def visitedOperands (g : Gate) : List UInt32 :=
  g.in0 :: if !g.isNot && !g.isConst then [g.in1] else []

def producerOperands (p : BooleanProgram) (live : LivenessStats) (w : UInt32) : List UInt32 :=
  let pg := live.firstDef w
  if pg < 0 then [] else visitedOperands (p.gates.getD pg.toNat {})

-- every wire is pushed at most once, so the stack is empty after `num_wires` rounds
def reachPass (p : BooleanProgram) (live : LivenessStats) : UInt32 → Bool :=
  flood (producerOperands p live) p.numWires.toNat
    ((p.outputs.filter fun w => w < p.numWires).foldl visit ([], fun _ => false))

def layoutPass (p : BooleanProgram) (live : LivenessStats) : Except String LayoutStats := do
  requireDense p "layout_pass"
  let isOutput := Table.mark (fun _ => false) (p.outputs.filter fun w => w < p.numWires)
  let reach := reachPass p live
  pure { frees := freesTable p live.lastUse isOutput
         reachableWire := (wireIds p.numWires).countP reach
         reachableGate := p.gates.countP fun g => reach g.out
         reachableAnd := p.gates.countP fun g => reach g.out && g.isAnd }

-- the least set with the output wires that is closed under the operands its producers read
inductive Needed (p : BooleanProgram) : UInt32 → Prop
  | output {w : UInt32} (hw : w ∈ p.outputs) : Needed p w
  | operand {g : Gate} {w : UInt32} (hg : g ∈ p.gates) (hout : Needed p g.out)
      (hw : w ∈ g.reads) : Needed p w

structure LayoutExact (p : BooleanProgram) (s : LayoutStats) : Prop where
  wires : s.reachableWire = {w | Needed p w}.ncard
  gates : s.reachableGate = {g | g ∈ p.gates ∧ Needed p g.out}.ncard
  ands : s.reachableAnd = {g | g ∈ p.gates ∧ Needed p g.out ∧ g.isAnd = true}.ncard
  frees_nodup : ∀ k < p.gates.length, (s.frees k).Nodup
  mem_frees : ∀ k < p.gates.length, ∀ w, w ∈ s.frees k ↔ w ∉ p.outputs ∧
    (∃ g, p.gates[k]? = some g ∧ w ∈ g.reads) ∧ ¬ ReadFrom p.gates (k + 1) w

theorem ncard_eq_countP {α : Type} [DecidableEq α] {l : List α} (hl : l.Nodup) (P : α → Bool) :
    {a | a ∈ l ∧ P a = true}.ncard = l.countP P := by
  have hset : {a | a ∈ l ∧ P a = true} = ((l.filter P).toFinset : Set α) := by
    ext a
    simp
  rw [hset, Set.ncard_coe_finset, List.toFinset_card_of_nodup (hl.filter P),
    List.countP_eq_length_filter]

theorem visitedOperands_of_not_const {g : Gate} (h : g.isConst = false) :
    visitedOperands g = g.reads := by
  rcases g with ⟨in0, in1, out, op⟩
  cases op <;> simp_all [visitedOperands, Gate.reads, Gate.isConst, Gate.isNot]

theorem visitedOperands_of_const {g : Gate} (hc : g.Canonical) (h : g.isConst = true) :
    visitedOperands g = [0] := by
  rcases g with ⟨in0, in1, out, op⟩
  cases op <;> simp_all [visitedOperands, Gate.Canonical, Gate.isConst, Gate.isNot]

variable {p : BooleanProgram} {live : LivenessStats}

theorem Liveness.mem_producerOperands (hl : Liveness p live) {u w : UInt32} :
    w ∈ producerOperands p live u ↔ ∃ g ∈ p.gates, g.out = u ∧ w ∈ visitedOperands g := by
  rw [producerOperands]
  constructor
  · intro hw
    split at hw
    case isTrue => exact absurd hw List.not_mem_nil
    case isFalse hpos =>
      obtain ⟨i, hi⟩ := Int.eq_ofNat_of_zero_le (Int.not_lt.mp hpos)
      obtain ⟨g, hg, hout⟩ := Option.map_eq_some_iff.mp ((hl.producer u i).mp hi)
      rw [hi, Int.toNat_natCast, List.getD_eq_getElem?_getD, hg, Option.getD_some] at hw
      exact ⟨g, List.mem_of_getElem? hg, hout, hw⟩
  · rintro ⟨g, hg, hout, hw⟩
    obtain ⟨i, hi⟩ := List.mem_iff_getElem?.mp hg
    have hdef := (hl.producer u i).mpr (by rw [hi, ← hout]; rfl)
    rw [hdef, if_neg (by omega), Int.toNat_natCast, List.getD_eq_getElem?_getD, hi,
      Option.getD_some]
    exact hw

theorem Needed.closure (hl : Liveness p live) {w : UInt32} (h : Needed p w) :
    Closure (producerOperands p live) p.outputs w := by
  induction h with
  | output hw => exact .root hw
  | @operand g w hg _ hw ih =>
    refine .step ih (hl.mem_producerOperands.mpr ⟨g, hg, rfl, ?_⟩)
    cases hc : g.isConst with
    | false => rwa [visitedOperands_of_not_const hc]
    | true =>
      rw [Gate.reads_of_const hc] at hw
      exact absurd hw List.not_mem_nil

section Layout

variable (hv : Valid p)

include hv

theorem visited_lt {g : Gate} (hg : g ∈ p.gates) {w : UInt32} (hw : w ∈ visitedOperands g) :
    w < p.numWires := by
  cases hc : g.isConst with
  | false => exact hv.reads_lt hg (visitedOperands_of_not_const hc ▸ hw)
  | true =>
    -- the dummy operand of a constant is wire 0, and there is one: the constant's own at least
    rw [visitedOperands_of_const (hv.canonical g hg) hc, List.mem_singleton] at hw
    have hout := UInt32.lt_iff_toNat_lt.mp (hv.range g hg).2
    rw [hw, UInt32.lt_iff_toNat_lt, UInt32.toNat_zero]
    omega

theorem reachPass_iff (hl : Liveness p live) (w : UInt32) :
    reachPass p live w = true ↔ Closure (producerOperands p live) p.outputs w := by
  rw [reachPass, hv.filter_outputs]
  refine flood_spec (wireIds p.numWires) (fun u _ w hw => ?_) _ (flooded_start _) ?_ w
  · obtain ⟨g, hg, -, hw⟩ := hl.mem_producerOperands.mp hw
    exact mem_wireIds.mpr (visited_lt hv hg hw)
  · have hroom := foldl_visit_room (wireIds p.numWires) p.outputs
      (fun w hw => mem_wireIds.mpr (hv.defined_lt (hv.outputs_defined w hw))) ([], fun _ => false)
    have hlen : (wireIds p.numWires).length = p.numWires.toNat := by simp [wireIds]
    simp only [List.length_nil, Bool.not_false, List.countP_true, hlen, Nat.zero_add] at hroom
    exact hroom

theorem Needed.lt {w : UInt32} (h : Needed p w) : w < p.numWires := by
  cases h with
  | output hw => exact hv.defined_lt (hv.outputs_defined _ hw)
  | operand hg _ hw => exact hv.reads_lt hg hw

theorem closure_needed (hl : Liveness p live)
    (h : Needed p 0 ∨ ∀ g ∈ p.gates, g.isConst = true → ¬ Needed p g.out) {w : UInt32}
    (hw : Closure (producerOperands p live) p.outputs w) : Needed p w := by
  induction hw with
  | root hw => exact .output hw
  | step _ hw ih =>
    obtain ⟨g, hg, rfl, hvisit⟩ := hl.mem_producerOperands.mp hw
    cases hc : g.isConst with
    | false => exact .operand hg ih (visitedOperands_of_not_const hc ▸ hvisit)
    | true =>
      rw [visitedOperands_of_const (hv.canonical g hg) hc, List.mem_singleton] at hvisit
      rw [hvisit]
      exact h.resolve_right fun hno => hno g hg hc ih

theorem layout_frees (hl : Liveness p live) {isOutput : UInt32 → Bool}
    (hout : ∀ w, isOutput w = true ↔ w ∈ p.outputs) (k : Nat) (hk : k < p.gates.length)
    (w : UInt32) : w ∈ freesTable p live.lastUse isOutput k ↔ w ∉ p.outputs ∧
      (∃ g, p.gates[k]? = some g ∧ w ∈ g.reads) ∧ ¬ ReadFrom p.gates (k + 1) w := by
  have hget := List.getElem?_eq_getElem hk
  have hlast : live.lastUse w = k ↔
      (∃ g, p.gates[k]? = some g ∧ w ∈ g.reads) ∧ ¬ ReadFrom p.gates (k + 1) w := by
    rw [hl.last_use_eq, readFrom_succ hget, hget]
    simp only [Option.some.injEq, exists_eq_left']
    tauto
  rw [← hlast, ← hout, Bool.not_eq_true, mem_freesTable]
  refine ⟨fun h => ⟨h.2.2, h.2.1⟩, fun h => ⟨?_, h.2, h.1⟩⟩
  obtain ⟨⟨g, hg, hw⟩, -⟩ := hlast.mp h.2
  exact hv.reads_lt (List.mem_of_getElem? hg) hw

theorem closure_lt (hl : Liveness p live) {w : UInt32}
    (hw : Closure (producerOperands p live) p.outputs w) : w < p.numWires := by
  cases hw with
  | root hw => exact hv.defined_lt (hv.outputs_defined _ hw)
  | step _ hw =>
    obtain ⟨g, hg, -, hw⟩ := hl.mem_producerOperands.mp hw
    exact visited_lt hv hg hw

theorem countP_reachPass (hl : Liveness p live) : (wireIds p.numWires).countP (reachPass p live) =
    {w | Closure (producerOperands p live) p.outputs w}.ncard := by
  rw [← ncard_eq_countP (nodup_wireIds p.numWires)]
  congr 1
  ext w
  rw [Set.mem_ofPred_eq, Set.mem_ofPred_eq, reachPass_iff hv hl, mem_wireIds]
  exact ⟨fun h => h.2, fun h => ⟨closure_lt hv hl h, h⟩⟩

theorem overcounted (hl : Liveness p live) (hzero : ¬ Needed p 0) {g : Gate} (hg : g ∈ p.gates)
    (hconst : g.isConst = true) (hneed : Needed p g.out) :
    {w | Needed p w}.ncard < (wireIds p.numWires).countP (reachPass p live) := by
  have hmarked : Closure (producerOperands p live) p.outputs 0 := by
    refine .step (hneed.closure hl) (hl.mem_producerOperands.mpr ⟨g, hg, rfl, ?_⟩)
    rw [visitedOperands_of_const (hv.canonical g hg) hconst]
    exact List.mem_singleton_self 0
  rw [countP_reachPass hv hl]
  refine Set.ncard_lt_ncard
    (Set.ssubset_iff_exists.mpr ⟨fun w hw => hw.closure hl, 0, hmarked, hzero⟩) ?_
  exact (wireIds p.numWires).toFinset.finite_toSet.subset fun w hw => by
    simpa using mem_wireIds.mpr (closure_lt hv hl hw)

theorem layoutPass_eq (hd : p.wireReuse = .none) : layoutPass p live = .ok
    { frees := freesTable p live.lastUse (Table.mark (fun _ => false) p.outputs)
      reachableWire := (wireIds p.numWires).countP (reachPass p live)
      reachableGate := p.gates.countP fun g => reachPass p live g.out
      reachableAnd := p.gates.countP fun g => reachPass p live g.out && g.isAnd } := by
  simp [layoutPass, requireDense, hd, hv.filter_outputs]

theorem gates_nodup (hd : p.wireReuse = .none) : p.gates.Nodup :=
  List.Nodup.of_map Gate.out (Shape.fresh_iff.mp (hv.single hd)).2

theorem layout_pass_exact_iff_of_liveness (hd : p.wireReuse = .none) (hl : Liveness p live) :
    (∃ s, layoutPass p live = .ok s ∧ LayoutExact p s) ↔
      Needed p 0 ∨ ∀ g ∈ p.gates, g.isConst = true → ¬ Needed p g.out := by
  rw [layoutPass_eq hv hd]
  constructor
  · rintro ⟨s, hs, hexact⟩
    have hcount := hexact.wires
    rw [← Except.ok.inj hs] at hcount
    by_cases hzero : Needed p 0
    · exact Or.inl hzero
    · refine Or.inr fun g hg hconst hneed => ?_
      have hless := overcounted hv hl hzero hg hconst hneed
      exact absurd hcount.symm (Nat.ne_of_lt hless)
  · intro h
    have hneed (w : UInt32) : reachPass p live w = true ↔ Needed p w := by
      rw [reachPass_iff hv hl]
      exact ⟨closure_needed hv hl h, fun h => h.closure hl⟩
    have hnodup := gates_nodup hv hd
    refine ⟨_, rfl, ?_, ?_, ?_, ?_, ?_⟩
    · dsimp only
      rw [countP_reachPass hv hl]
      congr 1
      ext w
      exact (reachPass_iff hv hl w).symm.trans (hneed w)
    · dsimp only
      rw [← ncard_eq_countP hnodup]
      simp only [hneed]
    · dsimp only
      rw [← ncard_eq_countP hnodup]
      simp only [hneed, Bool.and_eq_true]
    · intro k _
      exact (freesTable_spec p live.lastUse _ k).1
    · exact layout_frees hv hl fun w => by rw [Table.mark_iff]; simp

end Layout

theorem layout_pass_exact_iff (hv : validateProgram p = .ok ()) (hd : p.wireReuse = .none) :
    (∃ live s, livenessPass p = .ok live ∧ layoutPass p live = .ok s ∧ LayoutExact p s) ↔
      Needed p 0 ∨ ∀ g ∈ p.gates, g.isConst = true → ¬ Needed p g.out := by
  have valid := validateProgram_ok_iff.mp hv
  obtain ⟨live, hlive, hl⟩ := livenessPass_liveness valid hd
  rw [← layout_pass_exact_iff_of_liveness valid hd hl]
  constructor
  · rintro ⟨live', s, hlive', hs⟩
    rw [hlive] at hlive'
    exact ⟨s, Except.ok.inj hlive' ▸ hs⟩
  · rintro ⟨s, hs⟩
    exact ⟨live, s, hlive, hs⟩

theorem layout_pass_exact_iff_denseSample :
    ∃ live s, livenessPass denseSample = .ok live ∧ layoutPass denseSample live = .ok s ∧
      LayoutExact denseSample s :=
  (layout_pass_exact_iff (by rfl) rfl).mpr (Or.inr fun g hg hconst =>
    absurd hconst ((by decide : ∀ g ∈ denseSample.gates, ¬ g.isConst = true) g hg))

def constSample : BooleanProgram where
  numWires := 2
  numInputs := 1
  gates := [⟨0, 0, 1, .const1⟩]
  outputs := [1]

theorem needed_constSample {w : UInt32} (h : Needed constSample w) : w = 1 := by
  cases h with
  | output hw => exact List.mem_singleton.mp hw
  | operand hg _ hw =>
    rw [List.mem_singleton.mp hg] at hw
    exact absurd hw List.not_mem_nil

theorem layout_pass_counts_dummy_operand :
    validateProgram constSample = .ok () ∧ constSample.wireReuse = .none ∧
      ((livenessPass constSample >>= layoutPass constSample).toOption.map
        LayoutStats.reachableWire = some 2) ∧ {w | Needed constSample w}.ncard = 1 := by
  refine ⟨by rfl, rfl, by rfl, ?_⟩
  rw [Set.ncard_eq_one]
  refine ⟨1, Set.eq_singleton_iff_unique_mem.mpr ⟨.output (by decide), fun w hw => ?_⟩⟩
  exact needed_constSample hw

end EmpTool.Ir
