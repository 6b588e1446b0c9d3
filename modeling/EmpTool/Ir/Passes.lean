import EmpTool.Ir.Validate
import EmpTool.Library.Table

namespace EmpTool.Ir

open StraightLine

def requireDense (p : BooleanProgram) (who : String) : Except String Unit :=
  expecting (p.wireReuse = .none) (who ++ ": requires a dense (WireReuse::None) program")

structure CountStats where
  numAnd : Nat := 0
  numXor : Nat := 0
  numNot : Nat := 0
  numConst : Nat := 0
  numInputBits : Nat := 0
  numOutputBits : Nat := 0
  numWire : Nat := 0
  numGate : Nat := 0

def countGate (s : CountStats) (g : Gate) : CountStats :=
  match g.op with
  | .and => { s with numAnd := s.numAnd + 1 }
  | .xor => { s with numXor := s.numXor + 1 }
  | .not => { s with numNot := s.numNot + 1 }
  | .const0 | .const1 => { s with numConst := s.numConst + 1 }

def countPass (p : BooleanProgram) : CountStats :=
  p.gates.foldl countGate
    { numWire := p.numWires.toNat
      numGate := p.numGate.toNat
      numInputBits := p.totalInputBits.toNat
      numOutputBits := p.totalOutputBits.toNat }

structure LivenessStats where
  lastUse : UInt32 → Int
  firstDef : UInt32 → Int

def livenessGate (s : LivenessStats) (gi : Nat) (g : Gate) : LivenessStats :=
  let s := { s with firstDef := Function.update s.firstDef g.out gi }
  if g.isConst then s
  else
    let s := { s with lastUse := Function.update s.lastUse g.in0 gi }
    if g.isNot then s else { s with lastUse := Function.update s.lastUse g.in1 gi }

def livenessGates : Nat → List Gate → LivenessStats → LivenessStats
  | _, [], s => s
  | gi, g :: gs, s => livenessGates (gi + 1) gs (livenessGate s gi g)

def livenessPass (p : BooleanProgram) : Except String LivenessStats := do
  requireDense p "liveness_pass"
  pure (livenessGates 0 (p.gates.take p.numGate.toNat) ⟨fun _ => -1, fun _ => -1⟩)

structure LevelInfo where
  andGateIndices : Int → List Nat
  depth : Int

structure ScheduleStats where
  wireLevel : UInt32 → Int
  levels : LevelInfo

def scheduleLevel (wireLevel : UInt32 → Int) (g : Gate) : Except String Int :=
  match g.op with
  | .const0 | .const1 => pure 0
  | .not => pure (wireLevel g.in0)
  | .xor => pure (max (wireLevel g.in0) (wireLevel g.in1))
  | .and => addInt 1 (max (wireLevel g.in0) (wireLevel g.in1))

def scheduleGates : List Gate → (UInt32 → Int) → Int → Except String ((UInt32 → Int) × Int)
  | [], wireLevel, depth => pure (wireLevel, depth)
  | g :: gs, wireLevel, depth => do
      let lv ← scheduleLevel wireLevel g
      scheduleGates gs (Function.update wireLevel g.out lv) (max depth lv)

def schedulePass (p : BooleanProgram) : Except String ScheduleStats := do
  requireDense p "schedule_pass"
  let (wireLevel, depth) ← scheduleGates (p.gates.take p.numGate.toNat) (fun _ => 0) 0
  let _ ← addInt depth 1
  let level (gi : Nat) : Option Int :=
    let g := p.gates.getD gi {}
    if g.isAnd then some (wireLevel g.out) else none
  pure { wireLevel, levels := { andGateIndices := Table.group level (List.range p.numGate.toNat)
                                depth } }

theorem foldl_countGate (gs : List Gate) (s : CountStats) :
    (gs.foldl countGate s).numAnd = s.numAnd + gs.countP Gate.isAnd ∧
    (gs.foldl countGate s).numXor = s.numXor + gs.countP Gate.isXor ∧
    (gs.foldl countGate s).numNot = s.numNot + gs.countP Gate.isNot ∧
    (gs.foldl countGate s).numConst = s.numConst + gs.countP Gate.isConst := by
  induction gs generalizing s with
  | nil => simp
  | cons g gs ih =>
    obtain ⟨ha, hx, hn, hc⟩ := ih (countGate s g)
    rw [List.foldl_cons, ha, hx, hn, hc]
    rcases g with ⟨in0, in1, out, op⟩
    cases op <;>
      simp [countGate, Gate.isAnd, Gate.isXor, Gate.isNot, Gate.isConst, Nat.add_right_comm,
        Nat.add_assoc]

theorem livenessGate_lastUse (s : LivenessStats) (gi : Nat) (g : Gate) (w : UInt32) :
    (livenessGate s gi g).lastUse w = if w ∈ g.reads then (gi : Int) else s.lastUse w := by
  rcases g with ⟨in0, in1, out, op⟩
  cases op with
  | const0 | const1 => simp [livenessGate, Gate.isConst, Gate.reads]
  | not => simp [livenessGate, Gate.isConst, Gate.isNot, Gate.reads, Function.update_apply]
  | and | xor =>
    by_cases h1 : w = in1
    · simp [livenessGate, Gate.isConst, Gate.isNot, Gate.reads, h1]
    · simp [livenessGate, Gate.isConst, Gate.isNot, Gate.reads, Function.update_apply, h1]

theorem livenessGates_lastUse (gs : List Gate) (k : Nat) (s : LivenessStats) (w : UInt32) :
    (livenessGates k gs s).lastUse w = s.lastUse w ∨
      (k : Int) ≤ (livenessGates k gs s).lastUse w := by
  induction gs generalizing k s with
  | nil => exact Or.inl rfl
  | cons g gs ih =>
    rw [livenessGates]
    rcases ih (k + 1) (livenessGate s k g) with h | h
    · rw [livenessGate_lastUse] at h
      split at h
      · right; omega
      · exact Or.inl h
    · right; omega

def LastUse (lastUse : UInt32 → Int) : Nat → List Gate → Prop
  | _, [] => True
  | k, g :: gs => (∀ w ∈ g.reads, (k : Int) ≤ lastUse w) ∧ (∀ w, lastUse w = k → w ∈ g.reads) ∧
      LastUse lastUse (k + 1) gs

theorem livenessGates_spec (gs : List Gate) (k : Nat) (s : LivenessStats)
    (h : ∀ w, s.lastUse w < k) : LastUse (livenessGates k gs s).lastUse k gs := by
  induction gs generalizing k s with
  | nil => trivial
  | cons g gs ih =>
    rw [livenessGates]
    have later := livenessGates_lastUse gs (k + 1) (livenessGate s k g)
    refine ⟨fun w hw => ?_, fun w hw => ?_, ih (k + 1) _ fun w => ?_⟩
    · rcases later w with hl | hl
      · rw [hl, livenessGate_lastUse, if_pos hw]
      · omega
    · by_contra hn
      rcases later w with hl | hl
      · rw [livenessGate_lastUse, if_neg hn] at hl
        have := h w
        omega
      · omega
    · rw [livenessGate_lastUse]
      have := h w
      split <;> omega

theorem Valid.take_numGate {p : BooleanProgram} (hv : Valid p) (hd : p.wireReuse = .none) :
    p.gates.take p.numGate.toNat = p.gates := by
  have hc := hv.dense_count hd
  have hlt := p.numWires.toNat_lt
  have hn : p.numGate.toNat = p.gates.length := by
    rw [BooleanProgram.numGate, UInt32.toNat_ofNat']
    exact Nat.mod_eq_of_lt (by omega)
  rw [hn, List.take_length]

theorem livenessPass_eq {p : BooleanProgram} (hv : Valid p) (hd : p.wireReuse = .none) :
    livenessPass p = .ok (livenessGates 0 p.gates ⟨fun _ => -1, fun _ => -1⟩) := by
  simp [livenessPass, requireDense, hd, hv.take_numGate hd]

theorem livenessPass_spec {p : BooleanProgram} (hv : Valid p) (hd : p.wireReuse = .none) :
    ∃ live, livenessPass p = .ok live ∧ LastUse live.lastUse 0 p.gates :=
  ⟨_, livenessPass_eq hv hd, livenessGates_spec p.gates 0 _ (by simp)⟩

end EmpTool.Ir
