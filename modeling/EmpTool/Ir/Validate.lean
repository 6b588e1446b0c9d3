import EmpTool.Ir.Program
import EmpTool.Runtime.Error

namespace EmpTool.Ir

open StraightLine

def place (gi : Nat) (w : UInt32) : String :=
  " (gate " ++ toString gi ++ ", wire " ++ toString w ++ ")"

def validateGateOperands (g : Gate) (gi : Nat) : Except String Unit :=
  match g.op with
  | .and | .xor | .not =>
      expecting (g.op ≠ .not ∨ g.in1 = 0)
        ("validate_program: Not gate has non-canonical in1 (must be 0)" ++ place gi g.in1)
  | .const0 | .const1 =>
      expecting (g.in0 = 0 ∧ g.in1 = 0)
        ("validate_program: const gate has non-canonical operands (must be 0)" ++ place gi g.out)

-- the dense branch marks "defined" wires and the reuse branch "written" ones
def markWord (p : BooleanProgram) : String :=
  if p.wireReuse = .none then "defined" else "written"

def isMarked (p : BooleanProgram) (marked : UInt32 → Bool) (w : UInt32) : Prop :=
  w < p.numInputs ∨ marked (w - p.numInputs) = true

instance (p : BooleanProgram) (marked : UInt32 → Bool) (w : UInt32) :
    Decidable (isMarked p marked w) := inferInstanceAs (Decidable (_ ∨ _))

def chkRead (p : BooleanProgram) (marked : UInt32 → Bool) (gi : Nat) (w : UInt32)
    (what : String) : Except String Unit := do
  expecting (w < p.numWires)
    ("validate_program: " ++ what ++ " index out of range" ++ place gi w)
  expecting (isMarked p marked w)
    ("validate_program: " ++ what ++ " read before " ++ markWord p ++ place gi w)

def chkOperands (p : BooleanProgram) (marked : UInt32 → Bool) (gi : Nat) (g : Gate) :
    Except String Unit :=
  if g.op = .and ∨ g.op = .xor then do
    chkRead p marked gi g.in0 "gate in0"
    chkRead p marked gi g.in1 "gate in1"
  else if g.op = .not then chkRead p marked gi g.in0 "gate in0"
  else pure ()

def validateGate (p : BooleanProgram) (marked : UInt32 → Bool) (gi : Nat) (g : Gate) :
    Except String (UInt32 → Bool) := do
  validateGateOperands g gi
  chkOperands p marked gi g
  expecting (g.out < p.numWires) "validate_program: gate out index out of range"
  expecting (p.numInputs ≤ g.out) "validate_program: gate writes an input wire"
  expecting (p.wireReuse ≠ .none ∨ marked (g.out - p.numInputs) = false)
    "validate_program: wire defined more than once"
  pure (Function.update marked (g.out - p.numInputs) true)

def validateGates (p : BooleanProgram) : (UInt32 → Bool) → Nat → List Gate →
    Except String (UInt32 → Bool)
  | marked, _, [] => pure marked
  | marked, gi, g :: gs => do
      let marked ← validateGate p marked gi g
      validateGates p marked (gi + 1) gs

def validateOutputs (p : BooleanProgram) (marked : UInt32 → Bool) :
    List UInt32 → Except String Unit
  | [] => pure ()
  | w :: ws => do
      expecting (w < p.numWires) "validate_program: output index out of range"
      expecting (isMarked p marked w) ("validate_program: output wire never " ++ markWord p)
      validateOutputs p marked ws

def validateCount (p : BooleanProgram) : Except String Unit :=
  if p.wireReuse ≠ .none then
    expecting (p.numWires.toNat ≤ p.numInputs.toNat + p.gates.length)
      "validate_program: reuse program num_wires exceeds num_inputs + num_gates"
  else
    expecting (p.gates.length = p.numWires.toNat - p.numInputs.toNat)
      "validate_program: num_wires must equal num_inputs + num_gates (dense program)"

def validateProgram (p : BooleanProgram) : Except String Unit := do
  expecting (p.numInputs ≤ p.numWires) "validate_program: num_inputs exceeds num_wires"
  validateCount p
  let marked ← validateGates p (fun _ => false) 0 p.gates
  validateOutputs p marked p.outputs

structure Valid (p : BooleanProgram) : Prop where
  inputs_le : p.numInputs ≤ p.numWires
  dense_count : p.wireReuse = .none → p.gates.length = p.numWires.toNat - p.numInputs.toNat
  reuse_count : p.wireReuse ≠ .none → p.numWires.toNat ≤ p.numInputs.toNat + p.gates.length
  canonical : ∀ g ∈ p.gates, g.Canonical
  range : ∀ g ∈ p.gates, p.numInputs ≤ g.out ∧ g.out < p.numWires
  well_scoped : gateShape.Scoped p.inputs p.gates
  single : p.wireReuse = .none → gateShape.Fresh p.inputs p.gates
  outputs_defined : ∀ w ∈ p.outputs, w ∈ gateShape.defined p.inputs p.gates

theorem validateGateOperands_ok {g : Gate} {gi : Nat} {u : Unit} :
    validateGateOperands g gi = .ok u ↔ g.Canonical := by
  rcases g with ⟨in0, in1, out, op⟩
  cases op <;> simp [validateGateOperands, Gate.Canonical]

theorem chkOperands_ok {p : BooleanProgram} {marked : UInt32 → Bool} {gi : Nat} {g : Gate}
    {u : Unit} : chkOperands p marked gi g = .ok u ↔
      ∀ w ∈ g.reads, w < p.numWires ∧ isMarked p marked w := by
  rcases g with ⟨in0, in1, out, op⟩
  cases op <;> simp [chkOperands, chkRead, Gate.reads, and_assoc]

theorem validateGate_ok {p : BooleanProgram} {marked marked' : UInt32 → Bool} {gi : Nat}
    {g : Gate} :
    validateGate p marked gi g = .ok marked' ↔
      g.Canonical ∧ (∀ w ∈ g.reads, w < p.numWires ∧ isMarked p marked w) ∧
        g.out < p.numWires ∧ p.numInputs ≤ g.out ∧
        (p.wireReuse ≠ .none ∨ marked (g.out - p.numInputs) = false) ∧
        Function.update marked (g.out - p.numInputs) true = marked' := by
  simp [validateGate, validateGateOperands_ok, chkOperands_ok]

def Marks (p : BooleanProgram) (marked : UInt32 → Bool) (D : Set UInt32) : Prop :=
  ∀ w, p.numInputs ≤ w → (marked (w - p.numInputs) = true ↔ w ∈ D)

theorem Marks.isMarked_iff {p : BooleanProgram} {marked : UInt32 → Bool} {D : Set UInt32}
    (h : Marks p marked D) (hD : p.inputs ⊆ D) (w : UInt32) : isMarked p marked w ↔ w ∈ D := by
  by_cases hw : w < p.numInputs
  · exact ⟨fun _ => hD hw, fun _ => Or.inl hw⟩
  · rw [← h w (UInt32.not_lt.mp hw)]
    exact ⟨fun h => h.resolve_left hw, Or.inr⟩

theorem Marks.insert {p : BooleanProgram} {marked : UInt32 → Bool} {D : Set UInt32}
    (h : Marks p marked D) (w : UInt32) :
    Marks p (Function.update marked (w - p.numInputs) true) (insert w D) := by
  intro v hv
  by_cases hvw : v = w
  · simp [hvw]
  · have hne : v - p.numInputs ≠ w - p.numInputs := fun he => hvw ((UInt32.sub_left_inj _).mp he)
    rw [Function.update_of_ne hne, h v hv, Set.mem_insert_iff]
    exact ⟨Or.inr, fun h => h.resolve_left hvw⟩

theorem validateGates_ok {p : BooleanProgram} (gs : List Gate) (gi : Nat)
    {marked : UInt32 → Bool} {D : Set UInt32} (hm : Marks p marked D) (hi : p.inputs ⊆ D) :
    (∃ marked', validateGates p marked gi gs = .ok marked' ∧
      Marks p marked' (gateShape.defined D gs)) ↔
    (∀ g ∈ gs, g.Canonical) ∧ (∀ g ∈ gs, p.numInputs ≤ g.out ∧ g.out < p.numWires) ∧
      gateShape.Scoped D gs ∧ (p.wireReuse = .none → gateShape.Fresh D gs) ∧
      (∀ g ∈ gs, ∀ w ∈ g.reads, w < p.numWires) := by
  induction gs generalizing marked gi D with
  | nil => simpa [validateGates, Shape.Scoped, Shape.Fresh] using hm
  | cons g gs ih =>
    have ih := ih (gi + 1) (hm.insert g.out) (hi.trans (Set.subset_insert _ _))
    have reads : (∀ w ∈ g.reads, w < p.numWires ∧ isMarked p marked w) ↔
        (∀ w ∈ g.reads, w < p.numWires) ∧ ∀ w ∈ g.reads, w ∈ D := by
      simp only [hm.isMarked_iff hi]
      exact ⟨fun h => ⟨fun w hw => (h w hw).1, fun w hw => (h w hw).2⟩,
        fun h w hw => ⟨h.1 w hw, h.2 w hw⟩⟩
    have single (hout : p.numInputs ≤ g.out) :
        (p.wireReuse ≠ .none ∨ marked (g.out - p.numInputs) = false) ↔
          (p.wireReuse = .none → g.out ∉ D) := by
      rw [← hm g.out hout, Bool.not_eq_true, ← imp_iff_not_or]
    simp only [validateGates, bind_eq_ok, validateGate_ok, Shape.defined_cons, gateShape_out,
      List.forall_mem_cons, Shape.Scoped, Shape.Fresh, gateShape_reads, reads]
    constructor
    · rintro ⟨m, ⟨_, ⟨hc, ⟨hlt, hD⟩, hw, hout, hs, rfl⟩, hv⟩, hM⟩
      obtain ⟨h1, h2, h3, h4, h5⟩ := ih.mp ⟨m, hv, hM⟩
      exact ⟨⟨hc, h1⟩, ⟨⟨hout, hw⟩, h2⟩, ⟨hD, h3⟩,
        fun hn => ⟨(single hout).mp hs hn, h4 hn⟩, hlt, h5⟩
    · rintro ⟨⟨hc, h1⟩, ⟨⟨hout, hw⟩, h2⟩, ⟨hD, h3⟩, h4, hlt, h5⟩
      obtain ⟨m, hv, hM⟩ := ih.mpr ⟨h1, h2, h3, fun hn => (h4 hn).2, h5⟩
      exact ⟨m, ⟨_, ⟨hc, ⟨hlt, hD⟩, hw, hout, (single hout).mpr fun hn => (h4 hn).1, rfl⟩, hv⟩, hM⟩

theorem validateGates_marks {p : BooleanProgram} (gs : List Gate) {marked marked' : UInt32 → Bool}
    {gi : Nat} {D : Set UInt32} (hm : Marks p marked D)
    (h : validateGates p marked gi gs = .ok marked') : Marks p marked' (gateShape.defined D gs) := by
  induction gs generalizing marked gi D with
  | nil =>
    simp only [validateGates, pure_eq_ok] at h
    simpa [← h] using hm
  | cons g gs ih =>
    simp only [validateGates, bind_eq_ok, validateGate_ok] at h
    obtain ⟨_, ⟨-, -, -, -, -, rfl⟩, hv⟩ := h
    rw [Shape.defined_cons]
    exact ih (hm.insert g.out) hv

theorem validateOutputs_ok {p : BooleanProgram} {marked : UInt32 → Bool} {ws : List UInt32} :
    validateOutputs p marked ws = .ok () ↔ ∀ w ∈ ws, w < p.numWires ∧ isMarked p marked w := by
  induction ws with
  | nil => simp [validateOutputs]
  | cons w ws ih => simp [validateOutputs, ih, and_assoc]

theorem Valid.defined_lt {p : BooleanProgram} (h : Valid p) {w : UInt32}
    (hw : w ∈ gateShape.defined p.inputs p.gates) : w < p.numWires := by
  rcases hw with hw | hw
  · exact UInt32.lt_of_lt_of_le hw h.inputs_le
  · obtain ⟨g, hg, rfl⟩ := List.mem_map.mp hw
    exact (h.range g hg).2

theorem Valid.filter_outputs {p : BooleanProgram} (h : Valid p) :
    p.outputs.filter (fun w => w < p.numWires) = p.outputs :=
  List.filter_eq_self.mpr fun w hw => decide_eq_true (h.defined_lt (h.outputs_defined w hw))

theorem Valid.reads_lt {p : BooleanProgram} (h : Valid p) {g : Gate} (hg : g ∈ p.gates)
    {w : UInt32} (hw : w ∈ g.reads) : w < p.numWires :=
  h.defined_lt (h.well_scoped.reads_mem hg hw)

theorem marks_start (p : BooleanProgram) : Marks p (fun _ => false) p.inputs := by
  intro w hw
  simpa [BooleanProgram.inputs] using hw

theorem validateProgram_ok_iff {p : BooleanProgram} : validateProgram p = .ok () ↔ Valid p := by
  have gates := validateGates_ok p.gates 0 (marks_start p) subset_rfl
  constructor
  · intro h
    simp only [validateProgram, bind_eq_ok, expecting_eq_ok] at h
    obtain ⟨_, hi, _, hc, marked, hg, ho⟩ := h
    have hm := validateGates_marks p.gates (marks_start p) hg
    obtain ⟨h1, h2, h3, h4, -⟩ := gates.mp ⟨marked, hg, hm⟩
    rw [validateOutputs_ok] at ho
    refine ⟨hi, fun hn => ?_, fun hn => ?_, h1, h2, h3, h4, fun w hw => ?_⟩
    · simpa [validateCount, hn] using hc
    · simpa [validateCount, hn] using hc
    · exact (hm.isMarked_iff (Shape.subset_defined _ _ _) w).mp (ho w hw).2
  · intro h
    obtain ⟨marked, hg, hm⟩ := gates.mpr ⟨h.canonical, h.range, h.well_scoped, h.single,
      fun g hg w hw => h.reads_lt hg hw⟩
    simp only [validateProgram, bind_eq_ok, expecting_eq_ok]
    refine ⟨(), h.inputs_le, (), ?_, marked, hg, ?_⟩
    · by_cases hn : p.wireReuse = .none
      · simpa [validateCount, hn] using h.dense_count hn
      · simpa [validateCount, hn] using h.reuse_count hn
    · rw [validateOutputs_ok]
      intro w hw
      have hd := h.outputs_defined w hw
      exact ⟨h.defined_lt hd, (hm.isMarked_iff (Shape.subset_defined _ _ _) w).mpr hd⟩

end EmpTool.Ir
