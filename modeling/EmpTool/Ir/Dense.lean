import EmpTool.Ir.Execute

namespace EmpTool.Ir

open StraightLine

namespace BooleanProgram

def emit (p : BooleanProgram) (g : Gate) : BooleanProgram :=
  { p with numWires := p.numWires + 1, gates := p.gates ++ [g] }

def values {Wire : Type} [Inhabited Wire] (p : BooleanProgram) (ops : GateOps Wire)
    (inputs : List Wire) : UInt32 → Wire :=
  (gateMachine ops).run p.gates (inputEnv inputs)

theorem emit_values {Wire : Type} [Inhabited Wire] {p : BooleanProgram} {g : Gate} (ho : g.out = p.numWires)
    (ops : GateOps Wire) (inputs : List Wire) :
    (∀ w, w < p.numWires → (p.emit g).values ops inputs w = p.values ops inputs w) ∧
      (p.emit g).values ops inputs p.numWires =
        (gateMachine ops).value g (p.values ops inputs) := by
  have hrun : (p.emit g).values ops inputs =
      (gateMachine ops).exec (p.values ops inputs) g := by
    rw [BooleanProgram.values, BooleanProgram.emit, Machine.run_append]
    rfl
  rw [hrun]
  constructor
  · intro w hw
    refine Machine.exec_of_ne _ fun he => ?_
    change w = g.out at he
    rw [he, ho] at hw
    exact UInt32.lt_irrefl _ hw
  · rw [← ho]
    exact Machine.exec_out _ _ _

end BooleanProgram

structure Dense (p : BooleanProgram) : Prop where
  mode : p.wireReuse = .none
  count : p.numWires.toNat = p.numInputs.toNat + p.gates.length
  canonical : ∀ g ∈ p.gates, g.Canonical
  well_scoped : gateShape.Scoped p.inputs p.gates
  fresh : gateShape.Fresh p.inputs p.gates
  defined : gateShape.defined p.inputs p.gates = {w | w < p.numWires}

namespace Dense

theorem start {p : BooleanProgram} (hm : p.wireReuse = .none) (hg : p.gates = [])
    (hn : p.numWires = p.numInputs) : Dense p := by
  refine ⟨hm, by simp [hg, hn], by simp [hg], by rw [hg]; trivial, by rw [hg]; trivial, ?_⟩
  rw [hg, Shape.defined_nil, hn]
  rfl

variable {p : BooleanProgram} (h : Dense p)

include h

theorem inputs_le : p.numInputs ≤ p.numWires := by
  rw [UInt32.le_iff_toNat_le, h.count]
  omega

theorem valid (ho : ∀ w ∈ p.outputs, w < p.numWires) : Valid p := by
  refine ⟨h.inputs_le, fun _ => ?_, fun hr => absurd h.mode hr, h.canonical, fun g hg => ⟨?_, ?_⟩,
    h.well_scoped, fun _ => h.fresh, fun w hw => ?_⟩
  · have := h.count
    omega
  · exact UInt32.not_lt.mp ((Shape.fresh_iff.mp h.fresh).1 g hg)
  · have hd : g.out ∈ gateShape.defined p.inputs p.gates := Or.inr (List.mem_map_of_mem hg)
    rw [h.defined] at hd
    exact hd
  · rw [h.defined]
    exact ho w hw

theorem withOutputs (outputs : List UInt32) : Dense { p with outputs } :=
  ⟨h.mode, h.count, h.canonical, h.well_scoped, h.fresh, h.defined⟩

theorem emit {g : Gate} (hroom : p.numWires.toNat + 1 < 2 ^ 32) (hc : g.Canonical)
    (ho : g.out = p.numWires) (hr : ∀ w ∈ g.reads, w < p.numWires) : Dense (p.emit g) := by
  have hnext := toNat_succ hroom
  refine ⟨h.mode, ?_, ?_, ?_, ?_, ?_⟩
  · simp only [BooleanProgram.emit, hnext, h.count, List.length_append, List.length_singleton]
    omega
  · intro g' hg'
    rcases List.mem_append.mp hg' with hg' | hg'
    · exact h.canonical g' hg'
    · rw [List.mem_singleton.mp hg']
      exact hc
  · refine (Shape.scoped_append _ _ _ _).mpr ⟨h.well_scoped, ?_, trivial⟩
    intro w hw
    change w ∈ gateShape.defined p.inputs p.gates
    rw [h.defined]
    exact hr w hw
  · refine (Shape.fresh_append _ _ _ _).mpr ⟨h.fresh, ?_, trivial⟩
    change g.out ∉ gateShape.defined p.inputs p.gates
    rw [h.defined, ho]
    exact UInt32.lt_irrefl _
  · have hdef : gateShape.defined (p.emit g).inputs (p.emit g).gates =
        gateShape.defined {w | w < p.numWires} [g] := by
      rw [← h.defined, ← Shape.defined_append]
      rfl
    rw [hdef]
    ext w
    simp only [Shape.defined, List.map_cons, List.map_nil, List.mem_singleton, gateShape_out, ho,
      Set.mem_ofPred_eq, BooleanProgram.emit, UInt32.lt_iff_toNat_lt, hnext, ← UInt32.toNat_inj]
    omega

end Dense

end EmpTool.Ir
