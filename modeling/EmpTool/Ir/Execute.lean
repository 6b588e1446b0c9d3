import EmpTool.Ir.Context
import EmpTool.Ir.Validate
import Mathlib.Control.Traversable.Basic

namespace EmpTool.Ir

open StraightLine

variable {m : Type → Type} {Wire : Type}

structure Visitor (m : Type → Type) (S : Type) where
  andGate : S → UInt32 → UInt32 → UInt32 → m S
  xorGate : S → UInt32 → UInt32 → UInt32 → m S
  notGate : S → UInt32 → UInt32 → m S
  constGate : S → UInt32 → Bool → m S

def forEachGate {S : Type} [Monad m] (v : Visitor m S) : List Gate → S → m S
  | [], s => pure s
  | g :: gs, s => do
      let s ← match g.op with
        | .and => v.andGate s g.out g.in0 g.in1
        | .xor => v.xorGate s g.out g.in0 g.in1
        | .not => v.notGate s g.out g.in0
        | .const0 => v.constGate s g.out false
        | .const1 => v.constGate s g.out true
      forEachGate v gs s

structure CircuitScratch (Wire : Type) where
  wires : List Wire := []

def CircuitScratch.ensure [Inhabited Wire] (s : CircuitScratch Wire) (n : UInt32) :
    CircuitScratch Wire :=
  if s.wires.length < n.toNat then
    ⟨s.wires ++ List.replicate (n.toNat - s.wires.length) default⟩
  else s

theorem ensure_length [Inhabited Wire] (s : CircuitScratch Wire) (n : UInt32) :
    n.toNat ≤ (s.ensure n).wires.length := by
  unfold CircuitScratch.ensure
  split
  · simp only [List.length_append, List.length_replicate]; omega
  · omega

inductive Access where
  | seed (slot : Nat)
  | read (slot : Nat)
  | write (slot : Nat)
  deriving DecidableEq, Repr

def Access.slot : Access → Nat
  | .seed i => i
  | .read i => i
  | .write i => i

structure Slots (Wire : Type) where
  wires : List Wire
  log : List Access := []

namespace Slots

def put (s : Slots Wire) (a : Access) (v : Wire) : Slots Wire where
  wires := s.wires.set a.slot v
  log := s.log ++ [a]

def get [Inhabited Wire] (s : Slots Wire) (w : UInt32) : Wire := s.wires.getD w.toNat default

def read [Inhabited Wire] (s : Slots Wire) (w : UInt32) : Wire × Slots Wire :=
  (s.get w, { s with log := s.log ++ [.read w.toNat] })

def readAll [Inhabited Wire] : List UInt32 → Slots Wire → List Wire × Slots Wire
  | [], s => ([], s)
  | w :: ws, s =>
    let (v, s) := s.read w
    let (vs, s) := readAll ws s
    (v :: vs, s)

def write (s : Slots Wire) (w : UInt32) (v : Wire) : Slots Wire := s.put (.write w.toNat) v

def seed : Nat → List Wire → Slots Wire → Slots Wire
  | _, [], s => s
  | i, v :: vs, s => seed (i + 1) vs (s.put (.seed i) v)

def start [Inhabited Wire] (p : BooleanProgram) (inputs : List Wire)
    (scratch : CircuitScratch Wire) : Slots Wire :=
  seed 0 inputs { wires := (scratch.ensure p.numWires).wires }

@[simp] theorem put_length (s : Slots Wire) (a : Access) (v : Wire) :
    (s.put a v).wires.length = s.wires.length := by simp [put]

theorem readAll_eq [Inhabited Wire] (ws : List UInt32) (s : Slots Wire) :
    readAll ws s =
      (ws.map s.get, { s with log := s.log ++ ws.map fun w => .read w.toNat }) := by
  induction ws generalizing s with
  | nil => rw [List.map_nil, List.map_nil, List.append_nil]; rfl
  | cons w ws ih =>
    rw [readAll]
    simp only [ih, read, List.map_cons, List.append_assoc, List.singleton_append]
    rfl

@[simp] theorem write_length (s : Slots Wire) (w : UInt32) (v : Wire) :
    (s.write w v).wires.length = s.wires.length := by simp [write]

theorem get_write [Inhabited Wire] {s : Slots Wire} {w : UInt32} (h : w.toNat < s.wires.length)
    (v : Wire) : (s.write w v).get = Function.update s.get w v := by
  funext x
  by_cases hx : x = w
  · subst hx
    simp [write, put, get, Access.slot, h]
  · have hne : w.toNat ≠ x.toNat := fun he => hx (UInt32.toNat_inj.mp he).symm
    simp [write, put, get, Access.slot, hx, List.getElem?_set_ne hne]

theorem seed_wires_length (i : Nat) (vs : List Wire) (s : Slots Wire) :
    (seed i vs s).wires.length = s.wires.length := by
  induction vs generalizing i s with
  | nil => rfl
  | cons v vs ih => rw [seed, ih, put_length]

theorem seed_log (i : Nat) (vs : List Wire) (s : Slots Wire) :
    (seed i vs s).log = s.log ++ (List.range' i vs.length).map Access.seed := by
  induction vs generalizing i s with
  | nil => simp [seed]
  | cons v vs ih => rw [seed, ih]; simp [put, List.range'_succ]

theorem seed_getElem (i : Nat) (vs : List Wire) (s : Slots Wire) (j : Nat)
    (h : i + vs.length ≤ s.wires.length) :
    (seed i vs s).wires[j]? = if i ≤ j ∧ j < i + vs.length then vs[j - i]? else s.wires[j]? := by
  induction vs generalizing i s with
  | nil =>
    have hj : ¬ (i ≤ j ∧ j < i + 0) := by omega
    simp [seed]
  | cons v vs ih =>
    simp only [List.length_cons] at h ⊢
    rw [seed, ih (i + 1) _ (by simp; omega)]
    by_cases hji : j = i
    · subst hji
      have hlt : j < s.wires.length := by omega
      simp [put, Access.slot, hlt]
    · have hset : (s.put (.seed i) v).wires[j]? = s.wires[j]? := by
        simp only [put, Access.slot]
        exact List.getElem?_set_ne (Ne.symm hji)
      rw [hset]
      by_cases hj : i + 1 ≤ j ∧ j < i + 1 + vs.length
      · have hsub : j - i = (j - (i + 1)) + 1 := by omega
        rw [if_pos hj, if_pos (by omega), hsub, List.getElem?_cons_succ]
      · rw [if_neg hj, if_neg (by omega)]

theorem get_seed [Inhabited Wire] {vs : List Wire} {s : Slots Wire}
    (h : vs.length ≤ s.wires.length) {w : UInt32} (hw : w.toNat < vs.length) :
    (seed 0 vs s).get w = inputEnv vs w := by
  have hg := seed_getElem 0 vs s w.toNat (by omega)
  rw [if_pos (by omega)] at hg
  simp [get, inputEnv, List.getD_eq_getElem?_getD, hg]

section Start

variable [Inhabited Wire] {p : BooleanProgram} {inputs : List Wire}

theorem start_length (scratch : CircuitScratch Wire) :
    p.numWires.toNat ≤ (start p inputs scratch).wires.length := by
  rw [start, seed_wires_length]
  exact ensure_length scratch p.numWires

theorem start_log (hin : inputs.length = p.numInputs.toNat) (scratch : CircuitScratch Wire) :
    (start p inputs scratch).log = (List.range p.numInputs.toNat).map .seed := by
  rw [start, seed_log, hin, ← List.range_eq_range']
  rfl

theorem start_get (hle : p.numInputs ≤ p.numWires) (hin : inputs.length = p.numInputs.toNat)
    (scratch : CircuitScratch Wire) :
    ∀ w ∈ p.inputs, (start p inputs scratch).get w = inputEnv inputs w := by
  intro w hw
  have hlen := ensure_length scratch p.numWires
  have hle := UInt32.le_iff_toNat_le.mp hle
  apply get_seed
  · simp only
    omega
  · rw [hin]
    exact UInt32.lt_iff_toNat_lt.mp hw

end Start

end Slots

section Bridge

variable [Inhabited Wire] [Monad m] (ctx : BooleanContext m Wire)

def bridge : Visitor m (Slots Wire) where
  andGate s o a b := do
    let (x, s) := s.read a
    let (y, s) := s.read b
    let v ← ctx.andGate x y
    pure (s.write o v)
  xorGate s o a b := do
    let (x, s) := s.read a
    let (y, s) := s.read b
    let v ← ctx.xorGate x y
    pure (s.write o v)
  notGate s o a := do
    let (x, s) := s.read a
    let v ← ctx.notGate x
    pure (s.write o v)
  constGate s o b := do
    let v ← ctx.publicBit b
    pure (s.write o v)

def Circuit.executeProgram (p : BooleanProgram) (inputs : List Wire) (numOut : Nat)
    (scratch : CircuitScratch Wire) : Except String (m (List Wire × Slots Wire)) := do
  expecting (inputs.length = p.numInputs.toNat)
    "execute_program: input count != program num_inputs"
  expecting (numOut = p.outputs.length)
    "execute_program: output count != program outputs"
  pure (Slots.readAll p.outputs <$>
    forEachGate (bridge ctx) p.gates (Slots.start p inputs scratch))

structure ProgramWorkspace (Wire : Type) where
  scratch : CircuitScratch Wire := {}
  out : List Wire := []
  ba : List Wire := []
  bb : List Wire := []
  bo : List Wire := []
  bouts : List UInt32 := []

def executeProgramIn (p : BooleanProgram) (inputs : List Wire) (ws : ProgramWorkspace Wire) :
    Except String (m (List Wire × ProgramWorkspace Wire)) := do
  let run ← Circuit.executeProgram ctx p inputs p.outputs.length ws.scratch
  pure ((fun r => (r.1, { ws with scratch := ⟨r.2.wires⟩, out := r.1 })) <$> run)

def executeProgram (p : BooleanProgram) (inputs : List Wire) : Except String (m (List Wire)) := do
  let run ← executeProgramIn ctx p inputs {}
  pure (Prod.fst <$> run)

def Gate.log (g : Gate) : List Access :=
  g.reads.map (fun w => .read w.toNat) ++ [.write g.out.toNat]

variable [LawfulMonad m]

theorem forEachGate_bridge_cons (g : Gate) (gs : List Gate) (s : Slots Wire) :
    forEachGate (bridge ctx) (g :: gs) s = ctx.gate g s.get >>= fun v =>
      forEachGate (bridge ctx) gs ((s.readAll g.reads).2.write g.out v) := by
  rcases g with ⟨in0, in1, out, op⟩
  cases op <;>
    simp [forEachGate, bridge, BooleanContext.gate, Gate.reads, Slots.readAll, Slots.read, Slots.get]

theorem forEachGate_observed (gs : List Gate) (s : Slots Wire)
    (h : ∀ g ∈ gs, g.out.toNat < s.wires.length) :
    (fun s' => (s'.get, s'.log)) <$> forEachGate (bridge ctx) gs s =
      (fun e => (e, s.log ++ gs.flatMap Gate.log)) <$> ctx.runGates gs s.get := by
  induction gs generalizing s with
  | nil => simp [forEachGate, BooleanContext.runGates]
  | cons g gs ih =>
    rw [forEachGate_bridge_cons, BooleanContext.runGates, map_bind, map_bind]
    refine bind_congr fun v => ?_
    rw [Slots.readAll_eq]
    have hlog : s.log ++ g.reads.map (fun w => .read w.toNat) ++ [.write g.out.toNat] =
        s.log ++ g.log := List.append_assoc _ _ _
    rw [ih, Slots.get_write (by exact h g List.mem_cons_self)]
    · simp only [Slots.write, Slots.put, hlog, List.flatMap_cons, List.append_assoc]
      rfl
    · intro g' hg'
      rw [Slots.write_length]
      exact h g' (List.mem_cons_of_mem g hg')

def BooleanProgram.accessLog (p : BooleanProgram) : List Access :=
  (List.range p.numInputs.toNat).map .seed ++ p.gates.flatMap Gate.log ++
    p.outputs.map fun w => .read w.toNat

theorem execute_observed {p : BooleanProgram} (hv : Valid p) {inputs : List Wire}
    (hin : inputs.length = p.numInputs.toNat) (scratch : CircuitScratch Wire) :
    ∃ run, Circuit.executeProgram ctx p inputs p.outputs.length scratch = .ok run ∧
      (fun r => (r.1, r.2.log)) <$> run =
        (fun e => (p.outputs.map e, p.accessLog)) <$> ctx.runGates p.gates (inputEnv inputs) := by
  have hrun : Circuit.executeProgram ctx p inputs p.outputs.length scratch =
      .ok (Slots.readAll p.outputs <$>
        forEachGate (bridge ctx) p.gates (Slots.start p inputs scratch)) := by
    simp [Circuit.executeProgram, hin]
  refine ⟨_, hrun, ?_⟩
  have hout : ∀ g ∈ p.gates, g.out.toNat < (Slots.start p inputs scratch).wires.length := by
    intro g hg
    have hlt := UInt32.lt_iff_toNat_lt.mp (hv.range g hg).2
    exact Nat.lt_of_lt_of_le hlt (Slots.start_length scratch)
  have hobs := forEachGate_observed ctx p.gates _ hout
  have hsame := ctx.runGates_congr (fun e => (p.outputs.map e, p.accessLog)) hv.well_scoped
    (Slots.start_get hv.inputs_le hin scratch)
    (fun a b hab => by rw [List.map_congr_left fun w hw => hab w (hv.outputs_defined w hw)])
  calc (fun r => (r.1, r.2.log)) <$> Slots.readAll p.outputs <$>
        forEachGate (bridge ctx) p.gates (Slots.start p inputs scratch)
      = (fun x => (p.outputs.map x.1, x.2 ++ p.outputs.map fun w => Access.read w.toNat)) <$>
        (fun s' => (s'.get, s'.log)) <$>
          forEachGate (bridge ctx) p.gates (Slots.start p inputs scratch) := by
        simp [Slots.readAll_eq]
    _ = (fun e => (p.outputs.map e, p.accessLog)) <$>
        ctx.runGates p.gates (Slots.start p inputs scratch).get := by
        rw [hobs, Slots.start_log hin]
        simp [BooleanProgram.accessLog]
    _ = _ := hsame

structure Disciplined (p : BooleanProgram) (log : List Access) : Prop where
  in_range : ∀ a ∈ log, a.slot < p.numWires.toNat
  read_after_write : ∀ pre w post, log = pre ++ .read w :: post → p.numInputs.toNat ≤ w →
    .write w ∈ pre
  inputs_kept : ∀ w, .write w ∈ log → p.numInputs.toNat ≤ w

theorem Gate.write_mem_log {g : Gate} {w : Nat} : .write w ∈ g.log ↔ w = g.out.toNat := by
  simp [Gate.log]

theorem write_mem_logs {gs : List Gate} {w : Nat} :
    .write w ∈ gs.flatMap Gate.log ↔ ∃ g ∈ gs, g.out.toNat = w := by
  simp [Gate.write_mem_log, eq_comm]

def ReadsFrom (W : Set Nat) (log : List Access) : Prop :=
  ∀ pre w post, log = pre ++ .read w :: post → w ∈ W ∨ .write w ∈ pre

theorem readsFrom_of_mem {W : Set Nat} {log : List Access} (h : ∀ w, .read w ∈ log → w ∈ W) :
    ReadsFrom W log := by
  intro pre w post he
  exact Or.inl (h w (by simp [he]))

theorem ReadsFrom.append {W : Set Nat} {l l' : List Access} (h : ReadsFrom W l)
    (h' : ReadsFrom {w | w ∈ W ∨ .write w ∈ l} l') : ReadsFrom W (l ++ l') := by
  intro pre w post he
  rcases List.append_eq_append_iff.mp he with ⟨mid, rfl, hrest⟩ | ⟨mid, hl, hmid⟩
  · rcases h' mid w post hrest with (hw | hw) | hw
    · exact Or.inl hw
    · exact Or.inr (List.mem_append_left _ hw)
    · exact Or.inr (List.mem_append_right _ hw)
  · cases mid with
    | nil =>
      have hpre : l = pre := by simpa using hl
      rcases h' [] w post (by simpa using hmid.symm) with (hw | hw) | hw
      · exact Or.inl hw
      · exact Or.inr (hpre ▸ hw)
      · simp at hw
    | cons a mid =>
      simp only [List.cons_append, List.cons.injEq] at hmid
      exact h pre w mid (by rw [hl, ← hmid.1])

theorem gates_readsFrom {D : Set UInt32} {W : Set Nat} {gs : List Gate}
    (hs : gateShape.Scoped D gs) (hD : ∀ v ∈ D, v.toNat ∈ W) :
    ReadsFrom W (gs.flatMap Gate.log) := by
  induction gs generalizing D W with
  | nil => exact readsFrom_of_mem (by simp)
  | cons g gs ih =>
    rw [List.flatMap_cons]
    apply ReadsFrom.append
    · apply readsFrom_of_mem
      intro w hw
      obtain ⟨v, hv, rfl⟩ : ∃ v ∈ g.reads, v.toNat = w := by simpa [Gate.log] using hw
      exact hD v (hs.1 v hv)
    · apply ih hs.2
      rintro v (rfl | hv)
      · exact Or.inr (Gate.write_mem_log.mpr rfl)
      · exact Or.inl (hD v hv)

theorem accessLog_disciplined {p : BooleanProgram} (hv : Valid p) : Disciplined p p.accessLog where
  in_range := by
    have hle := UInt32.le_iff_toNat_le.mp hv.inputs_le
    intro a ha
    simp only [BooleanProgram.accessLog, List.mem_append, List.mem_map, List.mem_flatMap,
      List.mem_range, Gate.log, List.mem_singleton] at ha
    rcases ha with (⟨i, hi, rfl⟩ | ⟨g, hg, ⟨w, hw, rfl⟩ | rfl⟩) | ⟨w, hw, rfl⟩
    · simp only [Access.slot]; omega
    · exact UInt32.lt_iff_toNat_lt.mp (hv.reads_lt hg hw)
    · exact UInt32.lt_iff_toNat_lt.mp (hv.range g hg).2
    · exact UInt32.lt_iff_toNat_lt.mp (hv.defined_lt (hv.outputs_defined w hw))
  read_after_write := by
    have hr : ReadsFrom {w | w < p.numInputs.toNat} p.accessLog := by
      apply ReadsFrom.append
      · apply ReadsFrom.append
        · exact readsFrom_of_mem (by simp)
        · apply gates_readsFrom hv.well_scoped
          exact fun v hv => Or.inl (UInt32.lt_iff_toNat_lt.mp hv)
      · apply readsFrom_of_mem
        intro w hw
        obtain ⟨v, hv', rfl⟩ : ∃ v ∈ p.outputs, v.toNat = w := by simpa using hw
        rcases hv.outputs_defined v hv' with hlt | hmem
        · exact Or.inl (UInt32.lt_iff_toNat_lt.mp hlt)
        · obtain ⟨g, hg, hgv⟩ := List.mem_map.mp hmem
          exact Or.inr (List.mem_append_right _ (write_mem_logs.mpr ⟨g, hg, congrArg _ hgv⟩))
    intro pre w post h hw
    exact (hr pre w post h).resolve_left (Nat.not_lt.mpr hw)
  inputs_kept := by
    intro w hw
    simp only [BooleanProgram.accessLog, List.mem_append, write_mem_logs] at hw
    rcases hw with (hw | ⟨g, hg, rfl⟩) | hw
    · simp at hw
    · exact UInt32.le_iff_toNat_le.mp (hv.range g hg).1
    · simp at hw

theorem execute_program_isolated {p : BooleanProgram} (hv : validateProgram p = .ok ())
    {inputs : List Wire} (hin : inputs.length = p.numInputs.toNat) :
    ∃ (log : List Access) (outs : m (List Wire)), Disciplined p log ∧
      ∀ scratch : CircuitScratch Wire, ∃ run,
        Circuit.executeProgram ctx p inputs p.outputs.length scratch = .ok run ∧
        (fun r => (r.1, r.2.log)) <$> run = (fun o => (o, log)) <$> outs := by
  have valid := validateProgram_ok_iff.mp hv
  refine ⟨p.accessLog, (fun e => p.outputs.map e) <$> ctx.runGates p.gates (inputEnv inputs),
    accessLog_disciplined valid, fun scratch => ?_⟩
  obtain ⟨run, hrun, hobs⟩ := execute_observed ctx valid hin scratch
  refine ⟨run, hrun, ?_⟩
  rw [hobs]
  simp

def reuseSample : BooleanProgram where
  numWires := 4
  numInputs := 2
  wireReuse := .linear
  gates := [⟨0, 1, 2, .xor⟩, ⟨2, 0, 2, .not⟩, ⟨0, 2, 3, .and⟩]
  outputs := [3]

theorem execute_program_isolated_reuseSample :
    ∃ (log : List Access) (outs : Id (List UInt8)), Disciplined reuseSample log ∧
      ∀ scratch : CircuitScratch UInt8, ∃ run,
        Circuit.executeProgram clearCtx.context reuseSample [1, 1] 1 scratch = .ok run ∧
        (fun r => (r.1, r.2.log)) <$> run = (fun o => (o, log)) <$> outs :=
  execute_program_isolated (m := Id) clearCtx.context (by rfl) rfl

theorem executeProgram_pure {p : BooleanProgram} (hv : Valid p) (ops : GateOps Wire)
    {inputs : List Wire} (hin : inputs.length = p.numInputs.toNat) (ws : ProgramWorkspace Wire) :
    ∃ ws', executeProgramIn (m := Id) ops.context p inputs ws =
      .ok (p.evaluate ops inputs, ws') := by
  obtain ⟨run, hrun, hobs⟩ := execute_observed (m := Id) ops.context hv hin ws.scratch
  rw [runGates_pure] at hobs
  have hout : run.1 = p.evaluate ops inputs := congrArg Prod.fst hobs
  refine ⟨{ ws with scratch := ⟨run.2.wires⟩, out := run.1 }, ?_⟩
  simp only [executeProgramIn, hrun, ← hout]
  rfl

theorem executeProgram_eq {p : BooleanProgram} (hv : Valid p) (ops : GateOps Wire)
    {inputs : List Wire} (hin : inputs.length = p.numInputs.toNat) :
    executeProgram (m := Id) ops.context p inputs = .ok (p.evaluate ops inputs) := by
  obtain ⟨ws', h⟩ := executeProgram_pure hv ops hin {}
  simp only [executeProgram, h]
  rfl

end Bridge

end EmpTool.Ir
